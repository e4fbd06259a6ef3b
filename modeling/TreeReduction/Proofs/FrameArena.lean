import Mathlib.Algebra.GroupWithZero.Nat
import TreeReduction.Proofs.Instantiation

set_option autoImplicit false

/-!
# Instantiation with an arena of frames

A body can be filled in without recursion. The nodes that are still to be filled in wait on a stack.
Every container under construction is a frame of an arena; it counts the children that it still
waits for and knows the frame that it is a child of itself by its index. A finished value is put
into the frame that it belongs to, and a frame that got its last child is finished in turn
(`Instantiation.attach`).

`Instantiation.assemble_eq_instantiate` says that this is instantiation: it replaces every variable
site, or fails at the first name that has no binding. What the counters and indices rule out is a
`Mishap`, at which the machine would stop; it never comes to one.
-/

namespace TreeReduction.Instantiation

/-! ## The machine -/

/-- What a container under construction holds so far. -/
inductive Contents where
  | items (done : List Value)
  | entries (done : Entries Value)

/-- Puts another child into a container. Only a map looks at the key. -/
def Contents.add (contents : Contents) (key : Option String) (v : Value) : Contents :=
  match contents with
  | .items done => .items (done ++ [v])
  | .entries done => .entries (Entries.insert (key.getD "") v done)

/-- A container with what it holds so far. -/
def Contents.toValue : Contents → Value
  | .items done => .list done
  | .entries done => .map done

/-- A container under construction, which still waits for `remaining` children. It is a child of the
frame at `parent`, if it is not the root, and goes there under `key`. -/
structure Frame where
  parent : Option Nat
  key : Option String
  remaining : Nat
  contents : Contents

/-- A node of the body that is still to be filled in, and the frame that it goes to. -/
structure Pending where
  node : Value
  parent : Option Nat
  key : Option String

/-- What must not happen. -/
inductive Mishap where
  /-- a value goes to a frame that is not there -/
  | noFrame
  /-- a frame gets a child that it does not wait for -/
  | notWaiting
  /-- there is nothing left to do and the root is not complete -/
  | noRoot

/-- The number of children that the frames of an arena still wait for. -/
def awaited (frames : List Frame) : Nat :=
  (frames.map (·.remaining)).sum

theorem awaited_set_lt {frames : List Frame} {i : Nat} {frame after : Frame}
    (h : frames[i]? = some frame) (hlt : after.remaining < frame.remaining) :
    awaited (frames.set i after) < awaited frames := by
  induction frames generalizing i with
  | nil => simp at h
  | cons first rest ih =>
    cases i with
    | zero =>
      obtain rfl : first = frame := by simpa using h
      simpa [awaited] using hlt
    | succ i =>
      have hrest := ih (by simpa using h)
      simpa [awaited] using hrest

/-- Puts a finished value into the frame that it belongs to. A frame that this completes is emptied
and what it held goes to its own parent. Answers the root, if that is what was completed, and the
arena after it. -/
def attach (frames : List Frame) (v : Value) (parent : Option Nat) (key : Option String) :
    Except Mishap (Option Value × List Frame) :=
  match parent with
  | none => .ok (some v, frames)
  | some i =>
    match _h : frames[i]? with
    | none => .error .noFrame
    | some frame =>
      match _hr : frame.remaining with
      | 0 => .error .notWaiting
      | 1 =>
        attach (frames.set i { frame with remaining := 0, contents := .items [] })
          (frame.contents.add key v).toValue frame.parent frame.key
      | n + 2 =>
        let after := { frame with remaining := n + 1, contents := frame.contents.add key v }
        .ok (none, frames.set i after)
  termination_by awaited frames
  decreasing_by exact awaited_set_lt _h (by simp only; omega)

/-- An empty container and the children that belong into it, for a list or map that has any. -/
def opened? : Value → Option (Contents × List (Option String × Value))
  | .list (x :: rest) => some (.items [], (x :: rest).map (none, ·))
  | .map (p :: rest) => some (.entries [], (p :: rest).map fun p => (some p.1, p.2))
  | _ => none

/-- Puts the children of the frame at `parent` on the work, the last first, so that the first comes
to lie on top. -/
def push (parent : Nat) (children : List (Option String × Value)) (work : List Pending) :
    List Pending :=
  children.reverse.foldl (fun work child => ⟨child.2, some parent, child.1⟩ :: work) work

/-- Where the machine stands after a round. -/
inductive Progress where
  | finished (result : Except UnboundVariable Value)
  | going (work : List Pending) (frames : List Frame)

/-- Hands on a finished value while some work is left. -/
def deliver (frames : List Frame) (v : Value) (parent : Option Nat) (key : Option String)
    (work : List Pending) : Except Mishap Progress :=
  (attach frames v parent key).map fun
    | (some root, _) => .finished (.ok root)
    | (none, frames) => .going work frames

/-- Fills in the node on top of the work: a variable site by its binding, a container with children
by a new frame and its children on the work, and anything else by itself. -/
def step (bindings : Bindings) (top : Pending) (work : List Pending) (frames : List Frame) :
    Except Mishap Progress :=
  match top.node.variableName? with
  | some name =>
    match Entries.get? bindings name with
    | some bound => deliver frames bound top.parent top.key work
    | none => .ok (.finished (.error ⟨name⟩))
  | none =>
    match opened? top.node with
    | some (contents, children) =>
      .ok (.going (push frames.length children work)
        (frames ++ [⟨top.parent, top.key, children.length, contents⟩]))
    | none => deliver frames top.node top.parent top.key work

/-! ## The work shrinks -/

theorem push_eq (parent : Nat) (children : List (Option String × Value)) (work : List Pending) :
    push parent children work =
      children.map (fun child => ⟨child.2, some parent, child.1⟩) ++ work := by
  unfold push
  rw [List.foldl_reverse]
  induction children with
  | nil => rfl
  | cons child rest ih =>
    rw [List.foldr_cons, ih]
    rfl

/-- The number of nodes that are still to be filled in. -/
def pendingNodes (work : List Pending) : Nat :=
  (work.map (·.node.nodes)).sum

theorem nodesItems_eq (items : List Value) :
    Value.nodesItems items = (items.map Value.nodes).sum := by
  induction items with
  | nil => rfl
  | cons x rest ih => rw [Value.nodesItems, ih, List.map_cons, List.sum_cons]

theorem nodesEntries_eq (entries : List (String × Value)) :
    Value.nodesEntries entries = (entries.map (·.2.nodes)).sum := by
  induction entries with
  | nil => rfl
  | cons p rest ih => rw [Value.nodesEntries, ih, List.map_cons, List.sum_cons]

theorem nodes_pos (v : Value) : 0 < v.nodes := by
  cases v <;> simp [Value.nodes]

/-- The children of a container have one node less than the container. -/
theorem nodes_of_opened? {node : Value} {contents : Contents}
    {children : List (Option String × Value)} (h : opened? node = some (contents, children)) :
    node.nodes = (children.map (·.2.nodes)).sum + 1 := by
  unfold opened? at h
  split at h
  · obtain ⟨-, rfl⟩ := Prod.mk.inj (Option.some.inj h)
    rw [Value.nodes, nodesItems_eq, List.map_map]
    rfl
  · obtain ⟨-, rfl⟩ := Prod.mk.inj (Option.some.inj h)
    rw [Value.nodes, nodesEntries_eq, List.map_map]
    rfl
  · simp at h

theorem going_of_deliver {frames frames' : List Frame} {v : Value} {parent : Option Nat}
    {key : Option String} {work work' : List Pending}
    (h : deliver frames v parent key work = .ok (.going work' frames')) : work' = work := by
  unfold deliver at h
  cases hattach : attach frames v parent key with
  | error mishap => simp [hattach, Except.map] at h
  | ok result =>
    obtain ⟨_ | root, frames''⟩ := result
    · simp only [hattach, Except.map, Except.ok.injEq, Progress.going.injEq] at h
      exact h.1.symm
    · simp [hattach, Except.map] at h

/-- A round takes a node off the work and puts at most what is below it on it. -/
theorem pendingNodes_step_lt {bindings : Bindings} {top : Pending} {work work' : List Pending}
    {frames frames' : List Frame}
    (h : step bindings top work frames = .ok (.going work' frames')) :
    pendingNodes work' < pendingNodes (top :: work) := by
  have hpos := nodes_pos top.node
  have hsame : ∀ {v : Value},
      deliver frames v top.parent top.key work = .ok (.going work' frames') →
        pendingNodes work' < pendingNodes (top :: work) := by
    intro v hdeliver
    rw [going_of_deliver hdeliver, pendingNodes, pendingNodes, List.map_cons, List.sum_cons]
    omega
  unfold step at h
  split at h
  · split at h
    · exact hsame h
    · simp at h
  · split at h
    · rename_i contents children hopened
      simp only [Except.ok.injEq, Progress.going.injEq] at h
      have hnodes := nodes_of_opened? hopened
      rw [← h.1, push_eq, pendingNodes, pendingNodes, List.map_append, List.sum_append,
        List.map_map, List.map_cons, List.sum_cons]
      simp only [Function.comp_def]
      omega
    · exact hsame h

/-- Fills in the nodes on the work, from the top, until the root is complete or a name has no
binding. -/
def loop (bindings : Bindings) (work : List Pending) (frames : List Frame) :
    Except Mishap (Except UnboundVariable Value) :=
  match work with
  | [] => .error .noRoot
  | top :: work =>
    match _h : step bindings top work frames with
    | .error mishap => .error mishap
    | .ok (.finished result) => .ok result
    | .ok (.going work frames) => loop bindings work frames
  termination_by pendingNodes work
  decreasing_by exact pendingNodes_step_lt _h

/-- Fills in a body. -/
def assemble (bindings : Bindings) (body : Value) : Except Mishap (Except UnboundVariable Value) :=
  loop bindings [⟨body, none, none⟩] []

/-! ## Handing on a value -/

theorem getElem?_middle (before after : List Frame) (frame : Frame) :
    (before ++ frame :: after)[before.length]? = some frame := by
  simp

theorem set_middle (before after : List Frame) (frame other : Frame) :
    (before ++ frame :: after).set before.length other = before ++ other :: after := by
  simp

section Attach

variable (before after : List Frame) (parent : Option Nat) (key : Option String)
  (contents : Contents) (v : Value) (own : Option String)

theorem attach_root (frames : List Frame) : attach frames v none key = .ok (some v, frames) := by
  rw [attach]

/-- The last child completes its frame. -/
theorem attach_last :
    attach (before ++ ⟨parent, key, 1, contents⟩ :: after) v (some before.length) own =
      attach (before ++ ⟨parent, key, 0, .items []⟩ :: after) (contents.add own v).toValue parent
        key := by
  rw [attach]
  split
  · rename_i h
    simp at h
  · rename_i frame h
    obtain rfl : _ = frame := Option.some.inj ((getElem?_middle before after _).symm.trans h)
    rw [set_middle]

/-- Any child before it does not. -/
theorem attach_more (n : Nat) :
    attach (before ++ ⟨parent, key, n + 2, contents⟩ :: after) v (some before.length) own =
      .ok (none, before ++ ⟨parent, key, n + 1, contents.add own v⟩ :: after) := by
  rw [attach]
  split
  · rename_i h
    simp at h
  · rename_i frame h
    obtain rfl : _ = frame := Option.some.inj ((getElem?_middle before after _).symm.trans h)
    simp only [set_middle]

end Attach

/-! ## Rounds -/

section Rounds

variable {bindings : Bindings} {node : Value} (parent : Option Nat) (key : Option String)
  (work : List Pending) (frames : List Frame)

theorem step_site (name : String) :
    step bindings ⟨.site name, parent, key⟩ work frames =
      match Entries.get? bindings name with
      | some bound => deliver frames bound parent key work
      | none => .ok (.finished (.error ⟨name⟩)) := by
  have hname : (Value.site name).variableName? = some name := Value.variableName?_eq_some_iff.2 rfl
  rw [step, hname]

theorem step_of_opened? {contents : Contents} {children : List (Option String × Value)}
    (hname : node.variableName? = none) (hopened : opened? node = some (contents, children)) :
    step bindings ⟨node, parent, key⟩ work frames =
      .ok (.going (push frames.length children work)
        (frames ++ [⟨parent, key, children.length, contents⟩])) := by
  rw [step, hname]
  simp only [hopened]

theorem step_of_childless (hname : node.variableName? = none) (hopened : opened? node = none) :
    step bindings ⟨node, parent, key⟩ work frames = deliver frames node parent key work := by
  rw [step, hname]
  simp only [hopened]

end Rounds

section Loop

variable {bindings : Bindings} {top : Pending} {work work' : List Pending}
  {frames frames' : List Frame}

theorem loop_of_finished {result : Except UnboundVariable Value}
    (h : step bindings top work frames = .ok (.finished result)) :
    loop bindings (top :: work) frames = .ok result := by
  rw [loop, h]

theorem loop_of_going (h : step bindings top work frames = .ok (.going work' frames')) :
    loop bindings (top :: work) frames = loop bindings work' frames' := by
  rw [loop, h]

/-- Goes on with the work after a value was handed on. -/
def resume (bindings : Bindings) (work : List Pending) :
    Except Mishap (Option Value × List Frame) → Except Mishap (Except UnboundVariable Value)
  | .error mishap => .error mishap
  | .ok (some root, _) => .ok (.ok root)
  | .ok (none, frames) => loop bindings work frames

theorem loop_of_deliver {v : Value}
    (h : step bindings top work frames = deliver frames v top.parent top.key work) :
    loop bindings (top :: work) frames =
      resume bindings work (attach frames v top.parent top.key) := by
  rw [loop, h, deliver]
  obtain mishap | ⟨_ | root, frames'⟩ := attach frames v top.parent top.key <;> rfl

end Loop

/-! ## What a node comes to -/

section Node

variable (bindings : Bindings)

/-- On top of any work, a node ends the loop at its first name without a binding, or the node with
its sites replaced is handed on. That leaves frames behind which are not used again. -/
structure Assembles (node : Value) : Prop where
  fails : ∀ name, bindings.firstUnbound? node.variableNames = some name →
    ∀ parent key work frames,
      loop bindings (⟨node, parent, key⟩ :: work) frames = .ok (.error ⟨name⟩)
  delivers : bindings.firstUnbound? node.variableNames = none →
    ∀ parent key work frames, ∃ spent,
      loop bindings (⟨node, parent, key⟩ :: work) frames =
        resume bindings work (attach (frames ++ spent) (node.fill bindings) parent key)

/-- A container with its children, filled in, put into it. -/
def Contents.addFilled (contents : Contents) (children : List (Option String × Value)) : Contents :=
  children.foldl (fun contents child => contents.add child.1 (child.2.fill bindings)) contents

variable {bindings}

/-- The children of a frame are put into it one after the other. The last one completes it. -/
theorem loop_children {children : List (Option String × Value)} (hne : children ≠ [])
    (h : ∀ child ∈ children, Assembles bindings child.2) (parent : Option Nat)
    (key : Option String) (contents : Contents) (before after : List Frame) (work : List Pending) :
    let names := children.flatMap (·.2.variableNames)
    let start := loop bindings
      (children.map (fun child => ⟨child.2, some before.length, child.1⟩) ++ work)
      (before ++ ⟨parent, key, children.length, contents⟩ :: after)
    (∀ name, bindings.firstUnbound? names = some name → start = .ok (.error ⟨name⟩)) ∧
    (bindings.firstUnbound? names = none → ∃ spent,
      start = resume bindings work (attach (before ++ ⟨parent, key, 0, .items []⟩ :: spent)
        (contents.addFilled bindings children).toValue parent key)) := by
  induction children generalizing contents after with
  | nil => exact absurd rfl hne
  | cons child rest ih =>
    rw [List.forall_mem_cons] at h
    intro names start
    have hnames : bindings.firstUnbound? names =
        (bindings.firstUnbound? child.2.variableNames).or
          (bindings.firstUnbound? (rest.flatMap (·.2.variableNames))) :=
      bindings.firstUnbound?_append _ _
    rw [hnames]
    cases hchild : bindings.firstUnbound? child.2.variableNames with
    | some name =>
      have hstart : start = .ok (.error ⟨name⟩) := h.1.fails name hchild _ _ _ _
      simp [hstart]
    | none =>
      obtain ⟨spent, hstart⟩ := h.1.delivers hchild (some before.length) child.1
        (rest.map (fun child => ⟨child.2, some before.length, child.1⟩) ++ work)
        (before ++ ⟨parent, key, rest.length + 1, contents⟩ :: after)
      change start = _ at hstart
      rw [Option.none_or, hstart, List.append_assoc, List.cons_append]
      cases rest with
      | nil =>
        rw [List.length_nil, Nat.zero_add, attach_last]
        exact ⟨by simp [Bindings.firstUnbound?], fun _ => ⟨after ++ spent, rfl⟩⟩
      | cons next rest =>
        rw [List.length_cons, attach_more]
        exact ih (List.cons_ne_nil next rest) h.2 _ _

/-- A container with children fills in when all its children do. -/
theorem assembles_of_opened? {node : Value} {contents : Contents}
    {children : List (Option String × Value)} (hname : node.variableName? = none)
    (hopened : opened? node = some (contents, children)) (hne : children ≠ [])
    (hnames : node.variableNames = children.flatMap (·.2.variableNames))
    (hfill : node.fill bindings = (contents.addFilled bindings children).toValue)
    (h : ∀ child ∈ children, Assembles bindings child.2) : Assembles bindings node := by
  constructor
  · intro name hunbound parent key work frames
    rw [hnames] at hunbound
    rw [loop_of_going (step_of_opened? parent key work frames hname hopened), push_eq]
    exact (loop_children hne h parent key contents frames [] work).1 name hunbound
  · intro hbound parent key work frames
    rw [hnames] at hbound
    obtain ⟨spent, hloop⟩ := (loop_children hne h parent key contents frames [] work).2 hbound
    rw [loop_of_going (step_of_opened? parent key work frames hname hopened), push_eq, hfill]
    exact ⟨⟨parent, key, 0, .items []⟩ :: spent, hloop⟩

/-- A node without children that is no variable site is handed on as it is. -/
theorem assembles_of_childless {node : Value} (hname : node.variableName? = none)
    (hopened : opened? node = none) (hnames : node.variableNames = [])
    (hfill : node.fill bindings = node) : Assembles bindings node := by
  constructor
  · intro name hunbound
    simp [hnames, Bindings.firstUnbound?] at hunbound
  · intro _ parent key work frames
    refine ⟨[], ?_⟩
    rw [loop_of_deliver (step_of_childless parent key work frames hname hopened), List.append_nil,
      hfill]

theorem assembles_site (name : String) : Assembles bindings (.site name) := by
  constructor
  · intro other hunbound parent key work frames
    rw [Value.variableNames_site, Bindings.firstUnbound?_singleton] at hunbound
    split at hunbound
    · rename_i hnone
      obtain rfl := Option.some.inj hunbound
      refine loop_of_finished ?_
      rw [step_site, Option.isNone_iff_eq_none.1 hnone]
    · simp at hunbound
  · intro hbound parent key work frames
    rw [Value.variableNames_site, Bindings.firstUnbound?_eq_none_iff] at hbound
    obtain ⟨bound, hget⟩ := Option.isSome_iff_exists.1 (hbound name (by simp))
    have hstep : step bindings ⟨.site name, parent, key⟩ work frames =
        deliver frames bound parent key work := by
      rw [step_site, hget]
    refine ⟨[], ?_⟩
    rw [loop_of_deliver hstep, List.append_nil, Value.fill_site, hget, Option.getD_some]

theorem addFilled_items (done items : List Value) :
    (Contents.items done).addFilled bindings (items.map (none, ·)) =
      .items (done ++ items.map (Value.fill bindings)) := by
  induction items generalizing done with
  | nil => simp [Contents.addFilled]
  | cons x rest ih =>
    have hrest := ih (done ++ [x.fill bindings])
    rw [List.append_assoc] at hrest
    exact hrest

theorem addFilled_entries (done entries : Entries Value) :
    (Contents.entries done).addFilled bindings (entries.map fun p => (some p.1, p.2)) =
      .entries ((Entries.mapValues (Value.fill bindings) entries).foldl
        (fun entries p => entries.insert p.1 p.2) done) := by
  induction entries generalizing done with
  | nil => rfl
  | cons p rest ih => exact ih (Entries.insert p.1 (p.2.fill bindings) done)

/-- Every node fills in. -/
theorem assembles {node : Value} (hnode : node.Ordered) : Assembles bindings node := by
  induction node using Value.induct with
  | scalar v hv =>
    refine assembles_of_childless (Value.variableName?_of_isScalar hv) ?_
      (Value.variableNames_of_isScalar hv) (Value.fill_of_isScalar bindings hv)
    cases v <;> simp_all [opened?, Value.isScalar]
  | list items ih =>
    rw [Value.ordered_list_iff] at hnode
    cases items with
    | nil => exact assembles_of_childless rfl rfl rfl rfl
    | cons x rest =>
      refine assembles_of_opened? rfl rfl (by simp) ?_ ?_ ?_
      · rw [Value.variableNames_list, List.flatMap_map]
      · rw [Value.fill_list, addFilled_items]
        rfl
      · exact List.forall_mem_map.2 fun y hy => ih y hy (hnode y hy)
  | map entries ih =>
    rw [Value.ordered_map_iff] at hnode
    cases hname : Value.siteName? entries with
    | some name =>
      rw [show Value.map entries = .site name from Value.variableName?_eq_some_iff.1 hname]
      exact assembles_site name
    | none =>
      cases entries with
      | nil => exact assembles_of_childless rfl rfl rfl rfl
      | cons p rest =>
        refine assembles_of_opened? hname rfl (by simp) ?_ ?_ ?_
        · rw [Value.variableNames_map hname, List.flatMap_map, List.flatMap_map]
        · have hordered := (Entries.ordered_mapValues_iff (Value.fill bindings) _).2 hnode.1
          rw [Value.fill_map bindings hname, addFilled_entries]
          exact congrArg Value.map (Entries.ofList_of_ordered hordered).symm
        · exact List.forall_mem_map.2 fun q hq => ih q hq (hnode.2 q hq)

end Node

/-! ## The whole body -/

/-- Filling in a body with a stack of work and an arena of frames is instantiating it. No value goes
to a frame that is not there, no frame gets a child that it does not wait for, and the root is
complete before the work runs out. If all names of the body are bound, every site is replaced by
what its name is bound to; otherwise the first name that is not is the answer. -/
theorem assemble_eq_instantiate (bindings : Bindings) {body : Value} (hbody : body.Ordered) :
    assemble bindings body = .ok (body.instantiate bindings) ∧
    ((∀ name ∈ body.variableNames, (Entries.get? bindings name).isSome) →
      body.instantiate bindings = .ok (body.fill bindings)) ∧
    ∀ earlier name later, body.variableNames = earlier ++ name :: later →
      (∀ bound ∈ earlier, (Entries.get? bindings bound).isSome) →
      Entries.get? bindings name = none → body.instantiate bindings = .error ⟨name⟩ := by
  refine ⟨?_, fun hbound => ?_, fun earlier name later hnames hearlier hname => ?_⟩
  · have hassembles : Assembles bindings body := assembles hbody
    rw [assemble, Value.instantiate_eq]
    cases hunbound : bindings.firstUnbound? body.variableNames with
    | some name => exact hassembles.fails name hunbound none none [] []
    | none =>
      obtain ⟨spent, hloop⟩ := hassembles.delivers hunbound none none [] []
      rw [hloop, attach_root]
      rfl
  · rw [Value.instantiate_eq, (bindings.firstUnbound?_eq_none_iff).2 hbound]
    rfl
  · rw [Value.instantiate_eq_error_iff, hnames, Bindings.firstUnbound?_append,
      (bindings.firstUnbound?_eq_none_iff).2 hearlier, Option.none_or]
    simp [Bindings.firstUnbound?, hname]

/-- A list in a map, with empty containers beside a site. What is bound to the first name is a
variable site of the second one and stays so. -/
theorem assemble_eq_instantiate_nested :
    let body : Value := .map [("a", .list [.site "x", .map [], .list [.list []]]), ("b", .site "y")]
    body.Ordered ∧
      assemble [("x", .site "y"), ("y", .int 1)] body =
        .ok (.ok (.map [("a", .list [.site "y", .map [], .list [.list []]]), ("b", .int 1)])) ∧
      assemble [("x", .null)] body = .ok (.error ⟨"y"⟩) := by
  intro body
  have hbody : body.Ordered := by decide
  have hall := (assemble_eq_instantiate [("x", .site "y"), ("y", .int 1)] hbody).1
  have hfirst := (assemble_eq_instantiate [("x", .null)] hbody).1
  exact ⟨hbody, hall, hfirst⟩

end TreeReduction.Instantiation
