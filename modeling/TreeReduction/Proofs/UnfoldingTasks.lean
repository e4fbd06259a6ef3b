import TreeReduction.Proofs.GraphChanges

set_option autoImplicit false

/-!
# Unfolding with a stack of tasks

A node can be unfolded without recursion. What is still to be done waits on a stack: nodes to visit,
and containers to close when their children are done. Finished trees are put on an output, of which
a container takes the last ones for its children when it is closed. A container is marked from its
visit until it is closed, and one that is visited while it is marked is a cycle.

`Graph.walk_eq` says that this is unfolding, and that a mark is there wherever one is looked at: the
marked containers are at all times those of the trail, so that no shared node is taken for a cycle.
The walk ends since every visit counts and visits past `Graph.maxNodes` are refused, while closing a
container only takes a task off the stack.

`Graph.unfold_iff_acyclic` puts together what there is to say about unfolding a node of a graph that
was built by changes.
-/

namespace TreeReduction.Graph

/-! ## The walk -/

/-- Something that is still to be done. -/
inductive Task where
  /-- go to a node that lies at a level -/
  | visit (node level : Nat)
  /-- make a list of as many trees as it has children -/
  | closeList (node count : Nat)
  /-- make a map of as many trees as it has keys -/
  | closeMap (node : Nat) (keys : List String)

/-- What must not happen. -/
inductive Mishap where
  /-- a mark is looked at that there is none of -/
  | noMark (node : Nat)
  /-- there is nothing left to do and no tree -/
  | noTree

/-- How far the walk has got: the marked containers, the number of visits and the finished trees. -/
structure Progress where
  marks : Array Bool
  visits : Nat
  output : List Value

/-- The tasks that a container gives: to visit its children in order and then to close it. -/
def tasksOf (i level : Nat) : Node → List Task
  | .leaf _ => []
  | .list children => children.map (.visit · level) ++ [.closeList i children.length]
  | .map entries =>
    let sorted := entries.mergeSort fun a b => a.1 ≤ b.1
    sorted.map (fun p => .visit p.2 level) ++ [.closeMap i (Entries.keys sorted)]

namespace Progress

/-- Puts a tree on the output. -/
def put (p : Progress) (v : Value) : Progress :=
  { p with output := p.output ++ [v] }

/-- Makes one tree of the last ones of the output and takes the mark off their container. -/
def close (p : Progress) (i count : Nat) (build : List Value → Value) : Except Mishap Progress :=
  match p.marks[i]? with
  | none => .error (.noMark i)
  | some _ =>
    let before := p.output.length - count
    .ok { p with
      marks := p.marks.setIfInBounds i false
      output := p.output.take before ++ [build (p.output.drop before)] }

/-- Visits a container: it must not be marked and has to keep the limits, and is marked then. -/
def enter (p : Progress) (limits : Limits) (i level : Nat) (node : Node) :
    Except Mishap (Except Violation (List Task × Progress)) :=
  match p.marks[i]? with
  | none => .error (.noMark i)
  | some true => .ok (.error (.cycle i))
  | some false =>
    .ok ((limits.checkContainer level node.children.length).map fun _ =>
      (tasksOf i (level + 1) node, { p with marks := p.marks.setIfInBounds i true }))

end Progress

/-- Goes to a node. Answers the tasks that it gives and the progress after it. -/
def visit (g : Graph) (limits : Limits) (p : Progress) (i level : Nat) :
    Except Mishap (Except Violation (List Task × Progress)) :=
  if maxNodes < p.visits + 1 then .ok (.error (.tooLarge maxNodes))
  else
    match g.node? i with
    | none => .ok (.error (.dangling i))
    | some (.leaf v) =>
      .ok ((v.check limits).map fun _ => ([], { p with visits := p.visits + 1 }.put v))
    | some node => { p with visits := p.visits + 1 }.enter limits i level node

/-- Does one task. Answers the tasks that it gives and the progress after it. -/
def step (g : Graph) (limits : Limits) (p : Progress) :
    Task → Except Mishap (Except Violation (List Task × Progress))
  | .visit i level => g.visit limits p i level
  | .closeList i count => (p.close i count .list).map fun p => .ok ([], p)
  | .closeMap i keys =>
    (p.close i keys.length fun values => .map (Entries.ofList (keys.zip values))).map
      fun p => .ok ([], p)

theorem visits_of_close {p p' : Progress} {i count : Nat} {build : List Value → Value}
    (h : p.close i count build = .ok p') : p'.visits = p.visits := by
  unfold Progress.close at h
  split at h
  · simp at h
  · rw [← Except.ok.inj h]

theorem visits_of_enter {p p' : Progress} {limits : Limits} {i level : Nat} {node : Node}
    {tasks : List Task} (h : p.enter limits i level node = .ok (.ok (tasks, p'))) :
    p'.visits = p.visits := by
  unfold Progress.enter at h
  split at h
  · simp at h
  · simp at h
  · obtain ⟨_, -, he⟩ := map_eq_ok_iff.1 (Except.ok.inj h)
    rw [← (Prod.mk.inj he).2]

theorem visits_of_visit {g : Graph} {p p' : Progress} {limits : Limits} {i level : Nat}
    {tasks : List Task} (h : g.visit limits p i level = .ok (.ok (tasks, p'))) :
    p'.visits = p.visits + 1 ∧ p'.visits ≤ maxNodes := by
  unfold visit at h
  split at h
  · simp at h
  · rename_i hvisits
    have hsame : p'.visits = p.visits + 1 := by
      split at h
      · simp at h
      · obtain ⟨_, -, he⟩ := map_eq_ok_iff.1 (Except.ok.inj h)
        rw [← (Prod.mk.inj he).2]
        rfl
      · exact visits_of_enter h
    exact ⟨hsame, hsame ▸ Nat.not_lt.1 hvisits⟩

/-- A task is a visit, which counts, or gives no other tasks. -/
theorem step_cases {g : Graph} {limits : Limits} {p p' : Progress} {task : Task}
    {tasks : List Task} (h : g.step limits p task = .ok (.ok (tasks, p'))) :
    (p'.visits = p.visits + 1 ∧ p'.visits ≤ maxNodes) ∨ (p'.visits = p.visits ∧ tasks = []) := by
  cases task with
  | visit i level => exact .inl (visits_of_visit h)
  | closeList | closeMap =>
    obtain ⟨q, hq, he⟩ := map_eq_ok_iff.1 h
    obtain ⟨rfl, rfl⟩ := Prod.mk.inj (Except.ok.inj he)
    exact .inr ⟨visits_of_close hq, rfl⟩

/-- Does tasks from the top of a stack until none is left or something is wrong. -/
def loop (g : Graph) (limits : Limits) : List Task → Progress →
    Except Mishap (Except Violation Value)
  | [], p =>
    match p.output.getLast? with
    | some v => .ok (.ok v)
    | none => .error .noTree
  | task :: tasks, p =>
    match _h : g.step limits p task with
    | .error mishap => .error mishap
    | .ok (.error violation) => .ok (.error violation)
    | .ok (.ok (more, p)) => loop g limits (more ++ tasks) p
  termination_by tasks p => (maxNodes - p.visits, tasks.length)
  decreasing_by
    rcases step_cases _h with ⟨hvisits, hle⟩ | ⟨hvisits, rfl⟩
    · exact Prod.Lex.left _ _ (by omega)
    · rw [hvisits]
      exact Prod.Lex.right _ (by simp)

/-- Unfolds a node by tasks. -/
def walk (g : Graph) (limits : Limits) (root : Nat) : Except Mishap (Except Violation Value) :=
  match g.checkReference root with
  | .error violation => .ok (.error violation)
  | .ok _ => g.loop limits [.visit root 0] ⟨Array.replicate g.size false, 0, []⟩

variable {g : Graph} {limits : Limits}

/-! ## Marks -/

/-- Every node has a mark, and the marked ones are those of a path. -/
def Marked (g : Graph) (marks : Array Bool) (path : List Nat) : Prop :=
  ∀ i, i < g.size → marks[i]? = some (decide (i ∈ path))

theorem marked_replicate (g : Graph) : g.Marked (Array.replicate g.size false) [] := by
  intro i hi
  simp [hi]

namespace Marked

variable {marks : Array Bool} {path : List Nat} {i : Nat}

theorem lt_size (h : g.Marked marks path) (hi : i < g.size) : i < marks.size :=
  (Array.getElem?_eq_some_iff.1 (h i hi)).1

theorem mark (h : g.Marked marks path) (i : Nat) :
    g.Marked (marks.setIfInBounds i true) (i :: path) := by
  intro j hj
  rw [Array.getElem?_setIfInBounds]
  by_cases hij : i = j
  · simp [hij, h.lt_size hj]
  · simp [hij, Ne.symm hij, h j hj]

/-- Taking off a mark that was put on leaves the marks as they were. -/
theorem unmark (h : g.Marked marks path) (hi : i < g.size) (hpath : i ∉ path) :
    (marks.setIfInBounds i true).setIfInBounds i false = marks := by
  rw [Array.setIfInBounds_setIfInBounds]
  refine Array.ext_getElem? fun j => ?_
  rw [Array.getElem?_setIfInBounds]
  by_cases hij : i = j
  · subst hij
    rw [if_pos rfl, if_pos (h.lt_size hi), h i hi, decide_eq_false hpath]
  · rw [if_neg hij]

end Marked

/-! ## Rounds -/

section Rounds

variable {p p' : Progress} {task : Task} {tasks more : List Task}

theorem loop_of_violation {violation : Violation}
    (h : g.step limits p task = .ok (.error violation)) :
    g.loop limits (task :: tasks) p = .ok (.error violation) := by
  rw [loop, h]

theorem loop_of_ok (h : g.step limits p task = .ok (.ok (more, p'))) :
    g.loop limits (task :: tasks) p = g.loop limits (more ++ tasks) p' := by
  rw [loop, h]

/-- Goes on with other tasks after a node was unfolded. -/
def resume (g : Graph) (limits : Limits) (tasks : List Task) (marks : Array Bool)
    (output : List Value) : Except Violation (Value × Nat) → Except Mishap (Except Violation Value)
  | .error violation => .ok (.error violation)
  | .ok (v, visits) => g.loop limits tasks ⟨marks, visits, output ++ [v]⟩

/-- Goes on with other tasks after children were unfolded. -/
def resumeEach (g : Graph) (limits : Limits) (tasks : List Task) (marks : Array Bool)
    (output : List Value) :
    Except Violation (List Value × Nat) → Except Mishap (Except Violation Value)
  | .error violation => .ok (.error violation)
  | .ok (items, visits) => g.loop limits tasks ⟨marks, visits, output ++ items⟩

/-- Children that unfold one by one unfold one after the other. -/
theorem loop_visits {unfold : Nat → Nat → Except Violation (Value × Nat)} {marks : Array Bool}
    {level : Nat} {children : List Nat} (tasks : List Task)
    (h : ∀ child ∈ children, ∀ visits output tasks,
      g.loop limits (.visit child level :: tasks) ⟨marks, visits, output⟩ =
        g.resume limits tasks marks output (unfold child visits)) (visits : Nat)
    (output : List Value) :
    g.loop limits (children.map (.visit · level) ++ tasks) ⟨marks, visits, output⟩ =
      g.resumeEach limits tasks marks output (unfoldEach unfold children visits) := by
  induction children generalizing visits output with
  | nil => simp [unfoldEach, resumeEach]
  | cons child rest ih =>
    obtain ⟨hchild, hrest⟩ := List.forall_mem_cons.1 h
    rw [List.map_cons, List.cons_append, hchild, unfoldEach]
    cases unfold child visits with
    | error violation => rfl
    | ok r =>
      obtain ⟨v, after⟩ := r
      simp only [resume]
      rw [ih hrest]
      cases unfoldEach unfold rest after with
      | error violation => rfl
      | ok r => simp [resumeEach, Except.map]

end Rounds

/-! ## Containers -/

/-- To sort by key is to put entries in order, if no key stands twice. -/
theorem mergeSort_eq_ofList {entries : List (String × Nat)} (h : (Entries.keys entries).Nodup) :
    (entries.mergeSort fun a b => a.1 ≤ b.1) = Entries.ofList entries := by
  have hperm := List.mergeSort_perm entries fun a b => decide (a.1 ≤ b.1)
  have hnodup : ((entries.mergeSort fun a b => a.1 ≤ b.1).map (·.1)).Nodup :=
    (hperm.map _).nodup_iff.2 h
  have hle : (entries.mergeSort fun a b => a.1 ≤ b.1).Pairwise fun a b => a.1 ≤ b.1 := by
    refine (List.pairwise_mergeSort ?_ ?_ entries).imp of_decide_eq_true
    · exact fun a b c hab hbc =>
        decide_eq_true (String.le_trans (of_decide_eq_true hab) (of_decide_eq_true hbc))
    · exact fun a b => by simpa using String.le_total a.1 b.1
  refine (Entries.ofList_eq_of_perm hperm ?_).symm
  refine (hle.and (List.pairwise_map.1 hnodup)).imp fun {a b} hab => ?_
  exact Std.lt_of_le_of_ne hab.1 hab.2

/-- A container gives a visit of each child and then one task, which puts the container in the place
of its children. -/
theorem tasksOf_eq {node : Node} {size : Nat} (hfits : node.Fits size)
    (hleaf : node.isLeaf = false) (i level : Nat) :
    ∃ last, tasksOf i level node = node.order.map (.visit · level) ++ [last] ∧
      ∀ (g : Graph) (limits : Limits) (marks : Array Bool) (visits : Nat)
        (output items : List Value), i < marks.size → items.length = node.order.length →
        g.step limits ⟨marks, visits, output ++ items⟩ last =
          .ok (.ok ([], ⟨marks.setIfInBounds i false, visits, output ++ [node.build items]⟩)) := by
  -- either way, what is taken from the output are the children's trees
  have hclose : ∀ (marks : Array Bool) (visits : Nat) (output items : List Value)
      (build : List Value → Value), i < marks.size →
      Progress.close ⟨marks, visits, output ++ items⟩ i items.length build =
        .ok ⟨marks.setIfInBounds i false, visits, output ++ [build items]⟩ := by
    intro marks visits output items build hi
    have hbefore : (output ++ items).length - items.length = output.length := by simp
    simp only [Progress.close, Array.getElem?_eq_getElem hi, hbefore, List.take_left,
      List.drop_left]
  cases node with
  | leaf => simp [Node.isLeaf] at hleaf
  | list children =>
    refine ⟨.closeList i children.length, rfl,
      fun g limits marks visits output items hi hitems => ?_⟩
    have hlength : children.length = items.length := hitems.symm
    rw [step, hlength, hclose marks visits output items _ hi]
    rfl
  | map entries =>
    have hsorted := mergeSort_eq_ofList (hfits.nodup_keys entries rfl)
    refine ⟨.closeMap i (Entries.keys (Entries.ofList entries)), ?_,
      fun g limits marks visits output items hi hitems => ?_⟩
    · simp only [tasksOf, hsorted, Node.order, Entries.values, List.map_map]
      rfl
    · have hlength : (Entries.keys (Entries.ofList entries)).length = items.length := by
        simp [hitems, Node.order, Entries.keys, Entries.values]
      rw [step, hlength, hclose marks visits output items _ hi,
        Entries.ofList_of_ordered (Node.ordered_build hitems)]
      rfl

/-! ## The whole tree -/

section Visits

variable {marks : Array Bool} {i visits level : Nat} {output : List Value}

/-- The visit of a leaf puts it on the output if it is allowed. -/
theorem loop_leaf (hcount : ¬maxNodes < visits + 1) {v : Value} (hi : g.node? i = some (.leaf v))
    (tasks : List Task) :
    g.loop limits (.visit i level :: tasks) ⟨marks, visits, output⟩ =
      g.resume limits tasks marks output ((v.check limits).map fun _ => (v, visits + 1)) := by
  cases hcheck : v.check limits with
  | error violation =>
    refine loop_of_violation ?_
    simp only [step, visit, hcount, if_false, hi, hcheck]
    rfl
  | ok _ =>
    have hstep : g.step limits ⟨marks, visits, output⟩ (.visit i level) =
        .ok (.ok ([], ⟨marks, visits + 1, output ++ [v]⟩)) := by
      simp only [step, visit, hcount, if_false, hi, hcheck]
      rfl
    exact loop_of_ok hstep

/-- The visit of a container is to enter it. -/
theorem step_container (hcount : ¬maxNodes < visits + 1) {node : Node}
    (hi : g.node? i = some node) (hleaf : node.isLeaf = false) :
    g.step limits ⟨marks, visits, output⟩ (.visit i level) =
      Progress.enter ⟨marks, visits + 1, output⟩ limits i level node := by
  simp only [step, visit, hcount, if_false, hi]
  cases node with
  | leaf => simp [Node.isLeaf] at hleaf
  | list | map => rfl

/-- The visit of a container that is not marked puts it on the output, if it keeps the limits and
its children, which are visited while it is marked, unfold. -/
theorem loop_container (hcount : ¬maxNodes < visits + 1) {node : Node} (hfits : node.Fits g.size)
    (hi : g.node? i = some node) (hleaf : node.isLeaf = false) {path : List Nat}
    (hmarks : g.Marked marks path) (hpath : i ∉ path)
    {unfold : Nat → Nat → Except Violation (Value × Nat)}
    (h : ∀ child ∈ node.order, ∀ visits output tasks,
      g.loop limits (.visit child (level + 1) :: tasks)
          ⟨marks.setIfInBounds i true, visits, output⟩ =
        g.resume limits tasks (marks.setIfInBounds i true) output (unfold child visits))
    (tasks : List Task) :
    g.loop limits (.visit i level :: tasks) ⟨marks, visits, output⟩ =
      g.resume limits tasks marks output (unfoldContainer limits node level unfold visits) := by
  have hlt : i < g.size := lt_size_of_node? hi
  have henter : g.step limits ⟨marks, visits, output⟩ (.visit i level) =
      Progress.enter ⟨marks, visits + 1, output⟩ limits i level node :=
    step_container hcount hi hleaf
  rw [unfoldContainer]
  cases hcheck : limits.checkContainer level node.children.length with
  | error violation =>
    refine loop_of_violation (henter.trans ?_)
    simp only [Progress.enter, hmarks i hlt, hpath, decide_false, hcheck]
    rfl
  | ok _ =>
    obtain ⟨last, htasks, hlast⟩ := tasksOf_eq hfits hleaf i (level + 1)
    have hmore : g.step limits ⟨marks, visits, output⟩ (.visit i level) =
        .ok (.ok (tasksOf i (level + 1) node,
          ⟨marks.setIfInBounds i true, visits + 1, output⟩)) := by
      rw [henter]
      simp only [Progress.enter, hmarks i hlt, hpath, decide_false, hcheck]
      rfl
    rw [loop_of_ok hmore, htasks, List.append_assoc, List.singleton_append, loop_visits _ h]
    cases heach : unfoldEach unfold node.order (visits + 1) with
    | error violation => rfl
    | ok r =>
      obtain ⟨items, after⟩ := r
      have hin : i < (marks.setIfInBounds i true).size := (hmarks.mark i).lt_size hlt
      simp only [resumeEach]
      rw [loop_of_ok (hlast g limits _ after output items hin (length_of_unfoldEach heach)),
        hmarks.unmark hlt hpath]
      rfl

end Visits

/-- On top of any tasks, the visit of a node at the end of a trail goes on with its tree, or ends
with what is wrong. -/
theorem loop_visit (hg : g.WellFormed) (limits : Limits) {root : Nat} (room : Nat) {path : List Nat}
    {i : Nat} (htrail : g.Trail root path i) (hnodup : path.Nodup)
    (hroom : room + path.length = g.size + 1) {marks : Array Bool} (hmarks : g.Marked marks path)
    (visits : Nat) (output : List Value) (tasks : List Task) :
    g.loop limits (.visit i path.length :: tasks) ⟨marks, visits, output⟩ =
      g.resume limits tasks marks output (g.unfoldFrom limits room path i visits) := by
  refine unfoldFrom_induct (motive := fun path i visits result => ∀ marks, g.Marked marks path →
    ∀ output tasks, g.loop limits (.visit i path.length :: tasks) ⟨marks, visits, output⟩ =
      g.resume limits tasks marks output result) hg ?_ ?_ ?_ ?_ ?_
    room htrail hnodup hroom visits marks hmarks output tasks
  · intro path i visits hcount marks _ output tasks
    exact loop_of_violation (if_pos hcount)
  · intro path i visits hcount _ hi marks _ output tasks
    exact loop_of_violation (by simp only [step, visit, hcount, if_false, hi])
  · intro path i visits v hcount _ hi marks _ output tasks
    exact loop_leaf hcount hi tasks
  · -- what is on the trail is marked
    intro path i visits node hcount _ hi hleaf hpath marks hmarks output tasks
    refine loop_of_violation ((step_container hcount hi hleaf).trans ?_)
    simp only [Progress.enter, hmarks i (lt_size_of_node? hi), hpath, decide_true]
  · intro path i visits node unfold hcount _ hi hleaf hpath ih marks hmarks output tasks
    exact loop_container hcount (hg i node hi) hi hleaf hmarks hpath
      (fun child hchild visits => ih child hchild visits _ (hmarks.mark i)) tasks

/-- The walk is unfolding. Whatever it looks at is there. -/
theorem walk_eq (hg : g.WellFormed) (limits : Limits) (root : Nat) :
    g.walk limits root = .ok (g.unfold limits root) := by
  rcases Nat.lt_or_ge root g.size with hroot | hroot
  · rw [walk, checkReference_of_lt hroot, unfold]
    have hloop := loop_visit hg limits (g.size + 1) (.start : g.Trail root [] root)
      List.nodup_nil rfl g.marked_replicate 0 [] []
    refine hloop.trans ?_
    cases g.unfoldFrom limits (g.size + 1) [] root 0 with
    | error violation => rfl
    | ok r => simp [resume, loop, Except.map]
  · have hcount : ¬maxNodes < 0 + 1 := by decide
    rw [walk, checkReference_of_le hroot, unfold, unfoldFrom_of_none hcount (node?_eq_none hroot)]
    rfl

/-! ## Graphs that are built by changes -/

/-- In a graph that was built by changes, a node unfolds exactly when it reaches no cycle and the
one tree that it stands for is not too large and keeps the limits, and to this tree. Where it
reaches a cycle, something is always reported, and a cycle only for a node that is reached and lies
below itself. The walk that does it with tasks and marks comes to an end and never misses a mark. -/
theorem unfold_iff_acyclic (changes : List Change) (limits : Limits) {root : Nat}
    (hroot : root < (afterAll {} changes).size) :
    let g := afterAll {} changes
    (∀ v, g.unfold limits root = .ok v ↔
      g.Acyclic root ∧ g.Unfolds root v ∧ v.nodes ≤ maxNodes ∧ v.check limits = .ok ()) ∧
    (g.Acyclic root → ∃! v, g.Unfolds root v) ∧
    (¬g.Acyclic root → ∃ violation, g.unfold limits root = .error violation) ∧
    (∀ i, g.unfold limits root = .error (.cycle i) → g.Reaches root i ∧ g.Below i i) ∧
    g.walk limits root = .ok (g.unfold limits root) := by
  intro g
  have hg : g.WellFormed := wellFormed_afterAll changes
  have hok := unfold_eq_ok_iff hg limits root
  refine ⟨fun v => ?_, fun hacyclic => ?_, fun hcyclic => ?_, fun i hcycle => ?_,
    walk_eq hg limits root⟩
  · rw [hok]
    exact ⟨fun h => ⟨h.1.acyclic hg, h⟩, fun h => h.2⟩
  · obtain ⟨v, hv⟩ := (acyclic_iff_exists_unfolds hg hroot).1 hacyclic
    exact ⟨v, hv, fun w hw => hw.unique hg hv⟩
  · cases hresult : g.unfold limits root with
    | error violation => exact ⟨violation, rfl⟩
    | ok v => exact absurd (((hok v).1 hresult).1.acyclic hg) hcyclic
  · exact (fault_of_unfold hg hcycle).cycle_spec hg

/-- A list that holds one map twice, and a list that holds itself. -/
def sharedAndCyclic : List Change :=
  [.leaf (.str "s"), .map, .insert 1 "v" 0, .list, .push 2 1, .push 2 1, .list, .push 3 3]

theorem unfold_iff_acyclic_shared :
    let g := afterAll {} sharedAndCyclic
    2 < g.size ∧ 3 < g.size ∧
    g.unfold {} 2 = .ok (.list [.map [("v", .str "s")], .map [("v", .str "s")]]) ∧ g.Acyclic 2 ∧
    g.unfold {} 3 = .error (.cycle 3) ∧ g.Below 3 3 := by
  intro g
  have hshared : 2 < g.size := by decide
  have hcyclic : 3 < g.size := by decide
  have htree : g.unfold {} 2 = .ok (.list [.map [("v", .str "s")], .map [("v", .str "s")]]) := rfl
  have hcycle : g.unfold {} 3 = .error (.cycle 3) := rfl
  obtain ⟨hiff, -⟩ := unfold_iff_acyclic sharedAndCyclic {} hshared
  obtain ⟨-, -, -, hreported, -⟩ := unfold_iff_acyclic sharedAndCyclic {} hcyclic
  exact ⟨hshared, hcyclic, htree, ((hiff _).1 htree).1, hcycle, (hreported 3 hcycle).2⟩

end TreeReduction.Graph
