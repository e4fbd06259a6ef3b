import TreeReduction.Proofs.Assembly
import TreeReduction.Proofs.Entries
import TreeReduction.Value.Document

set_option autoImplicit false

/-!
# What a reader hands over

What holds of the scalars that the tokens of a text spell, and of a container if it holds of what is
in it, holds of the document that is read from the text (`Json.of_parse?`). It may depend on how
many containers lie around. So a document that was read nests within the bound of the reader
(`Json.depth_le_of_parse?`): a builder never has more containers open than that.

Putting the members of its objects in order makes a document no deeper (`Json.depth_settled_le`),
and doing it twice is doing it once (`Json.settled_settled`).
-/

namespace TreeReduction.Json

/-! ## Children -/

/-- The documents that a container holds. -/
def children : Json → List Json
  | .array items => items
  | .object members => members.map (·.2)
  | _ => []

theorem depthItems_le_iff (items : List Json) (n : Nat) :
    depthItems items ≤ n ↔ ∀ x ∈ items, x.depth ≤ n := by
  induction items with
  | nil => simp [depthItems]
  | cons x rest ih => rw [depthItems, Nat.max_le, ih, List.forall_mem_cons]

/-- The members of an object are as deep as a list of their values. -/
theorem depthMembers_eq (members : List (String × Json)) :
    depthMembers members = depthItems (members.map (·.2)) := by
  induction members with
  | nil => rfl
  | cons m rest ih => simp only [depthMembers, List.map_cons, depthItems, ih]

theorem depth_array_le_iff (items : List Json) (n : Nat) :
    (array items).depth ≤ n + 1 ↔ ∀ x ∈ items, x.depth ≤ n := by
  rw [depth, Nat.add_le_add_iff_right, depthItems_le_iff]

theorem depth_object_le_iff (members : List (String × Json)) (n : Nat) :
    (object members).depth ≤ n + 1 ↔ ∀ m ∈ members, (m.2 : Json).depth ≤ n := by
  rw [depth, Nat.add_le_add_iff_right, depthMembers_eq, depthItems_le_iff, List.forall_mem_map]

theorem depth_lt_of_mem_children {x json : Json} (h : x ∈ json.children) :
    x.depth < json.depth := by
  cases json with
  | array items => exact Nat.lt_succ_of_le (depth_le_of_mem_items h)
  | object members =>
    obtain ⟨m, hm, rfl⟩ := List.mem_map.1 h
    exact Nat.lt_succ_of_le (depth_le_of_mem_members hm)
  | _ => simp [children] at h

/-! ## What the reader keeps -/

/-- What is known of documents by the number of containers around them: a container has it if what
it holds has it, one level further in. -/
structure Inherits (I : Nat → Json → Prop) : Prop where
  array : ∀ level items, level < maxNesting → (∀ x ∈ items, I (level + 1) x) →
    I level (.array items)
  object : ∀ level members, level < maxNesting → (∀ m ∈ members, I (level + 1) (m.2 : Json)) →
    I level (.object members)

/-- The scalar that a token spells. -/
def Token.scalar? : Token → Option Json
  | .null => some .null
  | .bool b => some (.bool b)
  | .number n => some (.number n)
  | .str s => some (.str s)
  | _ => none

/-- What a token spells has it wherever it may stand. -/
def Token.Spells (I : Nat → Json → Prop) (token : Token) : Prop :=
  ∀ json, token.scalar? = some json → ∀ level ≤ maxNesting, I level json

/-- What an open container holds so far. -/
def Frame.held : Frame → List Json
  | .array done => done
  | .object done _ => done.map (·.2)

/-- Open containers nest within the bound, and what they hold so far has what is known of it. -/
def Frame.Fit (I : Nat → Json → Prop) : List Frame → Prop
  | [] => True
  | frame :: outer =>
    outer.length < maxNesting ∧ (∀ x ∈ frame.held, I (outer.length + 1) x) ∧ Fit I outer

theorem Frame.Fit.length_le {I : Nat → Json → Prop} {frames : List Frame} (h : Frame.Fit I frames) :
    frames.length ≤ maxNesting := by
  cases frames with
  | nil => exact Nat.zero_le _
  | cons frame outer => exact h.1

namespace Builder

/-- The containers that are open, the one just opened included. -/
def frames : Builder → List Frame
  | .value outer => outer
  | .firstItem outer => .array [] :: outer
  | .moreItems done outer => .array done :: outer
  | .firstName outer => .object [] "" :: outer
  | .nextName done outer => .object done "" :: outer
  | .colon done name outer => .object done name :: outer
  | .moreMembers done outer => .object done "" :: outer
  | .finished _ => []

/-- What a builder has read has what is known of it. -/
structure Keeps (I : Nat → Json → Prop) (builder : Builder) : Prop where
  frames : Frame.Fit I builder.frames
  finished : ∀ json, builder = .finished json → I 0 json

section Keeps

variable {I : Nat → Json → Prop}

theorem keeps_of_frames {builder : Builder} (hframes : Frame.Fit I builder.frames)
    (hmore : ∀ json, builder ≠ .finished json) : builder.Keeps I :=
  ⟨hframes, fun json h => absurd h (hmore json)⟩

/-- A document goes where it is delivered as one of as many containers. -/
theorem keeps_deliver {json : Json} {outer : List Frame} (houter : Frame.Fit I outer)
    (hjson : I outer.length json) : (deliver json outer).Keeps I := by
  cases outer with
  | nil =>
    refine ⟨trivial, fun other h => ?_⟩
    obtain rfl := Builder.finished.inj h
    exact hjson
  | cons frame outer =>
    obtain ⟨hlength, hheld, hfit⟩ := houter
    cases frame with
    | array done =>
      exact keeps_of_frames ⟨hlength, List.forall_mem_cons.2 ⟨hjson, hheld⟩, hfit⟩ (by simp [deliver])
    | object done name =>
      exact keeps_of_frames ⟨hlength, List.forall_mem_cons.2 ⟨hjson, hheld⟩, hfit⟩ (by simp [deliver])

theorem keeps_startValue {outer : List Frame} {token : Token} {next : Builder}
    (houter : Frame.Fit I outer) (htoken : token.Spells I)
    (h : startValue outer token = some next) : next.Keeps I := by
  have hscalar : ∀ json, token.scalar? = some json → (deliver json outer).Keeps I :=
    fun json hjson => keeps_deliver houter (htoken json hjson _ houter.length_le)
  unfold startValue at h
  split at h
  · exact Option.some.inj h ▸ hscalar _ rfl
  · exact Option.some.inj h ▸ hscalar _ rfl
  · exact Option.some.inj h ▸ hscalar _ rfl
  · exact Option.some.inj h ▸ hscalar _ rfl
  · split at h
    · rename_i hroom
      exact Option.some.inj h ▸ keeps_of_frames ⟨hroom, by simp [Frame.held], houter⟩ (by simp)
    · simp at h
  · split at h
    · rename_i hroom
      exact Option.some.inj h ▸ keeps_of_frames ⟨hroom, by simp [Frame.held], houter⟩ (by simp)
    · simp at h
  · simp at h

/-- Whatever does not close an array at once starts its first item. -/
theorem step_firstItem_of_ne {token : Token} (h : token ≠ .closeArray) (outer : List Frame) :
    (Builder.firstItem outer).step token = startValue (.array [] :: outer) token := by
  cases token with
  | closeArray => exact absurd rfl h
  | _ => rfl

variable (hI : Inherits I)

include hI

theorem keeps_closeArray {done : List Json} {outer : List Frame}
    (h : Frame.Fit I (.array done :: outer)) : (deliver (.array done.reverse) outer).Keeps I := by
  obtain ⟨hlength, hheld, houter⟩ := h
  refine keeps_deliver houter (hI.array _ _ hlength fun x hx => ?_)
  exact hheld x (List.mem_reverse.1 hx)

theorem keeps_closeObject {done : List (String × Json)} {name : String} {outer : List Frame}
    (h : Frame.Fit I (.object done name :: outer)) :
    (deliver (.object done.reverse) outer).Keeps I := by
  obtain ⟨hlength, hheld, houter⟩ := h
  refine keeps_deliver houter (hI.object _ _ hlength fun m hm => ?_)
  exact hheld m.2 (List.mem_map_of_mem (List.mem_reverse.1 hm))

theorem keeps_step {builder next : Builder} {token : Token} (hb : builder.Keeps I)
    (htoken : token.Spells I) (h : builder.step token = some next) : next.Keeps I := by
  have hframes := hb.frames
  cases builder with
  | value outer => exact keeps_startValue hframes htoken h
  | firstItem outer =>
    by_cases hclose : token = .closeArray
    · subst hclose
      exact Option.some.inj h ▸ keeps_closeArray hI hframes
    · rw [step_firstItem_of_ne hclose] at h
      exact keeps_startValue hframes htoken h
  | moreItems done outer =>
    cases token with
    | comma => exact Option.some.inj h ▸ keeps_of_frames hframes (by simp)
    | closeArray => exact Option.some.inj h ▸ keeps_closeArray hI hframes
    | _ => simp [step] at h
  | firstName outer =>
    cases token with
    | closeObject => exact Option.some.inj h ▸ keeps_closeObject hI hframes
    | str name => exact Option.some.inj h ▸ keeps_of_frames hframes (by simp)
    | _ => simp [step] at h
  | nextName done outer =>
    cases token with
    | str name => exact Option.some.inj h ▸ keeps_of_frames hframes (by simp)
    | _ => simp [step] at h
  | colon done name outer =>
    cases token with
    | colon => exact Option.some.inj h ▸ keeps_of_frames hframes (by simp)
    | _ => simp [step] at h
  | moreMembers done outer =>
    cases token with
    | comma => exact Option.some.inj h ▸ keeps_of_frames hframes (by simp)
    | closeObject => exact Option.some.inj h ▸ keeps_closeObject hI hframes
    | _ => simp [step] at h
  | finished json => simp [step] at h

theorem keeps_steps {builder last : Builder} {tokens : List Token} (hb : builder.Keeps I)
    (htokens : ∀ token ∈ tokens, token.Spells I) (h : builder.steps tokens = some last) :
    last.Keeps I := by
  induction tokens generalizing builder with
  | nil => exact Option.some.inj h ▸ hb
  | cons token tokens ih =>
    rw [steps_cons] at h
    rw [List.forall_mem_cons] at htokens
    obtain ⟨next, hnext, hrest⟩ := Option.bind_eq_some_iff.1 h
    exact ih (keeps_step hI hb htokens.1 hnext) htokens.2 hrest

end Keeps

end Builder

/-- What containers inherit and the tokens of a text spell, the document has that is read from it. -/
theorem of_parse? {I : Nat → Json → Prop} (hI : Inherits I) {text : String} {json : Json}
    (htokens : ∀ tokens, lex? text.toList = some tokens → ∀ token ∈ tokens, token.Spells I)
    (h : parse? text = some json) : I 0 json := by
  rw [parse?_eq] at h
  obtain ⟨last, hlast, hresult⟩ := Option.bind_eq_some_iff.1 h
  obtain ⟨tokens, hlex, hsteps⟩ := Option.bind_eq_some_iff.1 hlast
  have hstart : (Builder.value []).Keeps I := Builder.keeps_of_frames trivial (by simp)
  have hkeeps := Builder.keeps_steps hI hstart (htokens tokens hlex) hsteps
  cases last with
  | finished other => exact hkeeps.finished _ (by rw [Option.some.inj hresult])
  | _ => simp [Builder.result?] at hresult

/-- A container nests within the bound with what is around it if what it holds does. -/
theorem inherits_depth : Inherits fun level json => level + json.depth ≤ maxNesting where
  array level items hlevel h := by
    have hitems : (array items).depth ≤ maxNesting - (level + 1) + 1 := by
      rw [depth_array_le_iff]
      intro x hx
      have := h x hx
      omega
    omega
  object level members hlevel h := by
    have hmembers : (object members).depth ≤ maxNesting - (level + 1) + 1 := by
      rw [depth_object_le_iff]
      intro m hm
      have := h m hm
      omega
    omega

theorem Token.spells_depth (token : Token) :
    token.Spells fun level json => level + json.depth ≤ maxNesting := by
  intro json hjson level hlevel
  have hdepth : json.depth = 0 := by
    cases token with
    | null | bool | number | str =>
      obtain rfl := Option.some.inj hjson
      rfl
    | _ => simp [scalar?] at hjson
  simpa [hdepth] using hlevel

/-- What is read from a text nests within the bound. -/
theorem depth_le_of_parse? {text : String} {json : Json} (h : parse? text = some json) :
    json.depth ≤ maxNesting := by
  have hdepth := of_parse? inherits_depth (fun _ _ token _ => token.spells_depth) h
  simpa using hdepth

/-! ## Members in order -/

theorem settledItems_eq (items : List Json) : settledItems items = items.map settled := by
  induction items with
  | nil => rfl
  | cons x rest ih => rw [settledItems, ih, List.map_cons]

theorem settledMembers_eq (members : List (String × Json)) :
    settledMembers members = Entries.mapValues settled members := by
  induction members with
  | nil => rfl
  | cons m rest ih => rw [settledMembers, ih, Entries.mapValues_cons]

theorem depth_settled_le (json : Json) : json.settled.depth ≤ json.depth := by
  induction json using induct with
  | array items ih =>
    rw [settled, depth.eq_def (array items), depth_array_le_iff, settledItems_eq,
      List.forall_mem_map]
    exact fun x hx => (ih x hx).trans (depth_le_of_mem_items hx)
  | object members ih =>
    rw [settled, depth.eq_def (object members), depth_object_le_iff]
    intro m hm
    have hmem := Entries.mem_of_mem_ofList hm
    rw [settledMembers_eq] at hmem
    obtain ⟨o, ho, rfl⟩ := Entries.mem_mapValues_iff.1 hmem
    exact (ih o ho).trans (depth_le_of_mem_members ho)
  | _ => exact Nat.le_refl _

/-- All objects of a document have their members in order, each name once. -/
def Settled (json : Json) : Prop :=
  json.settled = json

/-- What is in order stays as it is. -/
theorem settled_settled (json : Json) : json.settled.Settled := by
  unfold Settled
  induction json using induct with
  | array items ih =>
    rw [settled, settled, settledItems_eq, settledItems_eq, List.map_map]
    exact congrArg Json.array (List.map_congr_left ih)
  | object members ih =>
    have hvalues : Entries.mapValues settled (Entries.ofList (settledMembers members)) =
        Entries.ofList (settledMembers members) := by
      refine (List.map_congr_left fun m hm => ?_).trans (List.map_id _)
      have hmem := Entries.mem_of_mem_ofList hm
      rw [settledMembers_eq] at hmem
      obtain ⟨o, ho, rfl⟩ := Entries.mem_mapValues_iff.1 hmem
      exact congrArg (o.1, ·) (ih o ho)
    rw [settled, settled, settledMembers_eq (Entries.ofList _), hvalues,
      Entries.ofList_of_ordered (Entries.ordered_ofList _)]
  | _ => rfl

/-- What a document in order holds is in order. -/
theorem Settled.child {json x : Json} (h : json.Settled) (hx : x ∈ json.children) : x.Settled := by
  cases json with
  | array items =>
    rw [Settled, settled, Json.array.injEq, settledItems_eq] at h
    rw [← h] at hx
    obtain ⟨y, -, rfl⟩ := List.mem_map.1 hx
    exact settled_settled y
  | object members =>
    rw [Settled, settled, Json.object.injEq, settledMembers_eq] at h
    rw [← h] at hx
    obtain ⟨m, hm, rfl⟩ := List.mem_map.1 hx
    obtain ⟨o, -, rfl⟩ := Entries.mem_mapValues_iff.1 (Entries.mem_of_mem_ofList hm)
    exact settled_settled o.2
  | _ => simp [children] at hx

end TreeReduction.Json
