import TreeReduction.Proofs.Admission

set_option autoImplicit false

/-!
# A catalog is what was declared

Projections are tried along a chain of links, each of which holds one projection and the chain
behind it. The chain is linked up from its end, so a cursor meets the projections in the order in
which they were declared (`Chain.toList_ofList`).

A list of projections makes a catalog or fails at the first projection that is at fault
(`Catalog.FaultOf`), and the catalog it makes holds the list and nothing else
(`Catalog.ofList_declares`).
-/

namespace TreeReduction

/-! ## Chains -/

/-- Projections as links: each holds one projection and the chain behind it. -/
inductive Chain where
  | empty
  | link (head : Projection) (rest : Chain)

namespace Chain

/-- Links projections up from the last to the first, each in front of the chain so far. -/
def ofList (ps : List Projection) : Chain :=
  ps.reverse.foldl (fun chain p => .link p chain) .empty

/-- The first projection of a chain and the chain behind it. -/
def split? : Chain → Option (Projection × Chain)
  | .empty => none
  | .link head rest => some (head, rest)

/-- The projections that a cursor meets on its way along a chain. -/
def toList : Chain → List Projection
  | .empty => []
  | .link head rest => head :: rest.toList

/-- What is left of a chain that is split so many times, if it has so many links. -/
def after? : Nat → Chain → Option Chain
  | 0, chain => some chain
  | n + 1, chain => chain.split?.bind fun s => after? n s.2

/-- A chain as a value: its projections are listed, and each is put in front of the value so far,
the last one first. -/
def toValue (chain : Chain) : Value :=
  chain.toList.reverse.foldl (fun rest p => .map [("head", p.toValue), ("rest", rest)]) .null

theorem ofList_cons (p : Projection) (rest : List Projection) :
    ofList (p :: rest) = .link p (ofList rest) := by
  simp only [ofList, List.foldl_reverse, List.foldr_cons]

theorem toList_ofList (ps : List Projection) : (ofList ps).toList = ps := by
  induction ps with
  | nil => rfl
  | cons p rest ih => rw [ofList_cons, toList, ih]

theorem toList_inj {chain other : Chain} : chain.toList = other.toList ↔ chain = other := by
  refine ⟨fun h => ?_, fun h => h ▸ rfl⟩
  induction chain generalizing other with
  | empty =>
    cases other with
    | empty => rfl
    | link head rest => simp [toList] at h
  | link head rest ih =>
    cases other with
    | empty => simp [toList] at h
    | link head' rest' =>
      obtain ⟨rfl, hrest⟩ := List.cons.inj h
      rw [ih hrest]

/-- Splitting a chain so many times leaves the projections behind so many. -/
theorem after?_ofList_eq_some_iff {n : Nat} {ps : List Projection} {rest : Chain} :
    (ofList ps).after? n = some rest ↔ n ≤ ps.length ∧ rest.toList = ps.drop n := by
  induction n generalizing ps with
  | zero =>
    rw [after?, Option.some.injEq, List.drop_zero, and_iff_right (Nat.zero_le _), ← toList_inj,
      toList_ofList, eq_comm]
  | succ n ih =>
    cases ps with
    | nil => simp [after?, ofList, split?]
    | cons p ps =>
      rw [after?, ofList_cons, split?, Option.bind_some, ih, List.drop_succ_cons, List.length_cons,
        Nat.succ_le_succ_iff]

theorem toValue_ofList (ps : List Projection) :
    (ofList ps).toValue = Projection.chainToValue ps := by
  rw [toValue, toList_ofList, List.foldl_reverse]
  induction ps with
  | nil => rfl
  | cons p rest ih => rw [List.foldr_cons, ih, Projection.chainToValue]

end Chain

/-! ## Catalogs -/

/-- A list consists of what is in front of a place, what is there and what is behind. -/
theorem eq_take_append_of_getElem? {ps : List Projection} {i : Nat} {p : Projection}
    (h : ps[i]? = some p) :
    ps = ps.take i ++ p :: ps.drop (i + 1) := by
  obtain ⟨hi, rfl⟩ := List.getElem?_eq_some_iff.1 h
  rw [← List.drop_eq_getElem_cons hi, List.take_append_drop]

namespace Catalog

/-- The chain along which the projections of a catalog are tried. -/
def chain (c : Catalog) : Chain :=
  .ofList c.projections

/-- The projection at a place of a list is at fault, and none before it is. -/
structure FirstFault (limits : Limits) (ps : List Projection) (i : Nat) (v : Violation) :
    Prop where
  fault : ∃ p, ps[i]? = some p ∧ FaultOf limits ((ps.take i).map (·.id)) p v
  least : ∀ j < i, ∀ q, ps[j]? = some q → ∀ w, ¬FaultOf limits ((ps.take j).map (·.id)) q w

/-- A catalog holds the projections of a list in their order and nothing else. -/
structure Holds (c : Catalog) (ps : List Projection) : Prop where
  projections_eq : c.projections = ps
  toList_chain : c.chain.toList = ps
  after?_chain : ∀ n rest, c.chain.after? n = some rest ↔ n ≤ ps.length ∧ rest.toList = ps.drop n
  size_eq : c.size = ps.length
  ids_eq : c.ids = ps.map (·.id)
  get?_eq_some_iff : ∀ id p, c.get? id = some p ↔ p ∈ ps ∧ p.id = id
  get?_eq_none_iff : ∀ id, c.get? id = none ↔ ∀ p ∈ ps, p.id ≠ id

variable {limits : Limits} {ps : List Projection}

/-! ### The first fault -/

/-- Projections pass together when none of them is at fault. -/
theorem checkEach_eq_ok_iff_faultOf :
    checkEach limits [] ps = .ok () ↔
      ∀ i p, ps[i]? = some p → ∀ v, ¬FaultOf limits ((ps.take i).map (·.id)) p v := by
  constructor
  · intro hok i p hp v hfault
    rw [eq_take_append_of_getElem? hp, checkEach_append] at hok
    cases hearlier : checkEach limits [] (ps.take i) with
    | error w => simp [hearlier] at hok
    | ok _ =>
      rw [hearlier] at hok
      simp only at hok
      rw [checkEach_cons_of_faultOf (faultOf_congr (by simp) hfault)] at hok
      simp at hok
  · intro h
    cases hcheck : checkEach limits [] ps with
    | ok _ => rfl
    | error v =>
      obtain ⟨earlier, p, later, rfl, -, hfault⟩ := checkEach_eq_error_iff_faultOf.1 hcheck
      refine absurd ?_ (h earlier.length p (by simp) v)
      simpa using hfault

theorem checkEach_eq_error_iff_firstFault {v : Violation} :
    checkEach limits [] ps = .error v ↔ ∃ i, FirstFault limits ps i v := by
  rw [checkEach_eq_error_iff_faultOf]
  constructor
  · rintro ⟨earlier, p, later, rfl, hearlier, hfault⟩
    refine ⟨earlier.length, ⟨p, by simp, by simpa using hfault⟩, fun j hj q hq => ?_⟩
    rw [List.getElem?_append_left hj] at hq
    rw [List.take_append_of_le_length (Nat.le_of_lt hj)]
    exact checkEach_eq_ok_iff_faultOf.1 hearlier j q hq
  · rintro ⟨i, ⟨p, hp, hfault⟩, hleast⟩
    refine ⟨ps.take i, p, ps.drop (i + 1), eq_take_append_of_getElem? hp, ?_, by simpa using hfault⟩
    rw [checkEach_eq_ok_iff_faultOf]
    intro j q hq
    have hj : j < i := by
      by_contra hle
      rw [List.getElem?_take, if_neg hle] at hq
      exact absurd hq nofun
    rw [List.getElem?_take_of_lt hj] at hq
    rw [List.take_take, Nat.min_eq_left (Nat.le_of_lt hj)]
    exact hleast j hj q hq

/-! ### What a catalog holds -/

theorem holds_of_nodup (hnodup : (ps.map (·.id)).Nodup) : Holds ⟨ps⟩ ps where
  projections_eq := rfl
  toList_chain := Chain.toList_ofList ps
  after?_chain _ _ := Chain.after?_ofList_eq_some_iff
  size_eq := rfl
  ids_eq := rfl
  get?_eq_some_iff _ _ := get?_eq_some_iff hnodup
  get?_eq_none_iff id := by
    simp [get?]

/-- A list of projections makes a catalog exactly when there are not too many of them, each passes
its own check and no two have the same id. The catalog then holds the list: its chain has the
projections in their order, as many splits of it leave what stands behind as many projections, and
each projection is found under its id and nothing under any other. Otherwise the list is too long,
or the first projection at fault tells why there is no catalog. -/
theorem ofList_declares (limits : Limits) (ps : List Projection) :
    ((∃ c, ofList limits ps = .ok c) ↔
      ps.length ≤ 4096 ∧ (∀ p ∈ ps, p.check limits = .ok ()) ∧ (ps.map (·.id)).Nodup) ∧
    (∀ c, ofList limits ps = .ok c → c.Holds ps) ∧
    ∀ v, ofList limits ps = .error v ↔
      (4096 < ps.length ∧ v = .tooManyProjections ps.length 4096) ∨
      (ps.length ≤ 4096 ∧ ∃ i, FirstFault limits ps i v) := by
  have hok := ofList_eq_ok_iff limits ps
  simp only [← Projection.check_eq_ok_iff] at hok
  refine ⟨?_, ?_, ?_⟩
  · simp only [hok, exists_eq_left]
    rfl
  · intro c hc
    obtain ⟨rfl, -, -, hnodup⟩ := (hok c).1 hc
    exact holds_of_nodup hnodup
  · intro v
    rw [← checkEach_eq_error_iff_firstFault, ofList, maxProjections]
    by_cases hlong : 4096 < ps.length
    · have hshort : ¬ps.length ≤ 4096 := Nat.not_le.2 hlong
      rw [if_pos hlong, Except.error.injEq]
      simp [hlong, hshort, eq_comm]
    · have hshort : ps.length ≤ 4096 := Nat.not_lt.1 hlong
      rw [if_neg hlong]
      cases checkEach limits [] ps with
      | error w => simp [hlong, hshort]
      | ok _ => simp [hlong]

/-- The third projection repeats an id, and the one behind it has an id that is none. -/
theorem ofList_declares_repeated :
    let wrap : Projection := ⟨"wrap", .site "x", .list [.site "x"]⟩
    let swap : Projection := ⟨"swap", .int 1, .int 2⟩
    let blank : Projection := ⟨" swap", .int 1, .int 2⟩
    let both : Catalog := ⟨[wrap, swap]⟩
    ofList {} [wrap, swap] = .ok both ∧ both.Holds [wrap, swap] ∧
      ofList {} [wrap, swap, wrap, blank] = .error (.duplicateProjectionId "wrap") ∧
      ∃ i, FirstFault {} [wrap, swap, wrap, blank] i (.duplicateProjectionId "wrap") := by
  intro wrap swap blank both
  have hboth : ofList {} [wrap, swap] = .ok both := by cbv
  have hrepeated :
      ofList {} [wrap, swap, wrap, blank] = .error (.duplicateProjectionId "wrap") := by
    cbv
  obtain ⟨-, hholds, -⟩ := ofList_declares {} [wrap, swap]
  obtain ⟨-, -, hfails⟩ := ofList_declares {} [wrap, swap, wrap, blank]
  obtain ⟨hlong, -⟩ | ⟨-, hfirst⟩ := (hfails _).1 hrepeated
  · simp at hlong
  · exact ⟨hboth, hholds both hboth, hrepeated, hfirst⟩

end Catalog

end TreeReduction
