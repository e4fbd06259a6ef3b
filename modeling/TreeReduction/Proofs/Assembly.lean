import TreeReduction.Json.Reader
import TreeReduction.Proofs.WrittenJson

set_option autoImplicit false

/-!
# Assembling a document

A builder that waits for a value and is fed the tokens of a document delivers that document to the
containers around it (`Json.Builder.steps_tokens`), whatever comes next, as long as all of them nest
within the bound. With the scanner in front of it this is the whole reader
(`Json.parse?_eq`), so a text that a document was written as without blanks is read as that document
(`Json.parse?_compact`).
-/

namespace TreeReduction.Json

/-! ## Nesting -/

mutual

/-- How deep containers nest. -/
def depth : Json → Nat
  | .array items => depthItems items + 1
  | .object members => depthMembers members + 1
  | _ => 0

/-- The depth of the deepest item. -/
def depthItems : List Json → Nat
  | [] => 0
  | item :: rest => max item.depth (depthItems rest)

/-- The depth of the deepest member. -/
def depthMembers : List (String × Json) → Nat
  | [] => 0
  | (_, value) :: rest => max value.depth (depthMembers rest)

end

theorem depth_le_of_mem_items {items : List Json} {x : Json} (h : x ∈ items) :
    x.depth ≤ depthItems items := by
  induction items with
  | nil => simp at h
  | cons y rest ih =>
    rw [depthItems]
    rcases List.mem_cons.1 h with rfl | h
    · exact Nat.le_max_left ..
    · exact (ih h).trans (Nat.le_max_right ..)

theorem depth_le_of_mem_members {members : List (String × Json)} {m : String × Json}
    (h : m ∈ members) : m.2.depth ≤ depthMembers members := by
  induction members with
  | nil => simp at h
  | cons o rest ih =>
    rw [depthMembers]
    rcases List.mem_cons.1 h with rfl | h
    · exact Nat.le_max_left ..
    · exact (ih h).trans (Nat.le_max_right ..)

/-! ## Tokens to a document -/

namespace Builder

@[simp]
theorem steps_nil (builder : Builder) : builder.steps [] = some builder := rfl

theorem steps_cons (builder : Builder) (t : Token) (ts : List Token) :
    builder.steps (t :: ts) = (builder.step t).bind (·.steps ts) := by
  rw [steps, List.foldlM_cons]
  rfl

/-- A token that leads to one builder leaves the others to it. -/
theorem steps_cons_of_step {builder next : Builder} {t : Token} (h : builder.step t = some next)
    (ts : List Token) : builder.steps (t :: ts) = next.steps ts := by
  rw [steps_cons, h, Option.bind_some]

theorem steps_append (builder : Builder) (ts us : List Token) :
    builder.steps (ts ++ us) = (builder.steps ts).bind (·.steps us) := by
  rw [steps, List.foldlM_append]
  rfl

/-- A builder that waits for a value takes the tokens of a document for it, whatever follows. -/
def Takes (outer : List Frame) (json : Json) : Prop :=
  ∀ rest, (Builder.value outer).steps (json.tokens ++ rest) = (deliver json outer).steps rest

theorem steps_tokensItems {outer : List Frame} {items : List Json}
    (h : ∀ x ∈ items, ∀ done, Takes (.array done :: outer) x) (done : List Json)
    (rest : List Token) :
    (Builder.moreItems done outer).steps (tokensItems false items ++ rest) =
      (deliver (.array (done.reverse ++ items)) outer).steps rest := by
  induction items generalizing done with
  | nil =>
    have hclose : (Builder.moreItems done outer).step .closeArray =
        some (deliver (.array done.reverse) outer) := rfl
    rw [tokensItems, List.singleton_append, steps_cons_of_step hclose, List.append_nil]
  | cons x items ih =>
    rw [List.forall_mem_cons] at h
    have hcomma : (Builder.moreItems done outer).step .comma =
        some (.value (.array done :: outer)) := rfl
    have hitem : deliver x (.array done :: outer) = .moreItems (x :: done) outer := rfl
    rw [tokensItems, separator, if_neg (by decide), List.append_assoc, List.append_assoc,
      List.singleton_append, steps_cons_of_step hcomma, h.1 done, hitem, ih h.2]
    simp

theorem steps_tokensMembers {outer : List Frame} {members : List (String × Json)}
    (h : ∀ m ∈ members, ∀ done, Takes (.object done m.1 :: outer) m.2)
    (done : List (String × Json)) (rest : List Token) :
    (Builder.moreMembers done outer).steps (tokensMembers false members ++ rest) =
      (deliver (.object (done.reverse ++ members)) outer).steps rest := by
  induction members generalizing done with
  | nil =>
    have hclose : (Builder.moreMembers done outer).step .closeObject =
        some (deliver (.object done.reverse) outer) := rfl
    rw [tokensMembers, List.singleton_append, steps_cons_of_step hclose, List.append_nil]
  | cons m members ih =>
    rw [List.forall_mem_cons] at h
    have hcomma : (Builder.moreMembers done outer).step .comma = some (.nextName done outer) := rfl
    have hname : (Builder.nextName done outer).step (.str m.1) = some (.colon done m.1 outer) := rfl
    have hcolon : (Builder.colon done m.1 outer).step .colon =
        some (.value (.object done m.1 :: outer)) := rfl
    have hmember : deliver m.2 (.object done m.1 :: outer) = .moreMembers (m :: done) outer := rfl
    rw [tokensMembers, separator, if_neg (by decide)]
    simp only [List.cons_append, List.nil_append, List.append_assoc]
    rw [steps_cons_of_step hcomma, steps_cons_of_step hname, steps_cons_of_step hcolon, h.1 done,
      hmember, ih h.2]
    simp

/-- No document begins with the end of an array, so the first item of one is a value like others. -/
theorem steps_firstItem (outer : List Frame) (json : Json) (rest : List Token) :
    (Builder.firstItem outer).steps (json.tokens ++ rest) =
      (Builder.value (.array [] :: outer)).steps (json.tokens ++ rest) := by
  cases json <;> rfl

theorem takes_array {outer : List Frame} (houter : outer.length < maxNesting) {items : List Json}
    (h : ∀ x ∈ items, ∀ done, Takes (.array done :: outer) x) : Takes outer (.array items) := by
  intro rest
  have hopen : (Builder.value outer).step .openArray = some (.firstItem outer) := if_pos houter
  rw [tokens, List.cons_append, steps_cons_of_step hopen]
  cases items with
  | nil => rfl
  | cons x items =>
    rw [List.forall_mem_cons] at h
    have hitem : deliver x (.array [] :: outer) = .moreItems [x] outer := rfl
    rw [tokensItems, separator, if_pos rfl, List.nil_append, List.append_assoc, steps_firstItem,
      h.1, hitem, steps_tokensItems h.2]
    rfl

theorem takes_object {outer : List Frame} (houter : outer.length < maxNesting)
    {members : List (String × Json)}
    (h : ∀ m ∈ members, ∀ done, Takes (.object done m.1 :: outer) m.2) :
    Takes outer (.object members) := by
  intro rest
  have hopen : (Builder.value outer).step .openObject = some (.firstName outer) := if_pos houter
  rw [tokens, List.cons_append, steps_cons_of_step hopen]
  cases members with
  | nil => rfl
  | cons m members =>
    rw [List.forall_mem_cons] at h
    have hname : (Builder.firstName outer).step (.str m.1) = some (.colon [] m.1 outer) := rfl
    have hcolon : (Builder.colon [] m.1 outer).step .colon =
        some (.value (.object [] m.1 :: outer)) := rfl
    have hmember : deliver m.2 (.object [] m.1 :: outer) = .moreMembers [m] outer := rfl
    rw [tokensMembers, separator, if_pos rfl]
    simp only [List.cons_append, List.nil_append, List.append_assoc]
    rw [steps_cons_of_step hname, steps_cons_of_step hcolon, h.1, hmember, steps_tokensMembers h.2]
    rfl

/-- The tokens of a document that nests within the bound, the containers around it included, are
assembled to it. -/
theorem steps_tokens (json : Json) {outer : List Frame}
    (h : outer.length + json.depth ≤ maxNesting) : Takes outer json := by
  induction json using induct generalizing outer with
  | null => exact fun rest => rfl
  | bool b => exact fun rest => rfl
  | number n => exact fun rest => rfl
  | str s => exact fun rest => rfl
  | array items ih =>
    rw [depth] at h
    refine takes_array (by omega) fun x hx done => ih x hx ?_
    have hle := depth_le_of_mem_items hx
    rw [List.length_cons]
    omega
  | object members ih =>
    rw [depth] at h
    refine takes_object (by omega) fun m hm done => ih m hm ?_
    have hle := depth_le_of_mem_members hm
    rw [List.length_cons]
    omega

end Builder

/-! ## A text to a document -/

/-- Feeding characters one at a time is scanning all of them and then assembling the tokens. -/
theorem foldlM_feed (cs : List Char) (scanner : Scanner) (builder : Builder) :
    ((cs.foldlM feed (scanner, builder)).bind fun state =>
        state.1.finish.bind state.2.steps) =
      (scanner.run cs).bind builder.steps := by
  induction cs generalizing scanner builder with
  | nil => rfl
  | cons c cs ih =>
    rw [List.foldlM_cons, feed, Scanner.run]
    cases hstep : scanner.step c with
    | none => rfl
    | some next =>
      obtain ⟨next, tokens⟩ := next
      have hsplit : ∀ us, builder.steps (tokens ++ us) =
          (builder.steps tokens).bind (·.steps us) := builder.steps_append tokens
      simp only [Option.bind_eq_bind, Option.bind_some, Option.bind_map, Function.comp_def, hsplit]
      cases builder.steps tokens with
      | none => simp
      | some after => exact ih next after

/-- A reader scans the text and assembles its tokens. -/
theorem parse?_eq (text : String) :
    parse? text =
      ((lex? text.toList).bind (Builder.value []).steps).bind Builder.result? := by
  rw [lex?, ← foldlM_feed, Option.bind_assoc]
  unfold parse?
  simp only [Option.bind_eq_bind, Option.bind_assoc]

/-- A text that is read as the tokens of a document that nests within the bound is read as it. -/
theorem parse?_of_lex? {text : String} {json : Json} (h : lex? text.toList = some json.tokens)
    (hdepth : json.depth ≤ maxNesting) : parse? text = some json := by
  have hinner : ([] : List Frame).length + json.depth ≤ maxNesting := by simpa using hdepth
  have htake := Builder.steps_tokens json hinner []
  rw [List.append_nil] at htake
  rw [parse?_eq, h, Option.bind_some, htake]
  rfl

/-- A document that nests within the bound is read back from its text. -/
theorem parse?_compact {json : Json} (hread : json.Readable) (hdepth : json.depth ≤ maxNesting) :
    parse? (compact json) = some json :=
  parse?_of_lex? (lex?_compact hread) hdepth

end TreeReduction.Json
