import TreeReduction.Proofs.DocumentLimits

set_option autoImplicit false

/-!
# Canonical text piece by piece

The canonical text of a value is written without recursion: the pieces that are still to be written
wait on a stack, and a container puts its members on it with commas between them and its bracket
below (`Value.writingPieces`). This writes the canonical text (`Value.written_eq`).

It escapes texts on its own, with the code of a control padded to four digits. That comes to the
escapes of a JSON writer (`Piece.writeLiteral_eq`), and so the text of the document of a value is
the canonical text of the value. The document is read as the value again, and both are therefore the
same thing written down (`Value.document_agrees`).
-/

namespace TreeReduction

/-- A piece of a canonical text that is still to be written. -/
inductive Piece where
  | value (v : Value)
  | key (name : String)
  | raw (text : String)

namespace Piece

/-! ## Literals -/

/-- Appends a character of a literal. -/
def writeChar (out : String) (c : Char) : String :=
  if c = '"' then out ++ "\\\""
  else if c = '\\' then out ++ "\\\\"
  else if c = '\n' then out ++ "\\n"
  else if c = '\r' then out ++ "\\r"
  else if c = '\t' then out ++ "\\t"
  else if c = '\x08' then out ++ "\\b"
  else if c = '\x0c' then out ++ "\\f"
  else if c.toNat < 0x20 then
    out ++ "\\u" ++ String.ofList ((Nat.toDigits 16 c.toNat).leftpad 4 '0')
  else out.push c

/-- Appends a literal. -/
def writeLiteral (out : String) (s : String) : String :=
  (s.toList.foldl writeChar (out.push '"')).push '"'

theorem leftpad_toDigits {n : Nat} (h : n < 0x20) :
    "\\u" ++ String.ofList ((Nat.toDigits 16 n).leftpad 4 '0') =
      if n < 0x10 then "\\u000" ++ String.ofList (Nat.toDigits 16 n)
      else "\\u00" ++ String.ofList (Nat.toDigits 16 n) := by
  revert n
  decide

theorem writeChar_eq (out : String) (c : Char) : writeChar out c = Json.writeChar out c := by
  unfold writeChar Json.writeChar Json.escape?
  by_cases hcontrol : c.toNat < 0x20
  · simp only [String.append_assoc, leftpad_toDigits hcontrol, hcontrol, if_true]
    split_ifs <;> rfl
  · have hhigh : ¬c.toNat < 0x10 := by omega
    simp only [hcontrol, hhigh, if_false]
    split_ifs <;> rfl

theorem writeLiteral_eq (out s : String) : writeLiteral out s = Json.writeString out s := by
  have hchar : writeChar = Json.writeChar := funext fun out => funext (writeChar_eq out)
  rw [writeLiteral, hchar, Json.writeString]

/-! ## Members of containers -/

section Separated

variable {α : Type}

/-- The pieces of members from a number on and what comes below them: a comma stands before every
member but the first. -/
def separated (member : α → List Piece) (items : List α) (start : Nat) (below : List Piece) :
    List Piece :=
  (items.zipIdx start).foldr
    (fun x pieces => (if x.2 = 0 then [] else [.raw ","]) ++ member x.1 ++ pieces) below

theorem mem_separated {member : α → List Piece} {items : List α} {start : Nat} {below : List Piece}
    {piece : Piece} (h : piece ∈ separated member items start below) :
    piece = .raw "," ∨ piece ∈ below ∨ ∃ x ∈ items, piece ∈ member x := by
  induction items generalizing start with
  | nil => exact .inr (.inl h)
  | cons x rest ih =>
    rw [separated, List.zipIdx_cons, List.foldr_cons, ← separated, List.mem_append,
      List.mem_append] at h
    rcases h with (hcomma | hmember) | hrest
    · split at hcomma
      · simp at hcomma
      · exact .inl (List.mem_singleton.1 hcomma)
    · exact .inr (.inr ⟨x, by simp, hmember⟩)
    · rcases ih hrest with hcomma | hbelow | ⟨y, hy, hpiece⟩
      · exact .inl hcomma
      · exact .inr (.inl hbelow)
      · exact .inr (.inr ⟨y, by simp [hy], hpiece⟩)

/-- Writes members one after the other, a comma before all but the first. -/
def writeSeparated (write : String → α → String) (out : String) (first : Bool) : List α → String
  | [] => out
  | x :: rest => writeSeparated write (write (if first then out else out.push ',') x) false rest

end Separated

/-! ## Writing pieces -/

/-- Writes the piece on top. -/
def step : Piece → String → List Piece × String
  | .raw text, out => ([], out ++ text)
  | .key name, out => ([], (writeLiteral out name).push ':')
  | .value v, out =>
    match v with
    | .null => ([], out ++ "null")
    | .bool b => ([], out ++ (if b then "true" else "false"))
    | .int n => ([], out ++ toString n.toInt)
    | .float x => ([], out ++ (if x.isFinite then (Json.Number.float x).text else x.text))
    | .str s => ([], writeLiteral out s)
    | .list items => (separated (fun x => [.value x]) items 0 [.raw "]"], out.push '[')
    | .map entries =>
      (separated (fun p => [.key p.1, .value p.2]) entries 0 [.raw "\x7d"], out.push '\x7b')

/-- A value weighs what its nodes do, and all else weighs nothing. -/
def weight : Piece → Nat
  | .value v => v.nodes
  | _ => 0

/-- A piece gives pieces that weigh nothing and the children of a value. -/
theorem mem_step {piece next : Piece} {out : String} (h : next ∈ (step piece out).1) :
    ∃ v, piece = .value v ∧ (next.weight = 0 ∨ ∃ x ∈ v.children, next = .value x) := by
  cases piece with
  | raw text => simp [step] at h
  | key name => simp [step] at h
  | value v =>
    refine ⟨v, rfl, ?_⟩
    cases v with
    | list items =>
      have hnext : next ∈ separated (fun x => [.value x]) items 0 [.raw "]"] := h
      rcases mem_separated hnext with rfl | hclose | ⟨x, hx, hpiece⟩
      · exact .inl rfl
      · exact .inl (List.mem_singleton.1 hclose ▸ rfl)
      · exact .inr ⟨x, hx, List.mem_singleton.1 hpiece⟩
    | map entries =>
      have hnext : next ∈ separated (fun p : String × Value => [.key p.1, .value p.2]) entries 0
        [.raw "\x7d"] := h
      rcases mem_separated hnext with rfl | hclose | ⟨p, hp, hpiece⟩
      · exact .inl rfl
      · exact .inl (List.mem_singleton.1 hclose ▸ rfl)
      · rcases List.mem_cons.1 hpiece with rfl | hvalue
        · exact .inl rfl
        · exact .inr ⟨p.2, List.mem_map_of_mem hp, List.mem_singleton.1 hvalue⟩
    | _ => simp [step] at h

theorem weight_lt {piece next : Piece} {out : String} (h : next ∈ (step piece out).1) :
    next.weight < piece.weight := by
  obtain ⟨v, rfl, hnext⟩ := mem_step h
  rcases hnext with hzero | ⟨x, hx, rfl⟩
  · rw [hzero, weight, Value.nodes_eq]
    exact Nat.succ_pos _
  · exact Value.nodes_lt_of_mem_children hx

/-- Pieces as work on a stack. -/
def pieces : Worklist Piece String Empty where
  step piece out := .ok (step piece out)
  weight := weight
  weight_lt := by
    intro piece out out' more h next hnext
    rw [← (Prod.mk.inj (Except.ok.inj h)).1] at hnext
    exact weight_lt hnext

theorem run_single (piece : Piece) (out : String) :
    pieces.run [piece] out = pieces.run (step piece out).1 (step piece out).2 :=
  Worklist.run_single ..

theorem run_raw (text out : String) : pieces.run [.raw text] out = .ok (out ++ text) :=
  (run_single ..).trans (Worklist.run_nil ..)

/-- Members that are each written in some way are written one after the other. -/
theorem run_separated {α : Type} {member : α → List Piece} {write : String → α → String}
    {items : List α} (h : ∀ x ∈ items, ∀ out, pieces.run (member x) out = .ok (write out x))
    (start : Nat) (below : List Piece) (out : String) :
    pieces.run (separated member items start below) out =
      pieces.run below (writeSeparated write out (start == 0) items) := by
  induction items generalizing start out with
  | nil => rfl
  | cons x rest ih =>
    obtain ⟨hx, hrest⟩ := List.forall_mem_cons.1 h
    have hmember : ∀ out, pieces.run (member x ++ separated member rest (start + 1) below) out =
        pieces.run below (writeSeparated write (write out x) false rest) := by
      intro out
      rw [Worklist.run_append, hx]
      exact ih hrest (start + 1) (write out x)
    rw [separated, List.zipIdx_cons, List.foldr_cons, ← separated, List.append_assoc,
      writeSeparated]
    by_cases hstart : start = 0
    · rw [if_pos hstart, List.nil_append, hmember]
      simp [hstart]
    · have hcomma : out ++ "," = out.push ',' := rfl
      have hlater : (start == 0) = false := beq_false_of_ne hstart
      rw [if_neg hstart, Worklist.run_append, run_raw, hcomma, hlater]
      exact hmember (out.push ',')

end Piece

namespace Value

theorem writeItems_eq_separated (out : String) (first : Bool) (items : List Value) :
    writeItems out first items = Piece.writeSeparated write out first items := by
  induction items generalizing out first with
  | nil => rfl
  | cons x rest ih =>
    rw [writeItems, Piece.writeSeparated]
    exact ih _ _

theorem writeEntries_eq_separated (out : String) (first : Bool) (entries : List (String × Value)) :
    writeEntries out first entries =
      Piece.writeSeparated (fun out p => write ((Json.writeString out p.1).push ':') p.2) out first
        entries := by
  induction entries generalizing out first with
  | nil => rfl
  | cons p rest ih =>
    rw [writeEntries, Piece.writeSeparated]
    exact ih _ _

/-- Writing the pieces of a value is writing its canonical text. -/
theorem run_pieces (v : Value) (out : String) :
    Piece.pieces.run [.value v] out = .ok (v.write out) := by
  induction v using induct generalizing out with
  | scalar v hv =>
    rw [Piece.run_single]
    cases v with
    | list items => simp [isScalar] at hv
    | map entries => simp [isScalar] at hv
    | float x =>
      have htext : (if x.isFinite then (Json.Number.float x).text else x.text) = x.text :=
        ite_self _
      rw [Piece.step, htext]
      exact Worklist.run_nil ..
    | str s =>
      rw [Piece.step, Piece.writeLiteral_eq]
      exact Worklist.run_nil ..
    | _ => exact Worklist.run_nil ..
  | list items ih =>
    rw [Piece.run_single, Piece.step, Piece.run_separated ih, Piece.run_raw, write,
      writeItems_eq_separated]
    rfl
  | map entries ih =>
    have hentry : ∀ p ∈ entries, ∀ out, Piece.pieces.run [.key p.1, .value p.2] out =
        .ok (write ((Json.writeString out p.1).push ':') p.2) := by
      intro p hp out
      rw [← List.singleton_append, Worklist.run_append, Piece.run_single, Piece.step,
        Piece.writeLiteral_eq, Worklist.run_nil]
      exact ih p hp _
    rw [Piece.run_single, Piece.step, Piece.run_separated hentry, Piece.run_raw, write,
      writeEntries_eq_separated]
    rfl

/-- The canonical text, written piece by piece. -/
def written (v : Value) : Except Empty String :=
  Piece.pieces.run [.value v] ""

theorem written_eq (v : Value) : v.written = .ok v.canonical :=
  run_pieces v ""

/-- The two ways to write a value down agree. Its document is made of it and read as it, and as
nothing else, under exactly the limits that it keeps; and the text of this document is the canonical
text. -/
theorem document_agrees {v : Value} (hordered : v.Ordered) (hfinite : v.FiniteFloats) :
    writing.convert v = .ok (some v.toJson) ∧
    (∀ limits u, (reading limits).convert v.toJson = .ok (some u) ↔
      u = v ∧ v.check limits = .ok ()) ∧
    (∀ limits u, ofJson limits v.toJson = .ok u ↔ u = v ∧ v.check limits = .ok ()) ∧
    v.written = .ok v.canonical ∧ v.canonical = Json.compact v.toJson := by
  have hread : ∀ limits u, ofJson limits v.toJson = .ok u ↔ u = v ∧ v.check limits = .ok () := by
    intro limits u
    rw [ofJson_eq_ok_iff, settled_toJson hordered]
    constructor
    · rintro ⟨hjson, hcheck⟩
      have hu : u.FiniteFloats := ((check_eq_ok_iff limits u).1 hcheck).2.2.1
      have hsame := toJson_inj hu hfinite hjson
      exact ⟨hsame, hsame ▸ hcheck⟩
    · rintro ⟨rfl, hcheck⟩
      exact ⟨rfl, hcheck⟩
  refine ⟨?_, fun limits u => ?_, hread, written_eq v, canonical_eq_compact hfinite⟩
  · rw [convert_writing, settled_toJson hordered]
  · rw [convert_reading, map_eq_ok_iff, ← hread]
    simp

/-- Numbers of all kinds, empty containers, and characters that are escaped in each of the ways. -/
theorem document_agrees_escaped :
    let limits : Limits := { maxDepth := 3, maxWidth := 5, allowFloats := true }
    let v : Value := .map [("", .list []),
      ("\x00\x08\t\n\x0c\r\x1f", .float ⟨0x8000000000000000⟩),
      ("\"\\/", .int Int64.minValue), ("\x7f\u00e9", .list [.null, .bool true, .map []])]
    v.Ordered ∧ v.FiniteFloats ∧ ofJson limits v.toJson = .ok v ∧
      v.written = .ok (Json.compact v.toJson) := by
  intro limits v
  have hordered : v.Ordered := by decide
  have hfinite : v.FiniteFloats := by decide
  obtain ⟨-, -, hread, hwritten, htext⟩ := document_agrees hordered hfinite
  exact ⟨hordered, hfinite, (hread limits v).2 ⟨rfl, rfl⟩, htext ▸ hwritten⟩

end Value

end TreeReduction
