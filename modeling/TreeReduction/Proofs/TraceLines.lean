import Mathlib.Data.List.Forall2
import TreeReduction.Proofs.Assembly
import TreeReduction.Proofs.Hexadecimal
import TreeReduction.Trace

set_option autoImplicit false

/-!
# The lines of a trace

A document that is written without blanks takes up one line, since the line breaks in its texts are
escaped (`Json.lineBreak_notMem_compact`). So the text of a trace splits into lines in one way only,
and each of them is read as the document of an event, which determines the event. `Trace.Lists`
tells what a file lists without saying how it is written: the file that is written lists its trace
(`Trace.lists_lines`), and no file lists two (`Trace.Lists.unique`).
-/

namespace TreeReduction

/-! ## Documents in one line -/

namespace Json

theorem lineBreak_notMem_spelledChar (c : Char) : '\n' ∉ spelledChar c := by
  unfold spelledChar
  by_cases hmem : c ∈ escapedLetters.map (·.1)
  · obtain ⟨p, hp, rfl⟩ := List.mem_map.1 hmem
    have hletter : ∀ p ∈ escapedLetters, '\n' ≠ p.2 := by decide
    rw [(escape?_of_mem p hp).1]
    simp [hletter p hp]
  · have hdigit : ∀ n < 16, '\n' ≠ Nat.digitChar n := by decide
    rw [escape?_of_not_mem hmem]
    by_cases hlow : c.toNat < 0x10
    · simp [hlow, toDigits_of_lt_16 hlow, hdigit c.toNat hlow]
    · by_cases hhigh : c.toNat < 0x20
      · simp [hlow, hhigh, toDigits_of_lt_32 hhigh (by omega), hdigit (c.toNat - 0x10) (by omega)]
      · rw [if_neg hlow, if_neg hhigh, List.mem_singleton]
        rintro rfl
        exact hmem (by decide)

theorem lineBreak_notMem_spelling {t : Token} (h : ∀ x, t ≠ .number (.float x)) :
    '\n' ∉ t.spelling := by
  cases t with
  | bool b => cases b <;> decide
  | number n =>
    cases n with
    | integer n =>
      intro hmem
      exact absurd (isWordLetter_of_mem_text hmem) (by decide)
    | float x => exact absurd rfl (h x)
  | str s =>
    have hspelled : '\n' ∉ s.toList.flatMap spelledChar := by
      rw [List.mem_flatMap]
      rintro ⟨c, -, hc⟩
      exact lineBreak_notMem_spelledChar c hc
    simp [Token.spelling, literal, toList_writeString, hspelled]
  | _ => decide

/-- A document without blanks takes up one line. -/
theorem lineBreak_notMem_compact {json : Json} (h : ∀ x, .number (.float x) ∉ json.tokens) :
    '\n' ∉ (compact json).toList := by
  rw [compact, toList_write, String.toList_empty, List.nil_append, spelled, List.mem_flatMap]
  rintro ⟨t, ht, hmem⟩
  refine lineBreak_notMem_spelling (fun x hx => ?_) hmem
  exact h x (hx ▸ ht)

end Json

/-! ## Events as documents -/

theorem Json.readable_ofOption (text : Option String) : (Json.ofOption text).Readable := by
  cases text with
  | none => exact readable_null
  | some s => exact readable_str s

theorem Json.ofOption_inj {s t : Option String} (h : Json.ofOption s = Json.ofOption t) : s = t := by
  cases s <;> cases t <;> simp_all [Json.ofOption]

namespace TraceEvent

theorem readable_toJson {e : TraceEvent} (h : e.index < 2 ^ 64) : e.toJson.Readable := by
  have hnat : ∀ n : Nat, n < 2 ^ 64 → (Json.nat n).Readable := by
    intro n hn
    rw [Json.nat, Json.readable_number_iff]
    constructor <;> omega
  rw [toJson, Json.readable_object_iff]
  simp [hnat 1 (by decide), hnat e.index h, Json.readable_ofOption]

theorem depth_toJson_le (e : TraceEvent) : e.toJson.depth ≤ Json.maxNesting := by
  obtain ⟨index, before, after, projection⟩ := e
  cases projection <;>
    simp [toJson, Json.ofOption, Json.nat, Json.depth, Json.depthMembers, Json.maxNesting]

/-- Whatever its number, an event takes up one line. -/
theorem lineBreak_notMem_compact (e : TraceEvent) : '\n' ∉ e.toJson.compact.toList := by
  refine Json.lineBreak_notMem_compact fun x => ?_
  obtain ⟨index, before, after, projection⟩ := e
  cases projection <;>
    simp [toJson, Json.ofOption, Json.nat, Json.tokens, Json.tokensMembers, Json.separator]

/-- The document of an event determines it. -/
theorem toJson_inj {d e : TraceEvent} (h : d.toJson = e.toJson) : d = e := by
  obtain ⟨index, before, after, projection⟩ := d
  obtain ⟨index', before', after', projection'⟩ := e
  simp only [toJson, Json.nat, Json.object.injEq, List.cons.injEq, Prod.mk.injEq, true_and,
    and_true, Json.number.injEq, Json.Number.integer.injEq, Json.str.injEq] at h
  obtain ⟨hindex, hbefore, hafter, hprojection⟩ := h
  obtain rfl := Int.ofNat.inj hindex
  obtain rfl := Digest.hex_inj hbefore
  obtain rfl := Digest.hex_inj hafter
  obtain rfl := Json.ofOption_inj hprojection
  rfl

end TraceEvent

/-! ## Lines -/

namespace Trace

/-- A line that is read as the document of an event. -/
structure IsRow (row : String) (e : TraceEvent) : Prop where
  single : '\n' ∉ row.toList
  parse_eq : Json.parse? row = some e.toJson

/-- The characters of lines, each with the line break that ends it. -/
def rowsText (rows : List String) : List Char :=
  rows.flatMap fun row => row.toList ++ ['\n']

/-- A file lists events if its lines are read as their documents in order. -/
def Lists (content : ByteArray) (t : Trace) : Prop :=
  ∃ rows, content = (String.ofList (rowsText rows)).toUTF8 ∧ List.Forall₂ IsRow rows t

theorem toList_lines (t : Trace) :
    (lines t).toList = rowsText (t.map fun e => e.toJson.compact) := by
  have hfold : ∀ out : String,
      (t.foldl (fun out e => (Json.write out e.toJson).push '\n') out).toList =
        out.toList ++ rowsText (t.map fun e => e.toJson.compact) := by
    induction t with
    | nil => simp [rowsText]
    | cons e t ih =>
      intro out
      rw [List.foldl_cons, ih]
      simp [rowsText, Json.compact, Json.toList_write]
  exact (hfold "").trans (by simp)

theorem isRow_compact {e : TraceEvent} (h : e.index < 2 ^ 64) : IsRow e.toJson.compact e :=
  ⟨e.lineBreak_notMem_compact, Json.parse?_compact (e.readable_toJson h) e.depth_toJson_le⟩

/-- The lines of a trace list it. -/
theorem lists_lines {t : Trace} (h : ∀ e ∈ t, e.index < 2 ^ 64) : Lists (lines t).toUTF8 t := by
  refine ⟨t.map fun e => e.toJson.compact, ?_, ?_⟩
  · rw [← toList_lines, String.ofList_toList]
  · rw [List.forall₂_map_left_iff, List.forall₂_same]
    exact fun e he => isRow_compact (h e he)

/-- The first of the marks that end parts of a text is found again. -/
theorem append_mark_inj {mark : Char} {xs ys s t : List Char} (hx : mark ∉ xs) (hy : mark ∉ ys)
    (h : xs ++ mark :: s = ys ++ mark :: t) : xs = ys ∧ s = t := by
  induction xs generalizing ys with
  | nil =>
    cases ys with
    | nil => exact ⟨rfl, (List.cons.inj h).2⟩
    | cons y ys => exact absurd (List.cons.inj h).1 (List.ne_of_not_mem_cons hy)
  | cons x xs ih =>
    cases ys with
    | nil => exact absurd (List.cons.inj h).1.symm (List.ne_of_not_mem_cons hx)
    | cons y ys =>
      obtain ⟨rfl, hrest⟩ := List.cons.inj h
      obtain ⟨rfl, hst⟩ :=
        ih (List.not_mem_of_not_mem_cons hx) (List.not_mem_of_not_mem_cons hy) hrest
      exact ⟨rfl, hst⟩

/-- Lines are found again in their text. -/
theorem rowsText_inj {rows others : List String} (hrows : ∀ row ∈ rows, '\n' ∉ row.toList)
    (hothers : ∀ row ∈ others, '\n' ∉ row.toList) (h : rowsText rows = rowsText others) :
    rows = others := by
  induction rows generalizing others with
  | nil =>
    cases others with
    | nil => rfl
    | cons other others => simp [rowsText] at h
  | cons row rows ih =>
    cases others with
    | nil => simp [rowsText] at h
    | cons other others =>
      rw [List.forall_mem_cons] at hrows hothers
      have hsplit : row.toList ++ '\n' :: rowsText rows =
          other.toList ++ '\n' :: rowsText others := by
        simpa [rowsText] using h
      obtain ⟨hrow, hrest⟩ := append_mark_inj hrows.1 hothers.1 hsplit
      rw [String.toList_inj.1 hrow, ih hrows.2 hothers.2 hrest]

theorem lineBreak_notMem_of_isRow {rows : List String} {t : Trace}
    (h : List.Forall₂ IsRow rows t) : ∀ row ∈ rows, '\n' ∉ row.toList := by
  induction h with
  | nil => simp
  | cons hrow _ ih => exact List.forall_mem_cons.2 ⟨hrow.single, ih⟩

/-- A line is that of one event at most. -/
theorem IsRow.unique {row : String} {d e : TraceEvent} (hd : IsRow row d) (he : IsRow row e) :
    d = e :=
  TraceEvent.toJson_inj (Option.some.inj (hd.parse_eq.symm.trans he.parse_eq))

/-- A file lists one trace at most. -/
theorem Lists.unique {content : ByteArray} {t u : Trace} (ht : Lists content t)
    (hu : Lists content u) : t = u := by
  obtain ⟨rows, rfl, hrows⟩ := ht
  obtain ⟨others, hsame, hothers⟩ := hu
  have htext := String.ofList_injective (String.toByteArray_inj.1 hsame)
  obtain rfl := rowsText_inj (lineBreak_notMem_of_isRow hrows) (lineBreak_notMem_of_isRow hothers)
    htext
  have hunique : Relator.RightUnique IsRow := fun _ _ _ hd he => hd.unique he
  exact hunique.forall₂ hrows hothers

end Trace

end TreeReduction
