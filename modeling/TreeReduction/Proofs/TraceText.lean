import TreeReduction.Proofs.CanonicalText
import TreeReduction.Proofs.TraceLines

set_option autoImplicit false

/-!
# The text of a trace

Two traces have one text only if they are one trace, whatever their events hold
(`Trace.lines_eq_iff`). A line begins with the same characters for every event and the digits of its
number, which a comma ends; what comes after is a document of texts and nulls without its first
bracket, and so nothing in it can be taken for anything else. A reader is no help here: it gives
back no number above 64 bits.

The checksum of a trace is the digest of its text, so two traces have one checksum only where two
texts have one digest.
-/

namespace TreeReduction

namespace TraceEvent

/-! ## A line and its parts -/

/-- The tokens that come before the number of an event. -/
def opening : List Json.Token :=
  [.openObject, .str "v", .colon, .number (.integer 1), .comma, .str "type", .colon,
    .str "kernel.step", .comma, .str "i", .colon]

/-- The members that come after the number of an event. -/
def others (e : TraceEvent) : List (String × Json) :=
  [("before", .str e.before.hex), ("after", .str e.after.hex),
    ("projection", .ofOption e.projection)]

theorem toJson_eq (e : TraceEvent) :
    e.toJson = .object (("v", .nat 1) :: ("type", .str "kernel.step") :: ("i", .nat e.index) ::
      e.others) :=
  rfl

theorem tokens_toJson (e : TraceEvent) :
    e.toJson.tokens = opening ++ .number (.integer e.index) :: .comma ::
      Json.tokensMembers true e.others :=
  rfl

/-- The characters of the line of an event. -/
theorem toList_compact_toJson (e : TraceEvent) :
    e.toJson.compact.toList = Json.spelled opening ++ (Nat.toDigits 10 e.index ++
      ',' :: Json.spelled (Json.tokensMembers true e.others)) := by
  have hnumber : (Json.Token.number (.integer e.index)).spelling = Nat.toDigits 10 e.index :=
    Json.toList_text_ofNat e.index
  rw [Json.compact, Json.toList_write, tokens_toJson, Json.spelled_append, Json.spelled_cons,
    Json.spelled_cons, hnumber]
  rfl

theorem readable_others (e : TraceEvent) : (Json.object e.others).Readable := by
  rw [Json.readable_object_iff]
  simp [others, Json.readable_ofOption]

/-- What comes after the number of an event determines the rest of it. -/
theorem others_inj {d e : TraceEvent}
    (h : Json.spelled (Json.tokensMembers true d.others) =
      Json.spelled (Json.tokensMembers true e.others)) : d.others = e.others := by
  have htext : (Json.object d.others).compact = (Json.object e.others).compact := by
    rw [← String.toList_inj, Json.compact, Json.compact, Json.toList_write, Json.toList_write,
      Json.tokens, Json.tokens, Json.spelled_cons, Json.spelled_cons, h]
  exact Json.object.inj (Json.compact_inj d.readable_others e.readable_others htext)

/-- One line is that of one event. -/
theorem compact_toJson_inj {d e : TraceEvent} (h : d.toJson.compact = e.toJson.compact) :
    d = e := by
  have hcomma : ∀ n, ',' ∉ Nat.toDigits 10 n := by
    intro n hmem
    exact absurd (Json.isDigit_of_mem_toDigits hmem) (by decide)
  rw [← String.toList_inj, toList_compact_toJson, toList_compact_toJson] at h
  obtain ⟨hdigits, hrest⟩ :=
    Trace.append_mark_inj (hcomma d.index) (hcomma e.index) (List.append_cancel_left h)
  have hindex : d.index = e.index := by
    rw [← Json.digitsValue_toDigits d.index, hdigits, Json.digitsValue_toDigits]
  refine toJson_inj ?_
  rw [toJson_eq, toJson_eq, hindex, others_inj hrest]

end TraceEvent

namespace Trace

/-! ## Lines and checksums -/

/-- As many line breaks as lines. -/
theorem count_rowsText {rows : List String} (h : ∀ row ∈ rows, '\n' ∉ row.toList) :
    (rowsText rows).count '\n' = rows.length := by
  induction rows with
  | nil => rfl
  | cons row rest ih =>
    obtain ⟨hrow, hrest⟩ := List.forall_mem_cons.1 h
    rw [rowsText, List.flatMap_cons, List.count_append, List.count_append,
      List.count_eq_zero.2 hrow, ← rowsText, ih hrest, List.length_cons]
    simp [Nat.add_comm]

theorem lineBreak_notMem_rows (t : Trace) :
    ∀ row ∈ t.map fun e => e.toJson.compact, '\n' ∉ row.toList :=
  List.forall_mem_map.2 fun e _ => e.lineBreak_notMem_compact

theorem lines_inj {t u : Trace} (h : lines t = lines u) : t = u := by
  rw [← String.toList_inj, toList_lines, toList_lines] at h
  exact List.map_injective_iff.2 (fun _ _ => TraceEvent.compact_toJson_inj)
    (rowsText_inj (lineBreak_notMem_rows t) (lineBreak_notMem_rows u) h)

/-- The text of a trace determines it. Each event takes up one line of it, whatever the event holds.
The checksums of two traces are one only if the traces are, or their texts have one digest. -/
theorem lines_eq_iff (t u : Trace) :
    (lines t = lines u ↔ t = u) ∧
    (lines t).toList = rowsText (t.map fun e => e.toJson.compact) ∧
    (∀ e ∈ t, '\n' ∉ e.toJson.compact.toList) ∧
    (lines t).toList.count '\n' = t.length ∧
    ((checksum t).hex = (checksum u).hex ↔ t = u ∨ Digest.Collide (lines t) (lines u)) := by
  refine ⟨⟨lines_inj, fun h => h ▸ rfl⟩, toList_lines t,
    fun e _ => e.lineBreak_notMem_compact, ?_, ?_⟩
  · rw [toList_lines, count_rowsText (lineBreak_notMem_rows t), List.length_map]
  · constructor
    · intro h
      by_cases htext : lines t = lines u
      · exact .inl (lines_inj htext)
      · exact .inr ⟨htext, Digest.hex_inj h⟩
    · rintro (rfl | ⟨-, hdigest⟩)
      · rfl
      · exact congrArg Digest.hex hdigest

/-- No projection and one of the name `null`, a name with a line break, and a number of any size. -/
theorem lines_eq_iff_null :
    let d : Digest := .ofText ""
    let named : Trace := [⟨0, d, d, some "null"⟩]
    let nameless : Trace := [⟨0, d, d, none⟩]
    let broken : Trace := [⟨2 ^ 64, d, d, some "\n"⟩, ⟨0, d, d, some "\",\n"⟩]
    lines named ≠ lines nameless ∧ (lines broken).toList.count '\n' = 2 ∧
      ((checksum named).hex = (checksum nameless).hex →
        Digest.Collide (lines named) (lines nameless)) := by
  intro d named nameless broken
  have hne : named ≠ nameless := by simp [named, nameless]
  obtain ⟨hlines, -, -, -, hchecksum⟩ := lines_eq_iff named nameless
  obtain ⟨-, -, -, hcount, -⟩ := lines_eq_iff broken broken
  exact ⟨fun h => hne (hlines.1 h), hcount, fun h => (hchecksum.1 h).resolve_left hne⟩

end Trace

end TreeReduction
