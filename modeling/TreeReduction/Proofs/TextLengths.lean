import Mathlib.Data.String.Basic
import TreeReduction.Proofs.Loading
import TreeReduction.Proofs.SeedDocuments

set_option autoImplicit false

/-!
# How long the texts of a document are

A text that is read out of a document is no longer than the document: every character of a string
literal takes up at least one (`Json.length_le_of_parse?`). What a reader hands over holds no other
texts than the tokens that it was made from, and neither does what a schema reads from it. So the
ids of a seed are no longer than its text (`Seed.Loader.length_le_of_load`).
-/

namespace TreeReduction

/-! ## Characters and bytes -/

/-- A character takes up one byte at least and four at most. -/
theorem utf8Len_bounds (cs : List Char) :
    cs.length ≤ String.utf8Len cs ∧ String.utf8Len cs ≤ 4 * cs.length := by
  induction cs with
  | nil => simp
  | cons c cs ih =>
    have hpos := c.utf8Size_pos
    have hle := c.utf8Size_le_four
    rw [String.utf8Len_cons, List.length_cons]
    omega

theorem length_le_utf8ByteSize (s : String) : s.length ≤ s.utf8ByteSize := by
  have hbounds := (utf8Len_bounds s.toList).1
  rwa [← String.utf8ByteSize_ofList, String.ofList_toList, String.length_toList] at hbounds

theorem utf8ByteSize_le (s : String) : s.utf8ByteSize ≤ 4 * s.length := by
  have hbounds := (utf8Len_bounds s.toList).2
  rwa [← String.utf8ByteSize_ofList, String.ofList_toList, String.length_toList] at hbounds

namespace Json

/-! ## Tokens -/

/-- How many characters of a lexeme a scanner has read. -/
def Scanner.held : Scanner → Nat
  | .word read => read.length
  | .text read => read.length
  | .escape read => read.length
  | .code read _ _ => read.length
  | .high read _ => read.length
  | .highEscape read _ => read.length
  | .low read _ _ _ => read.length
  | _ => 0

/-- What a scanner may come to with one more character: it has read one more at most, and the texts
that it completes are no longer than what it had read. -/
structure Scanner.Reads (held : Nat) (result : Scanner × List Token) : Prop where
  held_le : result.1.held ≤ held + 1
  length_le : ∀ s, .str s ∈ result.2 → s.length ≤ held

theorem Scanner.Reads.silent {held : Nat} {next : Scanner} (h : next.held ≤ held + 1) :
    Scanner.Reads held (next, []) :=
  ⟨h, by simp⟩

theorem Scanner.reads_outside (held : Nat) (c : Char) : Scanner.Reads held (Scanner.outside c) := by
  unfold outside
  split
  · exact .silent (by simp [Scanner.held])
  · split
    · exact .silent (by simp [Scanner.held])
    · split
      · rename_i token htoken
        refine ⟨by simp [Scanner.held], fun s hs => ?_⟩
        obtain rfl := List.mem_singleton.1 hs
        unfold Token.ofMark? at htoken
        grind
      · exact .silent (by simp [Scanner.held])

/-- A word spells no text. -/
theorem Token.ofWord?_ne_str (word : List Char) (s : String) :
    Token.ofWord? word ≠ some (.str s) := by
  intro h
  unfold Token.ofWord? at h
  split at h
  · simp at h
  · split at h
    · simp at h
    · split at h
      · simp at h
      · obtain ⟨numeral, -, htoken⟩ := Option.map_eq_some_iff.1 h
        unfold Numeral.token at htoken
        split at htoken <;> simp at htoken

theorem Scanner.reads_inBroken {held : Nat} {c : Char} {result : Scanner × List Token}
    (h : Scanner.inBroken c = some result) : Scanner.Reads held result := by
  unfold inBroken at h
  split at h
  · obtain rfl := Option.some.inj h
    exact ⟨by simp [Scanner.held], by simp⟩
  · split at h
    · obtain rfl := Option.some.inj h
      exact .silent (by simp [Scanner.held])
    · split at h
      · simp at h
      · obtain rfl := Option.some.inj h
        exact .silent (by simp [Scanner.held])

theorem Scanner.reads_inBrokenEscape {held : Nat} {c : Char} {result : Scanner × List Token}
    (h : Scanner.inBrokenEscape c = some result) : Scanner.Reads held result := by
  unfold inBrokenEscape at h
  split at h
  · obtain rfl := Option.some.inj h
    exact .silent (by simp [Scanner.held])
  · obtain ⟨_, -, rfl⟩ := Option.map_eq_some_iff.1 h
    exact .silent (by simp [Scanner.held])

theorem Scanner.held_afterCode_le (read : List Char) (value : Nat) :
    (Scanner.afterCode read value).held ≤ read.length + 1 := by
  unfold afterCode
  split
  · simp [Scanner.held]
  · split <;> simp [Scanner.held]

theorem Scanner.held_afterPair_le (read : List Char) (first value : Nat) :
    (Scanner.afterPair read first value).held ≤ read.length + 1 := by
  unfold afterPair
  split <;> simp [Scanner.held]

theorem Scanner.reads_step {scanner : Scanner} {c : Char} {result : Scanner × List Token}
    (h : scanner.step c = some result) : Scanner.Reads scanner.held result := by
  cases scanner with
  | between => exact Option.some.inj h ▸ reads_outside _ c
  | word read =>
    rw [step] at h
    split at h
    · obtain ⟨token, htoken, h⟩ := Option.bind_eq_some_iff.1 h
      obtain rfl := Option.some.inj h
      have houtside := reads_outside read.length c
      refine ⟨houtside.held_le, fun s hs => ?_⟩
      rcases List.mem_cons.1 hs with rfl | hs
      · exact absurd htoken (Token.ofWord?_ne_str _ s)
      · exact houtside.length_le s hs
    · split at h
      · exact Option.some.inj h ▸ .silent (by simp [Scanner.held])
      · simp at h
  | text read =>
    rw [step] at h
    split at h
    · obtain rfl := Option.some.inj h
      refine ⟨by simp [Scanner.held], fun s hs => ?_⟩
      obtain rfl := Token.str.inj (List.mem_singleton.1 hs)
      simp [Scanner.held]
    · split at h
      · exact Option.some.inj h ▸ .silent (by simp [Scanner.held])
      · split at h
        · simp at h
        · exact Option.some.inj h ▸ .silent (by simp [Scanner.held])
  | escape read =>
    rw [step] at h
    split at h
    · exact Option.some.inj h ▸ .silent (by simp [Scanner.held])
    · obtain ⟨e, -, rfl⟩ := Option.map_eq_some_iff.1 h
      exact .silent (by simp [Scanner.held])
  | code read value left =>
    rw [step] at h
    obtain ⟨digit, -, h⟩ := Option.bind_eq_some_iff.1 h
    simp only at h
    split at h
    · exact Option.some.inj h ▸ .silent (held_afterCode_le read _)
    · exact Option.some.inj h ▸ .silent (by simp [Scanner.held])
  | high read first =>
    rw [step] at h
    split at h
    · exact Option.some.inj h ▸ .silent (by simp [Scanner.held])
    · exact reads_inBroken h
  | highEscape read first =>
    rw [step] at h
    split at h
    · exact Option.some.inj h ▸ .silent (by simp [Scanner.held])
    · exact reads_inBrokenEscape h
  | low read first value left =>
    rw [step] at h
    obtain ⟨digit, -, h⟩ := Option.bind_eq_some_iff.1 h
    simp only at h
    split at h
    · exact Option.some.inj h ▸ .silent (held_afterPair_le read first _)
    · exact Option.some.inj h ▸ .silent (by simp [Scanner.held])
  | broken => exact reads_inBroken h
  | brokenEscape => exact reads_inBrokenEscape h
  | brokenCode left =>
    obtain ⟨digit, -, rfl⟩ := Option.map_eq_some_iff.1 h
    refine .silent ?_
    split <;> simp [Scanner.held]

/-- A scanner completes no text that is longer than what it read. -/
theorem Scanner.length_le_of_run {scanner : Scanner} {cs : List Char} {tokens : List Token}
    (h : scanner.run cs = some tokens) {s : String} (hs : .str s ∈ tokens) :
    s.length ≤ scanner.held + cs.length := by
  induction cs generalizing scanner tokens with
  | nil =>
    rw [run] at h
    cases scanner with
    | between =>
      obtain rfl := Option.some.inj h
      simp at hs
    | word read =>
      obtain ⟨token, htoken, rfl⟩ := Option.map_eq_some_iff.1 h
      obtain rfl := List.mem_singleton.1 hs
      exact absurd htoken (Token.ofWord?_ne_str _ s)
    | _ => simp [finish] at h
  | cons c cs ih =>
    rw [run] at h
    split at h
    · rename_i next completed hstep
      obtain ⟨rest, hrest, rfl⟩ := Option.map_eq_some_iff.1 h
      have hreads := reads_step hstep
      have hheld := hreads.held_le
      rw [List.length_cons]
      rcases List.mem_append.1 hs with hs | hs
      · have := hreads.length_le s hs
        omega
      · have := ih hrest hs
        simp only at hheld
        omega
    · simp at h

theorem length_le_of_lex? {text : String} {tokens : List Token} (h : lex? text.toList = some tokens)
    {s : String} (hs : .str s ∈ tokens) : s.length ≤ text.length := by
  have hle := Scanner.length_le_of_run h hs
  rw [String.length_toList] at hle
  simpa [Scanner.held] using hle

/-! ## Documents -/

/-- A document has a text as one of its values. Names of members do not count. -/
inductive HasText (s : String) : Json → Prop where
  | self : HasText s (.str s)
  | child {x json : Json} (hx : x ∈ json.children) (h : HasText s x) : HasText s json

/-- All texts of a document are among some texts. -/
def TextsIn (P : String → Prop) (json : Json) : Prop :=
  ∀ s, HasText s json → P s

section TextsIn

variable {P : String → Prop}

theorem textsIn_str {s : String} (h : P s) : (Json.str s).TextsIn P := by
  intro t ht
  cases ht with
  | self => exact h
  | child hx => simp [children] at hx

theorem textsIn_of_children {json : Json} (hne : ∀ s, json ≠ .str s)
    (h : ∀ x ∈ json.children, x.TextsIn P) : json.TextsIn P := by
  intro s hs
  cases hs with
  | self => exact absurd rfl (hne s)
  | child hx hs => exact h _ hx s hs

theorem TextsIn.child {json x : Json} (h : json.TextsIn P) (hx : x ∈ json.children) :
    x.TextsIn P :=
  fun s hs => h s (.child hx hs)

/-- Putting members in order adds no text. -/
theorem TextsIn.settled {json : Json} (h : json.TextsIn P) : json.settled.TextsIn P := by
  induction json using induct with
  | array items ih =>
    refine textsIn_of_children (by simp [Json.settled]) fun x hx => ?_
    rw [Json.settled, children, settledItems_eq] at hx
    obtain ⟨y, hy, rfl⟩ := List.mem_map.1 hx
    exact ih y hy (h.child hy)
  | object members ih =>
    refine textsIn_of_children (by simp [Json.settled]) fun x hx => ?_
    rw [Json.settled, children] at hx
    obtain ⟨m, hm, rfl⟩ := List.mem_map.1 hx
    have hmem := Entries.mem_of_mem_ofList hm
    rw [settledMembers_eq] at hmem
    obtain ⟨o, ho, rfl⟩ := Entries.mem_mapValues_iff.1 hmem
    exact ih o ho (h.child (List.mem_map_of_mem ho))
  | _ => exact h

theorem inherits_textsIn : Inherits fun _ json => json.TextsIn P where
  array _ _ _ h := textsIn_of_children (by simp) h
  object _ _ _ h := textsIn_of_children (by simp) (List.forall_mem_map.2 h)

/-- A document has no other texts than the tokens it was read from. -/
theorem textsIn_of_parse? {text : String} {json : Json}
    (htokens : ∀ tokens, lex? text.toList = some tokens → ∀ s, .str s ∈ tokens → P s)
    (h : parse? text = some json) : json.TextsIn P := by
  refine of_parse? inherits_textsIn (fun tokens hlex token htoken scalar hscalar _ _ => ?_) h
  cases token with
  | str s =>
    obtain rfl := Option.some.inj hscalar
    exact textsIn_str (htokens tokens hlex s htoken)
  | null | bool | number =>
    obtain rfl := Option.some.inj hscalar
    exact textsIn_of_children (by simp) (by simp [children])
  | _ => simp [Token.scalar?] at hscalar

end TextsIn

/-- The texts of a document are no longer than what it was read from. -/
theorem length_le_of_parse? {text : String} {json : Json} (h : parse? text = some json) :
    json.TextsIn fun s => s.length ≤ text.length :=
  textsIn_of_parse? (fun _ hlex _ hs => length_le_of_lex? hlex hs) h

end Json

namespace Seed

/-! ## Seeds -/

/-- The id of an entry is a text of the document it was read from. -/
theorem id_of_decode_entry {P : String → Prop} (hblank : P "") {json : Json} {e : Entry}
    (hjson : json.TextsIn P) (h : entrySchema.decode json = .ok e) : P e.id := by
  refine (Schema.of_decode (P := fun e : Entry => P e.id) hblank ?_ h).2
  intro name x hx put hput r hr
  simp only [entrySchema] at hput
  split at hput
  · obtain ⟨s, hs, rfl⟩ := map_eq_ok_iff.1 hput
    cases x with
    | str t =>
      obtain rfl := Except.ok.inj hs
      exact hjson _ (.child hx .self)
    | _ => simp [textOf] at hs
  · exact Except.ok.inj hput ▸ hr
  · exact Except.ok.inj hput ▸ hr

/-- The ids of a seed are texts of the document it was read from. -/
theorem ids_of_decode {P : String → Prop} (hblank : P "") {json : Json} {d : Document}
    (hjson : json.TextsIn P) (h : documentSchema.decode json = .ok d) : ∀ e ∈ d.entries, P e.id := by
  refine (Schema.of_decode (P := fun d : Document => ∀ e ∈ d.entries, P e.id)
    (by simp [documentSchema]) ?_ h).2
  intro name x hx put hput r hr
  simp only [documentSchema] at hput
  split at hput
  · obtain ⟨m, -, rfl⟩ := map_eq_ok_iff.1 hput
    exact hr
  · obtain ⟨entries, hentries, rfl⟩ := map_eq_ok_iff.1 hput
    obtain ⟨items, rfl, hitems⟩ := (listOf_eq_ok_iff _ _ _).1 hentries
    intro e he
    obtain ⟨item, hitem, hdecode⟩ := Value.exists_left_of_mem hitems he
    exact id_of_decode_entry hblank ((hjson.child hx).child hitem) hdecode
  · obtain ⟨s, -, rfl⟩ := map_eq_ok_iff.1 hput
    exact hr

/-- The ids of a seed that was loaded are no longer than its text. -/
theorem Loader.length_le_of_load {l : Loader} {source : String} {s : Seed}
    (h : l.load source = .ok s) : ∀ id ∈ s.catalog.ids, id.length ≤ source.length := by
  obtain ⟨d, ps, hreads, -, rfl⟩ := exists_reads_of_load h
  obtain ⟨json, hparse, hdecode⟩ := hreads.spells
  have hids : Catalog.ids ⟨ps⟩ = d.ids := map_id_of_makes hreads.makes
  intro id hid
  rw [seedOf, hids] at hid
  obtain ⟨e, he, rfl⟩ := List.mem_map.1 hid
  exact ids_of_decode (by simp) (Json.length_le_of_parse? hparse).settled hdecode e he

end Seed

end TreeReduction
