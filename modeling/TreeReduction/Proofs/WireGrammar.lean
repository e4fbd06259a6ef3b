import Mathlib.Algebra.Group.Nat.Defs
import Mathlib.Data.List.Basic
import TreeReduction.Trace.Wire

set_option autoImplicit false

/-!
# The grammar of wire forms

What readers accept, as relations between values and the bytes that spell them which mention no
reader. `Wire.Decides` joins the two: a reader takes a spelling from the front of some bytes, any
spelling whatever follows it, and nothing else.

A number has several spellings, since its highest groups may be zeros, and so has all that holds
numbers. What is written is the one shortest spelling (`Wire.Shortest`): every other is longer. That
is what makes the written form recognizable by its length alone.
-/

namespace TreeReduction.Wire

variable {α : Type}

/-- The spellings of values. -/
abbrev Grammar (α : Type) : Type := α → Bytes → Prop

/-- A reader takes exactly these bytes, whatever follows them, and answers this value. -/
def Reads (read : Reader α) (bytes : Bytes) (a : α) : Prop :=
  ∀ rest, read (bytes ++ rest) = .ok (a, rest)

/-- A reader takes exactly the spellings of a grammar from the front of some bytes. -/
def Decides (read : Reader α) (grammar : Grammar α) : Prop :=
  ∀ bytes a rest, read bytes = .ok (a, rest) ↔ ∃ front, grammar a front ∧ bytes = front ++ rest

theorem Decides.reads {read : Reader α} {grammar : Grammar α} (h : Decides read grammar) {a : α}
    {front : Bytes} (ha : grammar a front) : Reads read front a :=
  fun rest => (h _ a rest).2 ⟨front, ha, rfl⟩

/-- Bytes start with one spelling at most. -/
theorem Decides.unique {read : Reader α} {grammar : Grammar α} (h : Decides read grammar) {a b : α}
    {front front' rest rest' : Bytes} (ha : grammar a front) (hb : grammar b front')
    (heq : front ++ rest = front' ++ rest') : a = b ∧ rest = rest' := by
  have hread := h.reads ha rest
  rw [heq, h.reads hb rest', Except.ok.injEq, Prod.mk.injEq] at hread
  exact ⟨hread.1.symm, hread.2.symm⟩

/-- Reading one field and then the others takes a spelling of that field. -/
theorem Decides.bind_eq_ok_iff {β : Type} {read : Reader α} {grammar : Grammar α}
    (h : Decides read grammar) {next : α × Bytes → Except Fault (β × Bytes)} {bytes rest : Bytes}
    {b : β} :
    read bytes >>= next = .ok (b, rest) ↔
      ∃ a front back, grammar a front ∧ bytes = front ++ back ∧ next (a, back) = .ok (b, rest) := by
  constructor
  · intro hread
    cases hfield : read bytes with
    | error fault => simp [hfield, bind, Except.bind] at hread
    | ok result =>
      obtain ⟨a, back⟩ := result
      obtain ⟨front, ha, rfl⟩ := (h bytes a back).1 hfield
      exact ⟨a, front, back, ha, rfl, by simpa [hfield, bind, Except.bind] using hread⟩
  · rintro ⟨a, front, back, ha, rfl, hnext⟩
    rw [h.reads ha back]
    exact hnext

/-- Some bytes start with a spelling of a value. -/
def Opens (grammar : Grammar α) (a : α) (bytes : Bytes) : Prop :=
  ∃ front, grammar a front ∧ front <+: bytes

theorem Decides.opens_iff {read : Reader α} {grammar : Grammar α} (h : Decides read grammar) (a : α)
    (bytes : Bytes) : Opens grammar a bytes ↔ ∃ rest, read bytes = .ok (a, rest) := by
  constructor
  · rintro ⟨front, hfront, rest, rfl⟩
    exact ⟨rest, (h _ a rest).2 ⟨front, hfront, rfl⟩⟩
  · rintro ⟨rest, hread⟩
    obtain ⟨front, hfront, rfl⟩ := (h bytes a rest).1 hread
    exact ⟨front, hfront, List.prefix_append front rest⟩

/-! ## Shortest spellings -/

/-- Some bytes are those that are given, or else longer. -/
def SameOrLonger (least bytes : Bytes) : Prop :=
  bytes = least ∨ least.length < bytes.length

namespace SameOrLonger

theorem refl (bytes : Bytes) : SameOrLonger bytes bytes :=
  .inl rfl

theorem length_le {least bytes : Bytes} (h : SameOrLonger least bytes) :
    least.length ≤ bytes.length := by
  rcases h with rfl | h
  · exact Nat.le_refl _
  · exact Nat.le_of_lt h

theorem eq_of_length_le {least bytes : Bytes} (h : SameOrLonger least bytes)
    (hlength : bytes.length ≤ least.length) : bytes = least :=
  h.resolve_right (Nat.not_lt.2 hlength)

/-- Bytes one after the other are longer as soon as one part is. -/
theorem append {x y xs ys : Bytes} (hx : SameOrLonger x xs) (hy : SameOrLonger y ys) :
    SameOrLonger (x ++ y) (xs ++ ys) := by
  have hxle := hx.length_le
  have hyle := hy.length_le
  rcases hx with rfl | hx
  · rcases hy with rfl | hy
    · exact .refl _
    · right
      rw [List.length_append, List.length_append]
      omega
  · right
    rw [List.length_append, List.length_append]
    omega

theorem cons (b : UInt8) {x xs : Bytes} (h : SameOrLonger x xs) :
    SameOrLonger (b :: x) (b :: xs) :=
  (refl [b]).append h

theorem extend {x xs ys : Bytes} (h : SameOrLonger x xs) (hstarts : xs <+: ys) :
    SameOrLonger x ys := by
  obtain ⟨rest, rfl⟩ := hstarts
  have hrest : SameOrLonger [] rest := by
    cases rest with
    | nil => exact .refl _
    | cons b rest => exact .inr (Nat.succ_pos _)
  simpa using h.append hrest

end SameOrLonger

/-- Some bytes are the one shortest spelling of a value. -/
structure Shortest (grammar : Grammar α) (a : α) (least : Bytes) : Prop where
  spells : grammar a least
  sameOrLonger : ∀ {bytes}, grammar a bytes → SameOrLonger least bytes

/-! ## Numbers -/

/-- Groups of seven bits, the lowest first, each byte but the last with its top bit set. -/
inductive Groups : Nat → Bytes → Prop where
  | last (b : UInt8) (h : b.toNat < 128) : Groups b.toNat [b]
  | more (b : UInt8) {n : Nat} {bytes : Bytes} (h : 128 ≤ b.toNat) (rest : Groups n bytes) :
      Groups (128 * n + (b.toNat - 128)) (b :: bytes)

/-- The spellings of a number of at most 64 bits: ten groups at most, the highest of which may be
zeros. -/
structure SpellsNumber (n : Nat) (bytes : Bytes) : Prop where
  groups : Groups n bytes
  lt : n < 2 ^ 64
  length_le : bytes.length ≤ 10

theorem toNat_toUInt8 {n : Nat} (h : n < 256) : n.toUInt8.toNat = n := by
  rw [Nat.toUInt8, UInt8.toNat_ofNat']
  exact Nat.mod_eq_of_lt h

theorem Groups.length_pos {n : Nat} {bytes : Bytes} (h : Groups n bytes) : 0 < bytes.length := by
  cases h <;> simp

theorem eq_toUInt8 {b : UInt8} {n : Nat} (h : b.toNat = n) : b = n.toUInt8 := by
  subst h
  exact UInt8.toNat_inj.1 (toNat_toUInt8 b.toNat_lt).symm

theorem number_of_lt {n : Nat} (h : n < 128) : number n = [n.toUInt8] := by
  rw [number, if_pos h]

theorem number_of_le {n : Nat} (h : 128 ≤ n) :
    number n = (n % 128 + 128).toUInt8 :: number (n / 128) := by
  rw [number, if_neg (by omega)]

theorem groups_number (n : Nat) : Groups n (number n) := by
  induction n using Nat.strongRecOn with
  | ind n ih =>
    by_cases hsmall : n < 128
    · have hbyte := toNat_toUInt8 (by omega : n < 256)
      have hlast := Groups.last n.toUInt8 (by omega)
      rwa [hbyte, ← number_of_lt hsmall] at hlast
    · have hbyte := toNat_toUInt8 (by omega : n % 128 + 128 < 256)
      have hmore := Groups.more (n % 128 + 128).toUInt8 (by omega) (ih (n / 128) (by omega))
      have hvalue : 128 * (n / 128) + (n % 128 + 128 - 128) = n := by omega
      rwa [hbyte, hvalue, ← number_of_le (by omega)] at hmore

/-- The groups that are written are the fewest. -/
theorem Groups.sameOrLonger {n : Nat} {bytes : Bytes} (h : Groups n bytes) :
    SameOrLonger (number n) bytes := by
  induction h with
  | last b hb =>
    rw [number_of_lt hb, ← eq_toUInt8 rfl]
    exact .refl _
  | @more b n bytes hb hrest ih =>
    have hlt := b.toNat_lt
    by_cases hsmall : 128 * n + (b.toNat - 128) < 128
    · rw [number_of_lt hsmall]
      exact .inr (Nat.succ_lt_succ hrest.length_pos)
    · have hgroup : (128 * n + (b.toNat - 128)) % 128 + 128 = b.toNat := by omega
      have hhigher : (128 * n + (b.toNat - 128)) / 128 = n := by omega
      rw [number_of_le (by omega), hhigher, ← eq_toUInt8 hgroup.symm]
      exact ih.cons b

/-- A number takes a byte for each seven bits. -/
theorem length_number_le {groups n : Nat} (h : n < 128 ^ (groups + 1)) :
    (number n).length ≤ groups + 1 := by
  induction groups generalizing n with
  | zero =>
    rw [number, if_pos (by simpa using h)]
    exact Nat.le_refl 1
  | succ groups ih =>
    rw [number]
    split
    · simp
    · have hrest : n / 128 < 128 ^ (groups + 1) := by
        rw [Nat.div_lt_iff_lt_mul (by omega), ← Nat.pow_succ]
        exact h
      rw [List.length_cons]
      exact Nat.succ_le_succ (ih hrest)

theorem shortest_number {n : Nat} (h : n < 2 ^ 64) : Shortest SpellsNumber n (number n) :=
  ⟨⟨groups_number n, h, length_number_le (by omega)⟩, fun hspells => hspells.groups.sameOrLonger⟩

/-- The groups that are read are those that end within the bits that are left. -/
theorem readNumberWithin_eq_ok_iff {bits : Nat} (hbits : 0 < bits) (bytes : Bytes) (n : Nat)
    (rest : Bytes) :
    readNumberWithin bits bytes = .ok (n, rest) ↔
      ∃ front, (Groups n front ∧ n < 2 ^ bits ∧ 7 * front.length < bits + 7) ∧
        bytes = front ++ rest := by
  constructor
  · intro h
    induction bytes generalizing bits n with
    | nil => simp [readNumberWithin] at h
    | cons b bytes ih =>
      rw [readNumberWithin] at h
      split at h
      · rename_i hlast
        split at h
        · rename_i hfits
          rw [Except.ok.injEq, Prod.mk.injEq] at h
          obtain ⟨rfl, rfl⟩ := h
          exact ⟨[b], ⟨.last b hlast, hfits, by simpa using hbits⟩, rfl⟩
        · simp at h
      · rename_i hmore
        split at h
        · rename_i hleft
          split at h
          · simp at h
          · rename_i m bytes' hread
            rw [Except.ok.injEq, Prod.mk.injEq] at h
            obtain ⟨rfl, rfl⟩ := h
            obtain ⟨front, ⟨hgroups, hlt, hlength⟩, rfl⟩ := ih (by omega) m hread
            have hbyte := b.toNat_lt
            have hsplit : 2 ^ (bits - 7) * 2 ^ 7 = 2 ^ bits := Nat.pow_sub_mul_pow 2 (by omega)
            refine ⟨b :: front, ⟨.more b (by omega) hgroups, by omega, ?_⟩, rfl⟩
            rw [List.length_cons]
            omega
        · simp at h
  · rintro ⟨front, ⟨hgroups, hlt, hlength⟩, rfl⟩
    induction hgroups generalizing bits with
    | last b hb => simp [readNumberWithin, hb, hlt]
    | @more b n front hb hrest ih =>
      have hpos := hrest.length_pos
      rw [List.length_cons] at hlength
      have hsplit : 2 ^ (bits - 7) * 2 ^ 7 = 2 ^ bits := Nat.pow_sub_mul_pow 2 (by omega)
      rw [List.cons_append, readNumberWithin, if_neg (by omega), if_pos (by omega),
        ih (by omega) (by omega) (by omega)]

theorem decides_number : Decides readNumber SpellsNumber := by
  intro bytes n rest
  rw [readNumber, readNumberWithin_eq_ok_iff (by omega)]
  constructor
  · rintro ⟨front, ⟨hgroups, hlt, hlength⟩, hbytes⟩
    exact ⟨front, ⟨hgroups, hlt, by omega⟩, hbytes⟩
  · rintro ⟨front, ⟨hgroups, hlt, hlength⟩, hbytes⟩
    exact ⟨front, ⟨hgroups, hlt, by omega⟩, hbytes⟩

/-! ## Bytes and texts -/

theorem reads_bytes (bs : Bytes) : Reads (readBytes bs.length) bs bs := by
  intro rest
  induction bs with
  | nil => rfl
  | cons b bs ih => rw [List.length_cons, List.cons_append, readBytes, ih]

/-- The spellings of `n` bytes: the bytes themselves. -/
def SpellsBytes (n : Nat) (bs bytes : Bytes) : Prop :=
  bs.length = n ∧ bytes = bs

theorem decides_bytes (n : Nat) : Decides (readBytes n) (SpellsBytes n) := by
  intro bytes bs rest
  constructor
  · intro h
    induction n generalizing bytes bs with
    | zero =>
      rw [readBytes, Except.ok.injEq, Prod.mk.injEq] at h
      obtain ⟨rfl, rfl⟩ := h
      exact ⟨[], ⟨rfl, rfl⟩, rfl⟩
    | succ n ih =>
      cases bytes with
      | nil => simp [readBytes] at h
      | cons b bytes =>
        rw [readBytes] at h
        split at h
        · simp at h
        · rename_i tail bytes' hread
          rw [Except.ok.injEq, Prod.mk.injEq] at h
          obtain ⟨rfl, rfl⟩ := h
          obtain ⟨front, ⟨hlength, rfl⟩, rfl⟩ := ih bytes tail hread
          exact ⟨b :: front, ⟨by rw [List.length_cons, hlength], rfl⟩, rfl⟩
  · rintro ⟨front, ⟨hlength, rfl⟩, rfl⟩
    exact hlength ▸ reads_bytes front rest

theorem length_utf8 (s : String) : (utf8 s).length = s.utf8ByteSize := rfl

theorem fromUTF8?_utf8 (s : String) : String.fromUTF8? ⟨(utf8 s).toArray⟩ = some s :=
  dif_pos s.isValidUTF8

theorem fromUTF8?_eq_some_iff (bs : Bytes) (s : String) :
    String.fromUTF8? ⟨bs.toArray⟩ = some s ↔ bs = utf8 s := by
  constructor
  · intro h
    unfold String.fromUTF8? at h
    split at h
    · obtain rfl := Option.some.inj h
      rfl
    · simp at h
  · rintro rfl
    exact fromUTF8?_utf8 s

/-- The spellings of a text: the number of its bytes, and the bytes. -/
def SpellsText (s : String) (bytes : Bytes) : Prop :=
  ∃ count, SpellsNumber s.utf8ByteSize count ∧ bytes = count ++ utf8 s

theorem decides_text : Decides readText SpellsText := by
  intro bytes s rest
  constructor
  · intro h
    rw [readText] at h
    split at h
    · simp at h
    · rename_i n bytes' hcount
      split at h
      · simp at h
      · rename_i bs bytes'' hbytes
        split at h
        · rename_i s' htext
          rw [Except.ok.injEq, Prod.mk.injEq] at h
          obtain ⟨rfl, rfl⟩ := h
          obtain ⟨count, hspells, rfl⟩ := (decides_number bytes n bytes').1 hcount
          obtain ⟨bs, ⟨rfl, rfl⟩, rfl⟩ := (decides_bytes n bytes' bs bytes'').1 hbytes
          obtain rfl := (fromUTF8?_eq_some_iff bs s').1 htext
          exact ⟨count ++ utf8 s', ⟨count, hspells, rfl⟩, (List.append_assoc ..).symm⟩
        · simp at h
  · rintro ⟨front, ⟨count, hspells, rfl⟩, rfl⟩
    have hcount := decides_number.reads hspells (utf8 s ++ rest)
    have hbytes : readBytes s.utf8ByteSize (utf8 s ++ rest) = .ok (utf8 s, rest) :=
      reads_bytes (utf8 s) rest
    rw [readText, List.append_assoc, hcount]
    simp only [hbytes, fromUTF8?_utf8]

theorem shortest_text {s : String} (h : s.utf8ByteSize < 2 ^ 64) :
    Shortest SpellsText s (text s) := by
  have hcount := shortest_number h
  refine ⟨⟨_, hcount.spells, rfl⟩, ?_⟩
  rintro bytes ⟨count, hspells, rfl⟩
  exact (hcount.sameOrLonger hspells).append (.refl _)

/-! ## Options and repetition -/

/-- The spellings of an optional text: a zero byte, or a one byte and a text. -/
def SpellsOptionalText : Grammar (Option String)
  | none, bytes => bytes = [0]
  | some s, bytes => ∃ front, SpellsText s front ∧ bytes = 1 :: front

theorem decides_optionalText : Decides readOptionalText SpellsOptionalText := by
  intro bytes o rest
  constructor
  · intro h
    cases bytes with
    | nil => simp [readOptionalText] at h
    | cons b bytes =>
      rw [readOptionalText] at h
      split at h
      · rename_i hzero
        rw [Except.ok.injEq, Prod.mk.injEq] at h
        obtain ⟨rfl, rfl⟩ := h
        exact ⟨[0], rfl, by rw [hzero]; rfl⟩
      · split at h
        · rename_i hone
          split at h
          · simp at h
          · rename_i s bytes' hread
            rw [Except.ok.injEq, Prod.mk.injEq] at h
            obtain ⟨rfl, rfl⟩ := h
            obtain ⟨front, hspells, rfl⟩ := (decides_text bytes s bytes').1 hread
            exact ⟨1 :: front, ⟨front, hspells, rfl⟩, by rw [hone]; rfl⟩
        · simp at h
  · rintro ⟨front, hspells, rfl⟩
    cases o with
    | none =>
      obtain rfl := hspells
      rfl
    | some s =>
      obtain ⟨front', hspells, rfl⟩ := hspells
      have hread := decides_text.reads hspells rest
      simp [readOptionalText, hread]

theorem shortest_optionalText {o : Option String} (h : ∀ s ∈ o, s.utf8ByteSize < 2 ^ 64) :
    Shortest SpellsOptionalText o (optionalText o) := by
  cases o with
  | none => exact ⟨rfl, fun hspells => .inl hspells⟩
  | some s =>
    have htext := shortest_text (h s rfl)
    refine ⟨⟨_, htext.spells, rfl⟩, ?_⟩
    rintro bytes ⟨front, hspells, rfl⟩
    exact (htext.sameOrLonger hspells).cons 1

/-- The spellings of a sequence of values, one after the other. -/
inductive SpellsMany (grammar : Grammar α) : Grammar (List α) where
  | nil : SpellsMany grammar [] []
  | cons {a : α} {as : List α} {front back : Bytes} (h : grammar a front)
      (rest : SpellsMany grammar as back) : SpellsMany grammar (a :: as) (front ++ back)

theorem readMany_eq_ok_iff {read : Reader α} {grammar : Grammar α} (h : Decides read grammar)
    (n : Nat) (bytes : Bytes) (as : List α) (rest : Bytes) :
    readMany read n bytes = .ok (as, rest) ↔
      as.length = n ∧ ∃ front, SpellsMany grammar as front ∧ bytes = front ++ rest := by
  constructor
  · intro hread
    induction n generalizing bytes as with
    | zero =>
      rw [readMany, Except.ok.injEq, Prod.mk.injEq] at hread
      obtain ⟨rfl, rfl⟩ := hread
      exact ⟨rfl, [], .nil, rfl⟩
    | succ n ih =>
      rw [readMany] at hread
      split at hread
      · simp at hread
      · rename_i a bytes' hfirst
        split at hread
        · simp at hread
        · rename_i as' bytes'' hlater
          rw [Except.ok.injEq, Prod.mk.injEq] at hread
          obtain ⟨rfl, rfl⟩ := hread
          obtain ⟨front, hspells, rfl⟩ := (h bytes a bytes').1 hfirst
          obtain ⟨rfl, back, hmany, rfl⟩ := ih bytes' as' hlater
          exact ⟨rfl, front ++ back, .cons hspells hmany, (List.append_assoc ..).symm⟩
  · rintro ⟨rfl, front, hmany, rfl⟩
    induction hmany with
    | nil => rfl
    | @cons a as front back hspells hmany ih =>
      have hfirst := h.reads hspells (back ++ rest)
      rw [List.length_cons, readMany, List.append_assoc, hfirst]
      simp only [ih]

theorem shortest_many {grammar : Grammar α} {write : α → Bytes} {as : List α}
    (h : ∀ a ∈ as, Shortest grammar a (write a)) :
    Shortest (SpellsMany grammar) as (as.flatMap write) := by
  induction as with
  | nil =>
    refine ⟨.nil, ?_⟩
    rintro bytes ⟨⟩
    exact .refl _
  | cons a as ih =>
    obtain ⟨hfirst, hlater⟩ := List.forall_mem_cons.1 h
    rw [List.flatMap_cons]
    refine ⟨.cons hfirst.spells (ih hlater).spells, ?_⟩
    rintro bytes (_ | ⟨hspells, hmany⟩)
    exact (hfirst.sameOrLonger hspells).append ((ih hlater).sameOrLonger hmany)

end TreeReduction.Wire
