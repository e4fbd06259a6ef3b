import Mathlib.Data.List.Basic
import Mathlib.Data.List.TakeWhile
import TreeReduction.Json.Token

set_option autoImplicit false

/-!
# Numerals of integers

The decimal digits of an integer, with a sign before those of a negative one, are a word that reads
back as that integer (`Json.Token.ofWord?_integer`), as long as it fits 64 bits with or without a
sign. That the first digit is no zero before another is what makes it a numeral at all.
-/

namespace TreeReduction.Json

/-! ## Digits -/

theorem digitsValue_toDigits (n : Nat) : digitsValue (Nat.toDigits 10 n) = n := by
  have h : digitsValue (Nat.toDigits 10 n) = Nat.ofDigitChars 10 (Nat.toDigits 10 n) 0 := rfl
  rw [h, Nat.ofDigitChars_ten_toDigits]

theorem isDigit_of_mem_toDigits {n : Nat} {c : Char} (h : c ∈ Nat.toDigits 10 n) :
    c.isDigit = true :=
  Nat.isDigit_of_mem_toDigits (by decide) (by decide) h

theorem takeWhile_toDigits (n : Nat) :
    (Nat.toDigits 10 n).takeWhile Char.isDigit = Nat.toDigits 10 n := by
  rw [List.takeWhile_eq_self_iff]
  exact fun c => isDigit_of_mem_toDigits

theorem dropWhile_toDigits (n : Nat) : (Nat.toDigits 10 n).dropWhile Char.isDigit = [] := by
  rw [List.dropWhile_eq_nil_iff]
  exact fun c => isDigit_of_mem_toDigits

/-- The digits of a number start with the digits of a tenth of it, so down to a single one. -/
theorem head?_toDigits_ne_zero {n : Nat} (h : 0 < n) : (Nat.toDigits 10 n).head? ≠ some '0' := by
  induction n using Nat.strongRecOn with
  | ind n ih =>
    rw [Nat.toDigits_eq_if (by decide)]
    split
    · rename_i hlt
      have hdigit : ∀ d < 10, 0 < d → Nat.digitChar d ≠ '0' := by decide
      simpa using hdigit n hlt h
    · rename_i hge
      rw [List.head?_append_of_ne_nil _ Nat.toDigits_ne_nil]
      exact ih (n / 10) (by omega) (by omega)

theorem wholeDigits_toDigits (n : Nat) : wholeDigits (Nat.toDigits 10 n) = true := by
  rcases Nat.eq_zero_or_pos n with rfl | hpos
  · rfl
  · have hhead := head?_toDigits_ne_zero hpos
    cases hdigits : Nat.toDigits 10 n with
    | nil => simp at hdigits
    | cons c rest =>
      rw [hdigits, List.head?_cons] at hhead
      have hc : c ≠ '0' := fun h => hhead (by rw [h])
      simp [wholeDigits, hc]

/-! ## Words -/

theorem toList_text_ofNat (n : Nat) : (Number.integer n).text.toList = Nat.toDigits 10 n := by
  have h : (Number.integer n).text = n.repr := rfl
  rw [h, Nat.toList_repr]

theorem toList_text_negSucc (n : Nat) :
    (Number.integer (Int.negSucc n)).text.toList = '-' :: Nat.toDigits 10 (n + 1) := by
  have h : (Number.integer (Int.negSucc n)).text = "-" ++ (n + 1).repr := rfl
  rw [h, String.toList_append, Nat.toList_repr]
  rfl

theorem Numeral.ofWord?_ofNat (n : Nat) :
    Numeral.ofWord? (Nat.toDigits 10 n) = some ⟨false, Nat.toDigits 10 n, none, none⟩ := by
  unfold ofWord?
  split
  rename_i negative body hsplit
  split at hsplit
  · rename_i r hr
    have hdigit := isDigit_of_mem_toDigits (n := n) (c := '-') (by simp [hr])
    simp [Char.isDigit] at hdigit
  · obtain ⟨rfl, rfl⟩ := Prod.mk.inj hsplit
    simp [takeWhile_toDigits, dropWhile_toDigits, splitFraction, splitExponent,
      wholeDigits_toDigits]

theorem Numeral.ofWord?_neg (n : Nat) :
    Numeral.ofWord? ('-' :: Nat.toDigits 10 n) = some ⟨true, Nat.toDigits 10 n, none, none⟩ := by
  simp [ofWord?, takeWhile_toDigits, dropWhile_toDigits, splitFraction, splitExponent,
    wholeDigits_toDigits]

/-- Whether a number is an integer that a word of 64 bits holds, with or without a sign. -/
def Number.Fits : Number → Prop
  | .integer n => -0x8000000000000000 ≤ n ∧ n < 0x10000000000000000
  | .float _ => False

theorem Numeral.number?_ofNat {n : Nat} (h : (Number.integer n).Fits) :
    Numeral.number? ⟨false, Nat.toDigits 10 n, none, none⟩ = some (.integer n) := by
  obtain ⟨hmin, hmax⟩ := h
  simp [number?, digitsValue_toDigits]
  omega

theorem Numeral.number?_neg {n : Nat} (h : (Number.integer (Int.negSucc n)).Fits) :
    Numeral.number? ⟨true, Nat.toDigits 10 (n + 1), none, none⟩ =
      some (.integer (Int.negSucc n)) := by
  obtain ⟨hmin, hmax⟩ := h
  rw [Int.negSucc_eq] at hmin hmax ⊢
  simp only [number?, digitsValue_toDigits]
  rw [if_neg]
  · simp
  · simp
    omega

/-- A word with a digit or a sign in it is no other word than a numeral. -/
theorem Token.ofWord?_of_mem {word : List Char} {c : Char} (hc : c ∈ word)
    (hnumeral : (c.isDigit || c == '-') = true) :
    Token.ofWord? word = (Numeral.ofWord? word).map Numeral.token := by
  have hno : ∀ letters : List Char,
      letters.all (fun d => !(d.isDigit || d == '-')) = true → word ≠ letters := by
    rintro letters hletters rfl
    have hletter := List.all_eq_true.1 hletters c hc
    simp [hnumeral] at hletter
  unfold ofWord?
  rw [if_neg (hno _ rfl), if_neg (hno _ rfl), if_neg (hno _ rfl)]

/-- The characters of an integer that fits are a word for it. -/
theorem Token.ofWord?_integer {n : Int} (h : (Number.integer n).Fits) :
    Token.ofWord? (Number.integer n).text.toList = some (.number (.integer n)) := by
  cases n with
  | ofNat n =>
    have htext : (Number.integer (Int.ofNat n)).text.toList = Nat.toDigits 10 n :=
      toList_text_ofNat n
    obtain ⟨c, rest, hdigits⟩ := List.exists_cons_of_ne_nil (Nat.toDigits_ne_nil (n := n) (b := 10))
    have hmem : c ∈ Nat.toDigits 10 n := by simp [hdigits]
    rw [htext, ofWord?_of_mem hmem (by simp [isDigit_of_mem_toDigits hmem]),
      Numeral.ofWord?_ofNat, Option.map_some, Numeral.token, Numeral.number?_ofNat h]
    rfl
  | negSucc n =>
    rw [toList_text_negSucc, ofWord?_of_mem (List.mem_cons_self ..) (by decide),
      Numeral.ofWord?_neg, Option.map_some, Numeral.token, Numeral.number?_neg h]

end TreeReduction.Json
