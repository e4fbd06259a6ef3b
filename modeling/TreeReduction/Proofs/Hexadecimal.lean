import Mathlib.Data.String.Basic
import TreeReduction.Digest

set_option autoImplicit false

/-!
# Hexadecimal text

Two digits stand for each byte, so hexadecimal text determines the bytes that it was written for,
and that of a digest determines the digest (`Digest.hex_inj`).
-/

namespace TreeReduction

theorem hexDigit_inj {m n : Nat} (hm : m < 16) (hn : n < 16) (h : hexDigit m = hexDigit n) :
    m = n := by
  have hall : ∀ m < 16, ∀ n < 16, hexDigit m = hexDigit n → m = n := by decide
  exact hall m hm n hn h

/-- The two digits of a byte determine it. -/
theorem hexByte_inj {a b : UInt8} (h : hexByte a = hexByte b) : a = b := by
  have ha := a.toNat_lt
  have hb := b.toNat_lt
  simp only [hexByte, List.cons.injEq, and_true] at h
  have hhigh : a.toNat / 16 = b.toNat / 16 := hexDigit_inj (by omega) (by omega) h.1
  have hlow : a.toNat % 16 = b.toNat % 16 := hexDigit_inj (by omega) (by omega) h.2
  exact UInt8.toNat_inj.1 (by omega)

theorem flatMap_hexByte_inj {as bs : List UInt8} (h : as.flatMap hexByte = bs.flatMap hexByte) :
    as = bs := by
  induction as generalizing bs with
  | nil =>
    cases bs with
    | nil => rfl
    | cons b bs => simp [hexByte] at h
  | cons a as ih =>
    cases bs with
    | nil => simp [hexByte] at h
    | cons b bs =>
      rw [List.flatMap_cons, List.flatMap_cons] at h
      obtain ⟨hbyte, hrest⟩ := List.append_inj h rfl
      rw [hexByte_inj hbyte, ih hrest]

namespace Digest

theorem toList_inj {d e : Digest} (h : d.toList = e.toList) : d = e := by
  have hsame : ofBytes? d.toList = ofBytes? e.toList := by rw [h]
  rw [ofBytes?_toList, ofBytes?_toList] at hsame
  exact Option.some.inj hsame

/-- Hexadecimal text determines the digest. -/
theorem hex_inj {d e : Digest} (h : d.hex = e.hex) : d = e :=
  toList_inj (flatMap_hexByte_inj (String.ofList_injective h))

end Digest

end TreeReduction
