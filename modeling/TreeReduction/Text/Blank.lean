set_option autoImplicit false

/-!
# Blanks

The characters of the Unicode property White_Space, and texts that neither begin nor end with one.
-/

namespace TreeReduction.Text

/-- Whether a character has the property White_Space. -/
def isBlank (c : Char) : Bool :=
  let n := c.toNat
  (0x9 ≤ n && n ≤ 0xD) || n == 0x20 || n == 0x85 || n == 0xA0 || n == 0x1680
    || (0x2000 ≤ n && n ≤ 0x200A) || n == 0x2028 || n == 0x2029 || n == 0x202F
    || n == 0x205F || n == 0x3000

/-- Every ASCII whitespace character is a blank. -/
theorem isBlank_of_isWhitespace {c : Char} (h : c.isWhitespace = true) : isBlank c = true := by
  simp only [Char.isWhitespace, Bool.or_eq_true, decide_eq_true_eq] at h
  rcases h with ((rfl | rfl) | rfl) | rfl <;> decide

/-- Whether a text has no blank at either end. -/
def isTrimmed (s : String) : Bool :=
  (s.toList.head?.all fun c => !isBlank c) && (s.toList.getLast?.all fun c => !isBlank c)

end TreeReduction.Text
