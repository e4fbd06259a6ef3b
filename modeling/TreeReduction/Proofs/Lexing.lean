import TreeReduction.Json.Writer
import TreeReduction.Proofs.Numerals

set_option autoImplicit false

/-!
# Reading lexemes

What a scanner makes of the text of one token: a word is read as the token it spells
(`Json.lex?_word`), a written string literal as the text it was written for (`Json.lex?_literal`),
and then it goes on with what follows. A literal ends by itself; a word ends only where something
stands that no word goes on with.

The writer escapes a character by a letter or by its number, and the scanner knows both
(`Json.Scanner.run_spelledChar`).
-/

namespace TreeReduction.Json

/-! ## Running a scanner -/

/-- The tokens that a scanner completes over a text and its end. -/
def Scanner.run : Scanner → List Char → Option (List Token)
  | scanner, [] => scanner.finish
  | scanner, c :: cs =>
    match scanner.step c with
    | some (next, tokens) => (next.run cs).map (tokens ++ ·)
    | none => none

/-- The tokens of a text. -/
def lex? (text : List Char) : Option (List Token) :=
  Scanner.between.run text

theorem Scanner.run_cons {scanner next : Scanner} {c : Char} {tokens : List Token}
    (h : scanner.step c = some (next, tokens)) (cs : List Char) :
    scanner.run (c :: cs) = (next.run cs).map (tokens ++ ·) := by
  rw [run, h]

/-- A character that completes no token only moves the scanner. -/
theorem Scanner.run_cons_silent {scanner next : Scanner} {c : Char}
    (h : scanner.step c = some (next, [])) (cs : List Char) :
    scanner.run (c :: cs) = next.run cs := by
  rw [run_cons h]
  simp

/-! ## Words -/

/-- A text that no word goes on with. -/
def Delimited (text : List Char) : Prop :=
  ∀ c ∈ text.head?, endsWord c = true

theorem endsWord_of_isWordLetter {c : Char} (h : isWordLetter c = true) : endsWord c = false := by
  cases hends : endsWord c with
  | false => rfl
  | true =>
    have hmark : ∀ d : Char, (Token.ofMark? d).isSome = true →
        d ∈ ['[', ']', '\x7b', '\x7d', ',', ':'] := by
      intro d hd
      unfold Token.ofMark? at hd
      grind
    have hnone : ∀ d ∈ [' ', '\t', '\n', '\r', '"', '[', ']', '\x7b', '\x7d', ',', ':'],
        (!isWordLetter d) = true := List.all_eq_true.1 rfl
    have hmem : c ∈ [' ', '\t', '\n', '\r', '"', '[', ']', '\x7b', '\x7d', ',', ':'] := by
      simp only [endsWord, isSpace, Bool.or_eq_true, beq_iff_eq] at hends
      have := hmark c
      grind
    have hno := hnone c hmem
    rw [h] at hno
    exact absurd hno (by decide)

/-- Outside of words and literals, a letter of a word begins one. -/
theorem Scanner.outside_of_isWordLetter {c : Char} (h : isWordLetter c = true) :
    Scanner.outside c = (.word [c], []) := by
  have hends := endsWord_of_isWordLetter h
  simp only [endsWord, Bool.or_eq_false_iff, beq_eq_false_iff_ne, Option.isSome_eq_false_iff,
    Option.isNone_iff_eq_none] at hends
  obtain ⟨⟨hspace, hquote⟩, hmark⟩ := hends
  simp [outside, hspace, hquote, hmark]

theorem Scanner.run_word {word : List Char} (h : ∀ c ∈ word, isWordLetter c = true)
    (read cs : List Char) :
    (Scanner.word read).run (word ++ cs) = (Scanner.word (word.reverse ++ read)).run cs := by
  induction word generalizing read with
  | nil => rfl
  | cons c word ih =>
    rw [List.forall_mem_cons] at h
    have hstep : (Scanner.word read).step c = some (.word (c :: read), []) := by
      simp [step, endsWord_of_isWordLetter h.1, h.1]
    rw [List.cons_append, run_cons_silent hstep, ih h.2]
    simp

/-- A word that spells a token is read as that token where it ends. -/
theorem lex?_word {word : List Char} {token : Token} (hne : word ≠ [])
    (hletters : ∀ c ∈ word, isWordLetter c = true) (htoken : Token.ofWord? word = some token)
    {cs : List Char} (hcs : Delimited cs) :
    lex? (word ++ cs) = (lex? cs).map (token :: ·) := by
  obtain ⟨c, rest, rfl⟩ := List.exists_cons_of_ne_nil hne
  rw [List.forall_mem_cons] at hletters
  have hstart : Scanner.between.step c = some (.word [c], []) := by
    rw [Scanner.step, Scanner.outside_of_isWordLetter hletters.1]
  have hread : (rest.reverse ++ [c]).reverse = c :: rest := by simp
  rw [lex?, List.cons_append, Scanner.run_cons_silent hstart, Scanner.run_word hletters.2]
  cases cs with
  | nil =>
    rw [Scanner.run, Scanner.finish, hread, htoken]
    rfl
  | cons d cs =>
    have hends : endsWord d = true := hcs d (by simp)
    have hstep : (Scanner.word (rest.reverse ++ [c])).step d =
        some ((Scanner.outside d).1, token :: (Scanner.outside d).2) := by
      rw [Scanner.step, if_pos hends, hread, htoken]
      rfl
    have hbetween : Scanner.between.step d =
        some ((Scanner.outside d).1, (Scanner.outside d).2) := rfl
    rw [Scanner.run_cons hstep, lex?, Scanner.run_cons hbetween, Option.map_map]
    rfl

/-! ## String literals -/

/-- The characters that stand for one in a string literal. -/
def spelledChar (c : Char) : List Char :=
  match escape? c with
  | some text => text.toList
  | none => [c]

theorem toList_writeChar (out : String) (c : Char) :
    (writeChar out c).toList = out.toList ++ spelledChar c := by
  unfold writeChar spelledChar
  cases escape? c with
  | some text => simp
  | none => simp

theorem toList_foldl_writeChar (cs : List Char) (out : String) :
    (cs.foldl writeChar out).toList = out.toList ++ cs.flatMap spelledChar := by
  induction cs generalizing out with
  | nil => simp
  | cons c cs ih =>
    rw [List.foldl_cons, ih, toList_writeChar, List.flatMap_cons, List.append_assoc]

theorem toList_writeString (out s : String) :
    (writeString out s).toList = out.toList ++ ('"' :: (s.toList.flatMap spelledChar ++ ['"'])) := by
  simp [writeString, toList_foldl_writeChar]

theorem toDigits_of_lt_16 {n : Nat} (h : n < 0x10) : Nat.toDigits 16 n = [Nat.digitChar n] :=
  Nat.toDigits_of_lt_base h

theorem toDigits_of_lt_32 {n : Nat} (h : n < 0x20) (hge : 0x10 ≤ n) :
    Nat.toDigits 16 n = ['1', Nat.digitChar (n - 0x10)] := by
  have hdiv : n / 16 = 1 := by omega
  have hmod : n % 16 = n - 0x10 := by omega
  rw [Nat.toDigits_of_base_le (by decide) hge, hdiv, hmod]
  rfl

theorem hexValue?_digitChar : ∀ n < 16, hexValue? (Nat.digitChar n) = some n := by
  decide

/-- A code of four digits whose first two are zeros stands for the character with that number. -/
theorem Scanner.run_code {high low : Char} {a b : Nat} (hhigh : hexValue? high = some a)
    (hlow : hexValue? low = some b) (hlt : 16 * a + b < 0xD800) (read cs : List Char) :
    (Scanner.text read).run ('\\' :: 'u' :: '0' :: '0' :: high :: low :: cs) =
      (Scanner.text (Char.ofNat (16 * a + b) :: read)).run cs := by
  have hafter : Scanner.afterCode read (16 * a + b) = .text (Char.ofNat (16 * a + b) :: read) := by
    rw [afterCode, if_neg (by omega), if_neg (by omega)]
  have hbackslash : (Scanner.text read).step '\\' = some (.escape read, []) := rfl
  have hu : (Scanner.escape read).step 'u' = some (.code read 0 4, []) := rfl
  have hfirst : (Scanner.code read 0 4).step '0' = some (.code read 0 3, []) := rfl
  have hsecond : (Scanner.code read 0 3).step '0' = some (.code read 0 2, []) := rfl
  have hthird : (Scanner.code read 0 2).step high = some (.code read a 1, []) := by
    simp [step, hhigh]
  have hfourth : (Scanner.code read a 1).step low =
      some (.text (Char.ofNat (16 * a + b) :: read), []) := by
    simp [step, hlow, hafter]
  rw [run_cons_silent hbackslash, run_cons_silent hu, run_cons_silent hfirst,
    run_cons_silent hsecond, run_cons_silent hthird, run_cons_silent hfourth]

/-- A letter after a backslash stands for its character. -/
theorem Scanner.run_letter {letter c : Char} (hu : letter ≠ 'u')
    (hletter : escapedChar? letter = some c) (read cs : List Char) :
    (Scanner.text read).run ('\\' :: letter :: cs) = (Scanner.text (c :: read)).run cs := by
  have hbackslash : (Scanner.text read).step '\\' = some (.escape read, []) := rfl
  have hstep : (Scanner.escape read).step letter = some (.text (c :: read), []) := by
    simp [step, hu, hletter]
  rw [run_cons_silent hbackslash, run_cons_silent hstep]

/-- A control without a letter of its own is escaped by its number. -/
theorem Scanner.run_control {c : Char} (h : c.toNat < 0x20) (read cs : List Char) :
    (Scanner.text read).run ('\\' :: 'u' :: '0' :: '0' ::
        ((if c.toNat < 0x10 then ['0'] else []) ++ Nat.toDigits 16 c.toNat ++ cs)) =
      (Scanner.text (c :: read)).run cs := by
  split
  · rename_i hlt
    have hlow := hexValue?_digitChar c.toNat hlt
    have hrun := run_code (show hexValue? '0' = some 0 from rfl) hlow (by omega) read cs
    rw [toDigits_of_lt_16 hlt]
    simpa using hrun
  · rename_i hge
    have hlow := hexValue?_digitChar (c.toNat - 0x10) (by omega)
    have hrun := run_code (show hexValue? '1' = some 1 from rfl) hlow (by omega) read cs
    have hsum : 16 * 1 + (c.toNat - 0x10) = c.toNat := by omega
    rw [hsum] at hrun
    rw [toDigits_of_lt_32 h (by omega)]
    simpa using hrun

/-- The characters that are escaped by a letter, each with that letter. -/
def escapedLetters : List (Char × Char) :=
  [('"', '"'), ('\\', '\\'), ('\n', 'n'), ('\r', 'r'), ('\t', 't'), ('\x08', 'b'), ('\x0c', 'f')]

theorem escape?_of_mem : ∀ p ∈ escapedLetters,
    escape? p.1 = some (String.ofList ['\\', p.2]) ∧ p.2 ≠ 'u' ∧ escapedChar? p.2 = some p.1 := by
  decide

theorem escape?_of_not_mem {c : Char} (h : c ∉ escapedLetters.map (·.1)) :
    escape? c =
      if c.toNat < 0x10 then some ("\\u000" ++ String.ofList (Nat.toDigits 16 c.toNat))
      else if c.toNat < 0x20 then some ("\\u00" ++ String.ofList (Nat.toDigits 16 c.toNat))
      else none := by
  simp only [escapedLetters, List.map_cons, List.map_nil, List.mem_cons, not_or] at h
  obtain ⟨hquote, hbackslash, hn, hr, ht, hb, hf, -⟩ := h
  rw [escape?, if_neg hquote, if_neg hbackslash, if_neg hn, if_neg hr, if_neg ht, if_neg hb,
    if_neg hf]

/-- Whatever stands for a character in a string literal is read as that character. -/
theorem Scanner.run_spelledChar (c : Char) (read cs : List Char) :
    (Scanner.text read).run (spelledChar c ++ cs) = (Scanner.text (c :: read)).run cs := by
  unfold spelledChar
  by_cases hmem : c ∈ escapedLetters.map (·.1)
  · obtain ⟨p, hp, rfl⟩ := List.mem_map.1 hmem
    obtain ⟨hescape, hu, hletter⟩ := escape?_of_mem p hp
    rw [hescape]
    simpa using run_letter hu hletter read cs
  · rw [escape?_of_not_mem hmem]
    by_cases hcontrol : c.toNat < 0x20
    · have hrun := run_control hcontrol read cs
      by_cases hlt : c.toNat < 0x10
      · simpa [hlt] using hrun
      · simpa [hlt, hcontrol] using hrun
    · have hquote : c ≠ '"' := fun h => hmem (by simp [h, escapedLetters])
      have hbackslash : c ≠ '\\' := fun h => hmem (by simp [h, escapedLetters])
      have hstep : (Scanner.text read).step c = some (.text (c :: read), []) := by
        rw [step, if_neg hquote, if_neg hbackslash, if_neg hcontrol]
      rw [if_neg (by omega), if_neg hcontrol]
      exact run_cons_silent hstep cs

/-- A written string literal is read as the text it was written for. -/
theorem lex?_literal (s : String) (cs : List Char) :
    lex? ((literal s).toList ++ cs) = (lex? cs).map (.str s :: ·) := by
  have hrun : ∀ (chars read : List Char),
      (Scanner.text read).run (chars.flatMap spelledChar ++ '"' :: cs) =
        (lex? cs).map (.str (String.ofList (read.reverse ++ chars)) :: ·) := by
    intro chars
    induction chars with
    | nil =>
      intro read
      have hstep : (Scanner.text read).step '"' =
          some (.between, [.str (String.ofList read.reverse)]) := rfl
      rw [List.flatMap_nil, List.nil_append, Scanner.run_cons hstep, List.append_nil]
      rfl
    | cons c chars ih =>
      intro read
      rw [List.flatMap_cons, List.append_assoc, Scanner.run_spelledChar, ih]
      simp
  have hstart : Scanner.between.step '"' = some (.text [], []) := rfl
  rw [literal, toList_writeString, String.toList_empty, List.nil_append, List.cons_append,
    List.append_assoc, lex?, Scanner.run_cons_silent hstart]
  exact (hrun s.toList []).trans (by simp)

end TreeReduction.Json
