import TreeReduction.Json

set_option autoImplicit false

/-!
# JSON tokens

The lexemes of a JSON text, found one character at a time. A `Scanner` stands between lexemes, in a
word (a number, `true`, `false` or `null`) or somewhere in a string literal; `Scanner.step` takes
the next character and answers the tokens that it completes. A word ends only where a delimiter
follows, and so `Scanner.finish` completes the one at the end of the text. A literal of the right
form that stands for nothing is a token too, since it may be passed over.
-/

namespace TreeReduction.Json

/-- A lexeme. -/
inductive Token where
  | openArray
  | closeArray
  | openObject
  | closeObject
  | comma
  | colon
  | null
  | bool (b : Bool)
  | number (n : Number)
  | str (s : String)
  /-- a numeral too large for a number, or a string literal with a surrogate outside a pair -/
  | void
  deriving DecidableEq

/-! ## Words -/

/-- The natural that decimal digits spell. -/
def digitsValue (digits : List Char) : Nat :=
  digits.foldl (fun n c => 10 * n + (c.toNat - '0'.toNat)) 0

/-- Splits off the digits of an exponent with its sign, if an exponent stands there. -/
def splitExponent : List Char → Option (Bool × List Char) × List Char
  | c :: cs =>
    if c = 'e' ∨ c = 'E' then
      match cs with
      | '-' :: r => (some (true, r.takeWhile Char.isDigit), r.dropWhile Char.isDigit)
      | '+' :: r => (some (false, r.takeWhile Char.isDigit), r.dropWhile Char.isDigit)
      | r => (some (false, r.takeWhile Char.isDigit), r.dropWhile Char.isDigit)
    else (none, c :: cs)
  | [] => (none, [])

/-- Splits off the digits of a fraction, if one stands there. -/
def splitFraction : List Char → Option (List Char) × List Char
  | '.' :: r => (some (r.takeWhile Char.isDigit), r.dropWhile Char.isDigit)
  | cs => (none, cs)

/-- The digits before the point: at least one, and no zero before another. -/
def wholeDigits : List Char → Bool
  | [] => false
  | ['0'] => true
  | c :: _ => c != '0'

/-- A floating-point number, unless it is too large to be one. -/
def Number.finite? (x : Binary64) : Option Number :=
  if x.isFinite then some (.float x) else none

/-- The parts of a numeral. -/
structure Numeral where
  negative : Bool
  /-- the digits before the point -/
  whole : List Char
  /-- the digits after the point, if it has one -/
  fraction : Option (List Char)
  /-- whether the exponent is negative and its digits, if it has one -/
  exponent : Option (Bool × List Char)

/-- The parts of the numeral that a word spells. -/
def Numeral.ofWord? (word : List Char) : Option Numeral :=
  let (negative, body) :=
    match word with
    | '-' :: r => (true, r)
    | r => (false, r)
  let whole := body.takeWhile Char.isDigit
  let (fraction, afterFraction) := splitFraction (body.dropWhile Char.isDigit)
  let (exponent, rest) := splitExponent afterFraction
  if !wholeDigits whole || fraction == some [] || exponent.any (·.2.isEmpty) || !rest.isEmpty then
    none
  else some { negative, whole, fraction, exponent }

/-- The number of a numeral. A whole number without a point or exponent is an integer while it fits
64 bits, minus zero and every other number is a floating-point number. -/
def Numeral.number? (numeral : Numeral) : Option Number :=
  match numeral.fraction, numeral.exponent with
  | none, none =>
    let n := digitsValue numeral.whole
    let z : Int := if numeral.negative then -n else n
    if (numeral.negative && n == 0) || z < -0x8000000000000000 || 0x10000000000000000 ≤ z then
      Number.finite? (Binary64.ofDecimal numeral.negative n 0)
    else some (.integer z)
  | _, _ =>
    let decimals := numeral.fraction.getD []
    let shift : Int :=
      match numeral.exponent with
      | some (true, ds) => -(digitsValue ds)
      | some (false, ds) => digitsValue ds
      | none => 0
    Number.finite? (Binary64.ofDecimal numeral.negative (digitsValue (numeral.whole ++ decimals))
      (shift - decimals.length))

/-- The token of a numeral. -/
def Numeral.token (numeral : Numeral) : Token :=
  match numeral.number? with
  | some n => .number n
  | none => .void

/-- The token that a word spells. -/
def Token.ofWord? (word : List Char) : Option Token :=
  if word = "null".toList then some .null
  else if word = "true".toList then some (.bool true)
  else if word = "false".toList then some (.bool false)
  else (Numeral.ofWord? word).map Numeral.token

/-! ## Scanning -/

/-- Where in a text the next character stands. Lists hold what was read, last character first. -/
inductive Scanner where
  /-- between two lexemes -/
  | between
  /-- in a word -/
  | word (read : List Char)
  /-- in a string literal -/
  | text (read : List Char)
  /-- after a backslash -/
  | escape (read : List Char)
  /-- in a code of four hexadecimal digits, of which `left` are still to come -/
  | code (read : List Char) (value left : Nat)
  /-- after the code of a high surrogate -/
  | high (read : List Char) (first : Nat)
  /-- after a backslash that follows a high surrogate -/
  | highEscape (read : List Char) (first : Nat)
  /-- in the code of a low surrogate -/
  | low (read : List Char) (first value left : Nat)
  /-- in a string literal after a surrogate outside a pair -/
  | broken
  /-- there, after a backslash -/
  | brokenEscape
  /-- there, in a code of which `left` digits are still to come -/
  | brokenCode (left : Nat)

/-- The value of a hexadecimal digit of either case. -/
def hexValue? (c : Char) : Option Nat :=
  if c.isDigit then some (c.toNat - '0'.toNat)
  else if 'a' ≤ c ∧ c ≤ 'f' then some (c.toNat - 'a'.toNat + 10)
  else if 'A' ≤ c ∧ c ≤ 'F' then some (c.toNat - 'A'.toNat + 10)
  else none

/-- The character that a letter after a backslash stands for. -/
def escapedChar? (c : Char) : Option Char :=
  if c = '"' then some '"'
  else if c = '\\' then some '\\'
  else if c = '/' then some '/'
  else if c = 'b' then some '\x08'
  else if c = 'f' then some '\x0c'
  else if c = 'n' then some '\n'
  else if c = 'r' then some '\r'
  else if c = 't' then some '\t'
  else none

/-- Goes on after a code outside a surrogate pair. A low surrogate alone is no character. -/
def Scanner.afterCode (read : List Char) (value : Nat) : Scanner :=
  if 0xD800 ≤ value ∧ value < 0xDC00 then .high read value
  else if 0xDC00 ≤ value ∧ value < 0xE000 then .broken
  else .text (Char.ofNat value :: read)

/-- Goes on after the second code of a surrogate pair, which has to be a low surrogate. -/
def Scanner.afterPair (read : List Char) (first value : Nat) : Scanner :=
  if 0xDC00 ≤ value ∧ value < 0xE000 then
    .text (Char.ofNat (0x10000 + (first - 0xD800) * 0x400 + (value - 0xDC00)) :: read)
  else .broken

/-- Takes one character of a string literal after a surrogate outside a pair. -/
def Scanner.inBroken (c : Char) : Option (Scanner × List Token) :=
  if c = '"' then some (.between, [.void])
  else if c = '\\' then some (.brokenEscape, [])
  else if c.toNat < 0x20 then none
  else some (.broken, [])

/-- Takes the character after a backslash in such a literal. -/
def Scanner.inBrokenEscape (c : Char) : Option (Scanner × List Token) :=
  if c = 'u' then some (.brokenCode 4, [])
  else (escapedChar? c).map fun _ => (.broken, [])

/-- The token of a punctuation mark. -/
def Token.ofMark? (c : Char) : Option Token :=
  if c = '[' then some .openArray
  else if c = ']' then some .closeArray
  else if c = '\x7b' then some .openObject
  else if c = '\x7d' then some .closeObject
  else if c = ',' then some .comma
  else if c = ':' then some .colon
  else none

/-- Whether a character may stand between lexemes and means nothing. -/
def isSpace (c : Char) : Bool :=
  c == ' ' || c == '\t' || c == '\n' || c == '\r'

/-- Takes a character that stands outside string literals and ends any word before it. -/
def Scanner.outside (c : Char) : Scanner × List Token :=
  if isSpace c then (.between, [])
  else if c = '"' then (.text [], [])
  else
    match Token.ofMark? c with
    | some t => (.between, [t])
    | none => (.word [c], [])

/-- Whether a character ends a word. -/
def endsWord (c : Char) : Bool :=
  isSpace c || c == '"' || (Token.ofMark? c).isSome

/-- Whether a character may stand in a word. -/
def isWordLetter (c : Char) : Bool :=
  c.isAlphanum || c == '-' || c == '+' || c == '.'

/-- Takes one character. Answers nothing where no JSON text goes on like that. -/
def Scanner.step : Scanner → Char → Option (Scanner × List Token)
  | .between, c => some (Scanner.outside c)
  | .word read, c =>
    if endsWord c then do
      let token ← Token.ofWord? read.reverse
      let (next, tokens) := Scanner.outside c
      some (next, token :: tokens)
    else if isWordLetter c then some (.word (c :: read), [])
    else none
  | .text read, c =>
    if c = '"' then some (.between, [.str (String.ofList read.reverse)])
    else if c = '\\' then some (.escape read, [])
    else if c.toNat < 0x20 then none
    else some (.text (c :: read), [])
  | .escape read, c =>
    if c = 'u' then some (.code read 0 4, [])
    else (escapedChar? c).map fun e => (.text (e :: read), [])
  | .code read value left, c => do
    let digit ← hexValue? c
    let value := 16 * value + digit
    if left ≤ 1 then some (Scanner.afterCode read value, [])
    else some (.code read value (left - 1), [])
  | .high read first, c =>
    if c = '\\' then some (.highEscape read first, []) else Scanner.inBroken c
  | .highEscape read first, c =>
    if c = 'u' then some (.low read first 0 4, []) else Scanner.inBrokenEscape c
  | .low read first value left, c => do
    let digit ← hexValue? c
    let value := 16 * value + digit
    if left ≤ 1 then some (Scanner.afterPair read first value, [])
    else some (.low read first value (left - 1), [])
  | .broken, c => Scanner.inBroken c
  | .brokenEscape, c => Scanner.inBrokenEscape c
  | .brokenCode left, c =>
    (hexValue? c).map fun _ => (if left ≤ 1 then .broken else .brokenCode (left - 1), [])

/-- The tokens that the end of the text completes; a string literal may not stay open. -/
def Scanner.finish : Scanner → Option (List Token)
  | .between => some []
  | .word read => (Token.ofWord? read.reverse).map ([·])
  | _ => none

end TreeReduction.Json
