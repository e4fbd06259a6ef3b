import TreeReduction.Toml
import TreeReduction.Toml.Moment

set_option autoImplicit false

/-!
# Scalars without quotes

What a word stands for: a truth value, an integer, a floating-point number or a moment. Underscores
may group the digits of a number. Whether a word may stand in a document depends on its form alone,
and so a numeral of an integer is let through that spells no number: one without digits after the
sign of its base, or one that has letters among its groups.
-/

namespace TreeReduction.Toml

/-! ## Integers -/

/-- A digit in a base of at most 16. -/
def digit? (base : Nat) (c : Char) : Option Nat :=
  match Json.hexValue? c with
  | some d => if d < base then some d else none
  | none => none

/-- The number that digits spell, at least one. -/
def natural? (base : Nat) : List Char → Option Nat
  | [] => none
  | letters => letters.foldlM (fun n c => (digit? base c).map (base * n + ·)) 0

/-- The number that digits spell behind a sign or without one. -/
def signed? (base : Nat) : List Char → Option Int
  | '+' :: digits => (natural? base digits).map Int.ofNat
  | '-' :: digits => (natural? base digits).map fun n => -Int.ofNat n
  | digits => (natural? base digits).map Int.ofNat

/-- The integer of a numeral, or the mark of one that spells no number. -/
def ofNumeral (base : Nat) (letters : List Char) : Toml :=
  match signed? base (letters.filter (· != '_')) with
  | some n => .integer n
  | none => .foreign

/-- Whether a digit stands before and after each underscore; `digitBefore` tells whether one stands
in front of the letters. -/
def groups (isDigit : Char → Bool) (digitBefore : Bool) : List Char → Bool
  | [] => true
  | '_' :: c :: rest => digitBefore && isDigit c && groups isDigit true rest
  | c :: rest => c != '_' && groups isDigit (isDigit c) rest

/-- Whether a character is a digit in base 16. -/
def isHexDigit (c : Char) : Bool :=
  (Json.hexValue? c).isSome

/-- The integer of digits in a base that its sign tells. -/
def ofBase? (base : Nat) (digits : List Char) : Option Toml :=
  if digits.all (fun c => c == '_' || (digit? base c).isSome) && groups isHexDigit false digits then
    some (ofNumeral base digits)
  else none

/-! ## Floating-point numbers -/

/-- Takes digits and underscores, at least one digit. -/
def digits? (letters : List Char) : Option (List Char) :=
  let isPart := fun c : Char => c.isDigit || c == '_'
  if (letters.takeWhile isPart).any Char.isDigit then some (letters.dropWhile isPart) else none

/-- Takes the digits after a point, if one stands there. -/
def fraction? : List Char → Option (List Char)
  | '.' :: rest => digits? rest
  | rest => some rest

/-- Takes the digits of an exponent with its sign, if one stands there. -/
def exponent? : List Char → Option (List Char)
  | [] => some []
  | c :: rest =>
    if c = 'e' ∨ c = 'E' then
      match rest with
      | '+' :: digits => digits? digits
      | '-' :: digits => digits? digits
      | digits => digits? digits
    else some (c :: rest)

/-- Whether a zero stands before another digit. -/
def hasLeadingZero (letters : List Char) : Bool :=
  letters.head? == some '0' &&
    (letters.tail.takeWhile fun c => c.isDigit || c == '_').any Char.isDigit

/-- Whether letters spell a floating-point number but for its sign and its groups. -/
def isFloat (letters : List Char) : Bool :=
  !hasLeadingZero letters &&
    (((digits? letters).bind fraction?).bind exponent?).any (·.isEmpty)

/-! ## Words -/

/-- The number or moment that a word of this body spells, which is the word without its sign. -/
def ofBody? (word body : List Char) : Option Toml :=
  match body.dropWhile Char.isDigit with
  | [] =>
    if body.isEmpty ∨ (body.head? = some '0' ∧ body ≠ ['0']) then none else some (ofNumeral 10 word)
  | c :: rest =>
    if c = '-' ∨ c = ':' then if Moment.isMoment word then some .foreign else none
    else if ['.', 'e', 'E'].any (c :: rest).contains then
      if isFloat body && groups Char.isDigit false body then some .foreign else none
    else if c = '_' ∧ body.head? ≠ some '0' ∧ groups isHexDigit false body then
      some (ofNumeral 10 word)
    else none

/-- The value that a word spells. -/
def ofWord? (word : List Char) : Option Toml :=
  if word = "true".toList then some (.boolean true)
  else if word = "false".toList then some (.boolean false)
  else
    match word with
    | '0' :: 'x' :: digits => ofBase? 16 digits
    | '0' :: 'o' :: digits => ofBase? 8 digits
    | '0' :: 'b' :: digits => ofBase? 2 digits
    | _ =>
      let body := if word.head?.any fun c => c == '+' || c == '-' then word.tail else word
      if body = "inf".toList ∨ body = "nan".toList then some .foreign
      else ofBody? word body

end TreeReduction.Toml
