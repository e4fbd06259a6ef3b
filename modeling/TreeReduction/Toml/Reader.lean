import TreeReduction.Toml.Scalar
import TreeReduction.Toml.Token

set_option autoImplicit false

/-!
# Reading TOML

Tokens are put together to values and statements by descent. Each reader takes the tokens it needs
from the front and answers the rest. Lines may end between any two tokens of an array or an inline
table that are not part of one key, and a comma may follow the last item. No key of an inline table
may be assigned twice or go on from one that is assigned. A container may lie inside at most 79
others.
-/

namespace TreeReduction.Toml

/-! ## Blanks -/

/-- Drops a blank in front. -/
def skipBlank : List Token → List Token
  | .blank _ :: rest => rest
  | tokens => tokens

/-- Whether a token is a blank or the end of a line. -/
def Token.isSpace : Token → Bool
  | .blank _ => true
  | .newline => true
  | _ => false

/-- Drops blanks and the ends of lines in front. -/
def skipSpace (tokens : List Token) : List Token :=
  tokens.dropWhile Token.isSpace

/-! ## Keys -/

/-- Whether a character may stand in a name without quotes. -/
def isNameLetter (c : Char) : Bool :=
  c.isAlphanum || c == '_' || c == '-'

/-- The name that a token spells in a key. -/
def Token.name? : Token → Option String
  | .word letters => if letters.all isNameLetter then some (String.ofList letters) else none
  | .text s => some s
  | _ => none

/-- Takes a key. Blanks may stand around its points. -/
def key? : List Token → Option (Key × List Token)
  | [] => none
  | .blank _ :: rest => key? rest
  | token :: .mark '.' :: rest => longer token (key? rest)
  | token :: .blank _ :: .mark '.' :: rest => longer token (key? rest)
  | token :: rest => token.name?.map fun name => ([name], rest)
where
  /-- A key with one more name in front. -/
  longer (token : Token) (read : Option (Key × List Token)) : Option (Key × List Token) := do
    let name ← token.name?
    let (names, rest) ← read
    some (name :: names, rest)

/-- Whether none of two keys goes on from the other. -/
def Key.apart (a b : Key) : Bool :=
  !a.isPrefixOf b && !b.isPrefixOf a

/-- Whether keys may be assigned in one inline table. -/
def areApart : List Key → Bool
  | [] => true
  | key :: rest => rest.all key.apart && areApart rest

/-! ## Values -/

/-- Takes words and points up to the next other token. -/
def run : List Token → List Char × List Token
  | .word letters :: rest =>
    let (more, rest) := run rest
    (letters ++ more, rest)
  | .mark '.' :: rest =>
    let (more, rest) := run rest
    ('.' :: more, rest)
  | rest => ([], rest)

/-- Takes the letters of a scalar without quotes. A space and a time of day may follow a date. -/
def scalar (tokens : List Token) : List Char × List Token :=
  let (word, rest) := run tokens
  match rest with
  | .blank [' '] :: after =>
    if (Moment.date? word).any (·.isEmpty) then
      match run after with
      | ([], _) => (word, rest)
      | (time, after) => (word ++ ' ' :: time, after)
    else (word, rest)
  | _ => (word, rest)

/-- How deep containers may nest. -/
def maxNesting : Nat := 80

mutual

/-- Takes a value in which at most `depth` containers nest. -/
def value? (fuel depth : Nat) (tokens : List Token) : Option (Toml × List Token) :=
  match fuel, depth, tokens with
  | _, _, .text s :: rest => some (.text s, rest)
  | _, _, .block s :: rest => some (.text s, rest)
  | fuel + 1, depth + 1, .mark '[' :: rest =>
    (items? fuel depth (skipSpace rest)).map fun p => (.array p.1, p.2)
  | fuel + 1, depth + 1, .mark '\x7b' :: rest =>
    match assignments? fuel depth (skipSpace rest) with
    | none => none
    | some (assignments, rest) =>
      if areApart (assignments.map (·.1)) then some (.table assignments, rest) else none
  | _, _, tokens =>
    let (word, rest) := scalar tokens
    (ofWord? word).map (·, rest)

/-- Takes the items of an array and its end. -/
def items? (fuel depth : Nat) (tokens : List Token) : Option (List Toml × List Token) :=
  match fuel, tokens with
  | _, .mark ']' :: rest => some ([], rest)
  | 0, _ => none
  | fuel + 1, tokens =>
    match value? fuel depth tokens with
    | none => none
    | some (value, rest) =>
      match skipSpace rest with
      | .mark ',' :: rest =>
        (items? fuel depth (skipSpace rest)).map fun p => (value :: p.1, p.2)
      | .mark ']' :: rest => some ([value], rest)
      | _ => none

/-- Takes the assignments of an inline table and its end. -/
def assignments? (fuel depth : Nat) (tokens : List Token) : Option (Assignments × List Token) :=
  match fuel, tokens with
  | _, .mark '\x7d' :: rest => some ([], rest)
  | 0, _ => none
  | fuel + 1, tokens =>
    match key? tokens with
    | none => none
    | some (key, rest) =>
      match skipSpace rest with
      | .mark '=' :: rest =>
        match value? fuel depth (skipSpace rest) with
        | none => none
        | some (value, rest) =>
          match skipSpace rest with
          | .mark ',' :: rest =>
            (assignments? fuel depth (skipSpace rest)).map fun p => ((key, value) :: p.1, p.2)
          | .mark '\x7d' :: rest => some ([(key, value)], rest)
          | _ => none
      | _ => none

end

/-! ## Statements -/

/-- Takes a statement, which has to end with its line. -/
def statement? (tokens : List Token) : Option (Statement × List Token) :=
  let read : Option (Statement × List Token) :=
    match tokens with
    | .mark '[' :: rest => do
      let (key, rest) ← key? rest
      match skipBlank rest with
      | .mark ']' :: rest => some (.header key, rest)
      | _ => none
    | _ => do
      let (key, rest) ← key? tokens
      match skipBlank rest with
      | .mark '=' :: rest =>
        let (value, rest) ← value? rest.length maxNesting (skipBlank rest)
        some (.assign key value, rest)
      | _ => none
  read.bind fun p =>
    match skipBlank p.2 with
    | [] => some (p.1, [])
    | .newline :: rest => some (p.1, rest)
    | _ => none

/-- The statements of at most `fuel` tokens. -/
def statementsOf (fuel : Nat) (tokens : List Token) : Option (List Statement) :=
  match fuel, skipSpace tokens with
  | _, [] => some []
  | 0, _ => none
  | fuel + 1, tokens =>
    match statement? tokens with
    | none => none
    | some (s, rest) => (statementsOf fuel rest).map (s :: ·)

/-- The document that a text spells. -/
def parse? (text : String) : Option Document := do
  let tokens ← tokens? text
  let statements ← statementsOf tokens.length tokens
  some (.ofStatements statements)

end TreeReduction.Toml
