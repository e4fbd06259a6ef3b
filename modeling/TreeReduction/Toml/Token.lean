import TreeReduction.Json.Token

set_option autoImplicit false

/-!
# TOML tokens

The lexemes of a TOML text. Comments are dropped; the end of a line is a lexeme of its own, since
statements end there, and so is a run of blanks, since a date may have one before the time of day. A
point stands alone, so a word is a bare key or a piece of a scalar without quotes. Any characters
but those that begin other lexemes make a word, and its reader says which words mean something. A
line ends in a line feed or in a carriage return before one, and a string over several lines keeps
them as they are.
-/

namespace TreeReduction.Toml

/-- A lexeme. -/
inductive Token where
  | word (letters : List Char)
  | blank (letters : List Char)
  /-- a string on one line -/
  | text (s : String)
  /-- a string between triple quotes -/
  | block (s : String)
  /-- one of the marks that structure a document -/
  | mark (c : Char)
  | newline
  deriving DecidableEq

/-! ## Characters -/

/-- Whether every carriage return stands before a line feed. -/
def endsLines : List Char → Bool
  | [] => true
  | '\r' :: '\n' :: rest => endsLines rest
  | c :: rest => if c = '\r' then false else endsLines rest

/-- Whether a character is a blank within a line. -/
def isBlank (c : Char) : Bool :=
  c == ' ' || c == '\t'

/-- Whether a character belongs to the end of a line. -/
def isLineEnd (c : Char) : Bool :=
  c == '\n' || c == '\r'

/-- Whether a character may stand in a comment or, as itself, in a string. -/
def isPlain (c : Char) : Bool :=
  c == '\t' || (0x20 ≤ c.toNat && c.toNat != 0x7F)

/-- Whether a character is a mark. -/
def isMark (c : Char) : Bool :=
  c == '=' || c == '.' || c == ',' || c == '[' || c == ']' || c == '\x7b' || c == '\x7d'

/-- Whether a character may stand in a word. -/
def isWordLetter (c : Char) : Bool :=
  !(isBlank c || isLineEnd c || isMark c || c == '#')

/-! ## Strings

Each reader stands after the opening quotes and answers what the string holds and what follows the
closing quotes. -/

/-- Splits off a quote or two that stand next to the closing quotes and belong to the string. -/
def surplus (quote : Char) (rest : List Char) : List Char × List Char :=
  let more := (rest.take 2).takeWhile (· == quote)
  (more, rest.drop more.length)

/-- Puts a character in front of a string that was read. -/
def cons (c : Char) (read : Option (List Char × List Char)) : Option (List Char × List Char) :=
  read.map fun p => (c :: p.1, p.2)

/-- A string in which every character stands for itself. -/
def literal : List Char → Option (List Char × List Char)
  | [] => none
  | c :: rest =>
    if c = '\'' then some ([], rest)
    else if isPlain c then cons c (literal rest)
    else none

/-- The same between triple quotes, over any number of lines. -/
def literalBlock : List Char → Option (List Char × List Char)
  | [] => none
  | '\'' :: '\'' :: '\'' :: rest => some (surplus '\'' rest)
  | c :: rest => if isPlain c || isLineEnd c then cons c (literalBlock rest) else none

/-- What the characters before the next one make of it. -/
inductive Mode where
  /-- it stands for itself -/
  | plain
  /-- it follows a backslash -/
  | escape
  /-- it is one of `left` digits that are still to come of a code -/
  | code (value left : Nat)
  /-- it follows a backslash at the end of a line, and is skipped if it is a blank or ends a line -/
  | joining
  deriving DecidableEq

/-- The character that a letter after a backslash stands for. -/
def escaped? (c : Char) : Option Char :=
  if c = '"' then some '"'
  else if c = '\\' then some '\\'
  else if c = 'b' then some '\x08'
  else if c = 't' then some '\t'
  else if c = 'n' then some '\n'
  else if c = 'f' then some '\x0c'
  else if c = 'r' then some '\r'
  else if c = 'e' then some '\x1b'
  else none

/-- How many digits the code after a letter has. -/
def codeLength? (c : Char) : Option Nat :=
  if c = 'x' then some 2
  else if c = 'u' then some 4
  else if c = 'U' then some 8
  else none

/-- The character of a code. -/
def ofCode? (value : Nat) : Option Char :=
  if value.isValidChar then some (Char.ofNat value) else none

/-- A string with escapes; with `block`, between triple quotes. -/
def basic (block : Bool) : Mode → List Char → Option (List Char × List Char)
  | _, [] => none
  | mode, c :: rest =>
    if mode = .joining ∧ (isBlank c ∨ isLineEnd c) then basic block .joining rest
    else
      match mode with
      | .escape =>
        match codeLength? c, escaped? c with
        | some left, _ => basic block (.code 0 left) rest
        | none, some e => cons e (basic block .plain rest)
        | none, none =>
          if block ∧ ((c :: rest).dropWhile isBlank).head?.any isLineEnd then
            basic block .joining rest
          else none
      | .code value left =>
        match Json.hexValue? c with
        | none => none
        | some digit =>
          if left ≤ 1 then
            match ofCode? (16 * value + digit) with
            | none => none
            | some e => cons e (basic block .plain rest)
          else basic block (.code (16 * value + digit) (left - 1)) rest
      | _ =>
        if c = '\\' then basic block .escape rest
        else if c = '"' then
          if block then
            match rest with
            | '"' :: '"' :: more => some (surplus '"' more)
            | _ => cons c (basic block .plain rest)
          else some ([], rest)
        else if isPlain c || (block && isLineEnd c) then cons c (basic block .plain rest)
        else none

/-- Drops the end of a line that follows opening triple quotes. -/
def afterOpening : List Char → List Char
  | '\n' :: rest => rest
  | '\r' :: '\n' :: rest => rest
  | rest => rest

/-- The token of a string that was read. -/
def stringToken (make : String → Token) (read : Option (List Char × List Char)) :
    Option (Option Token × List Char) :=
  read.map fun p => (some (make (String.ofList p.1)), p.2)

/-! ## Tokens -/

/-- Takes the token that begins with `c`, or skips a comment or the carriage return at the end of a
line, and answers what follows. -/
def Token.next? (c : Char) (rest : List Char) : Option (Option Token × List Char) :=
  if isBlank c then some (some (.blank (c :: rest.takeWhile isBlank)), rest.dropWhile isBlank)
  else if c = '\r' then some (none, rest)
  else if c = '\n' then some (some .newline, rest)
  else if isMark c then some (some (.mark c), rest)
  else if c = '#' then
    let comment := rest.takeWhile (!isLineEnd ·)
    if comment.all isPlain then some (none, rest.drop comment.length) else none
  else if c = '"' then
    match rest with
    | '"' :: '"' :: more => stringToken .block (basic true .plain (afterOpening more))
    | _ => stringToken .text (basic false .plain rest)
  else if c = '\'' then
    match rest with
    | '\'' :: '\'' :: more => stringToken .block (literalBlock (afterOpening more))
    | _ => stringToken .text (literal rest)
  else some (some (.word (c :: rest.takeWhile isWordLetter)), rest.dropWhile isWordLetter)

/-- The tokens of at most `fuel` characters. -/
def tokensOf : (fuel : Nat) → List Char → Option (List Token)
  | _, [] => some []
  | 0, _ => none
  | fuel + 1, c :: rest =>
    match Token.next? c rest with
    | none => none
    | some (token, rest) => (tokensOf fuel rest).map (token.toList ++ ·)

/-- The mark that a text may begin with to tell its encoding. -/
def byteOrderMark : Char := '\uFEFF'

/-- The tokens of a text. -/
def tokens? (s : String) : Option (List Token) :=
  let letters := s.toList
  let letters := if letters.head? = some byteOrderMark then letters.tail else letters
  if endsLines letters then tokensOf letters.length letters else none

end TreeReduction.Toml
