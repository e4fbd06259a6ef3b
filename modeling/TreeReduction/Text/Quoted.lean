import TreeReduction.Text.Printable

set_option autoImplicit false

/-!
# Quoted texts

How a message shows a text that may hold anything: between double quotes, with the quote, the
backslash and the common controls escaped by a letter, other characters that cannot be shown written
by their code point, and all else as it is.
-/

namespace TreeReduction.Text

/-- The code point of a character in braces, in hexadecimal without padding. -/
def codePoint (c : Char) : List Char :=
  '\\' :: 'u' :: '\x7b' :: (Nat.toDigits 16 c.toNat ++ ['\x7d'])

/-- One character of a quoted text. -/
def quotedChar (c : Char) : List Char :=
  if c = '"' then ['\\', '"']
  else if c = '\\' then ['\\', '\\']
  else if c = '\n' then ['\\', 'n']
  else if c = '\r' then ['\\', 'r']
  else if c = '\t' then ['\\', 't']
  else if c = '\x00' then ['\\', '0']
  else if isPrintable c then [c]
  else codePoint c

/-- A text between double quotes, every character of it visible. -/
def quoted (s : String) : String :=
  String.ofList ('"' :: (s.toList.flatMap quotedChar ++ ['"']))

/-- A text between double quotes in which the single quote is escaped too. -/
def quotedBoth (s : String) : String :=
  String.ofList ('"' :: (s.toList.flatMap (fun c => if c = '\'' then ['\\', '\''] else quotedChar c)
    ++ ['"']))

/-- Quoted texts in brackets, separated by commas. -/
def quotedList (items : List String) : String :=
  "[" ++ ", ".intercalate (items.map quoted) ++ "]"

end TreeReduction.Text
