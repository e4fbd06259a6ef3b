import TreeReduction.Json

set_option autoImplicit false

/-!
# Writing JSON

`Json.compact` writes a document without blanks, `Json.pretty` with one item or member a line
and two blanks for each level. Both append to a text that they are given, so a document is written
in one pass. In a string literal the quote, the backslash and the controls below U+0020 are
escaped, five of them by a letter; all else stands as it is.
-/

namespace TreeReduction.Json

/-- How a character of a string literal is escaped, if it has to be. -/
def escape? (c : Char) : Option String :=
  if c = '"' then some "\\\""
  else if c = '\\' then some "\\\\"
  else if c = '\n' then some "\\n"
  else if c = '\r' then some "\\r"
  else if c = '\t' then some "\\t"
  else if c = '\x08' then some "\\b"
  else if c = '\x0c' then some "\\f"
  else if c.toNat < 0x10 then some ("\\u000" ++ String.ofList (Nat.toDigits 16 c.toNat))
  else if c.toNat < 0x20 then some ("\\u00" ++ String.ofList (Nat.toDigits 16 c.toNat))
  else none

/-- Appends a character of a string literal. -/
def writeChar (out : String) (c : Char) : String :=
  match escape? c with
  | some text => out ++ text
  | none => out.push c

/-- Appends a string literal. -/
def writeString (out : String) (s : String) : String :=
  (s.toList.foldl writeChar (out.push '"')).push '"'

/-- A string literal alone. -/
def literal (s : String) : String :=
  writeString "" s

mutual

/-- Appends a document without blanks. -/
def write (out : String) : Json → String
  | .null => out ++ "null"
  | .bool b => out ++ (if b then "true" else "false")
  | .number n => out ++ n.text
  | .str s => writeString out s
  | .array items => (writeItems (out.push '[') true items).push ']'
  | .object members => (writeMembers (out.push '\x7b') true members).push '\x7d'

/-- Appends the items of an array, a comma before all but the first. -/
def writeItems (out : String) (first : Bool) : List Json → String
  | [] => out
  | item :: rest => writeItems (write (if first then out else out.push ',') item) false rest

/-- Appends the members of an object, a comma before all but the first. -/
def writeMembers (out : String) (first : Bool) : List (String × Json) → String
  | [] => out
  | (name, value) :: rest =>
    writeMembers
      (write ((writeString (if first then out else out.push ',') name).push ':') value) false rest

end

/-- A document without blanks. -/
def compact (json : Json) : String :=
  write "" json

/-- Starts a line at the given level. -/
def newLine (out : String) (level : Nat) : String :=
  level.repeat (fun out => out ++ "  ") (out.push '\n')

mutual

/-- Appends a document whose containers spread over lines, its first line at `level`. -/
def writePretty (out : String) (level : Nat) : Json → String
  | .null => out ++ "null"
  | .bool b => out ++ (if b then "true" else "false")
  | .number n => out ++ n.text
  | .str s => writeString out s
  | .array [] => out ++ "[]"
  | .array items =>
    (newLine (writePrettyItems (out.push '[') (level + 1) true items) level).push ']'
  | .object [] => out ++ "\x7b\x7d"
  | .object members =>
    (newLine (writePrettyMembers (out.push '\x7b') (level + 1) true members) level).push '\x7d'

/-- Appends items, each on a line of its own. -/
def writePrettyItems (out : String) (level : Nat) (first : Bool) : List Json → String
  | [] => out
  | item :: rest =>
    writePrettyItems (writePretty (newLine (if first then out else out.push ',') level) level item)
      level false rest

/-- Appends members, each on a line of its own. -/
def writePrettyMembers (out : String) (level : Nat) (first : Bool) : List (String × Json) → String
  | [] => out
  | (name, value) :: rest =>
    writePrettyMembers
      (writePretty
        (writeString (newLine (if first then out else out.push ',') level) name ++ ": ")
        level value)
      level false rest

end

/-- A document spread over lines. -/
def pretty (json : Json) : String :=
  writePretty "" 0 json

end TreeReduction.Json
