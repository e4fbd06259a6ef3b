import TreeReduction.Json.Token

set_option autoImplicit false

/-!
# Reading JSON

Tokens are put together one at a time by a `Builder`, which knows what may come next and keeps the
containers that are still open, innermost first. `Json.parse?` feeds it a whole text. A container
may lie inside at most 126 others.
-/

namespace TreeReduction.Json

/-- How deep containers may nest. -/
def maxNesting : Nat := 127

/-- An open container that waits for the value of an item or member; what it holds so far stands
last first. -/
inductive Frame where
  | array (done : List Json)
  | object (done : List (String × Json)) (name : String)

/-- What may come next. -/
inductive Builder where
  /-- a value -/
  | value (outer : List Frame)
  /-- the first item of an array, or its end -/
  | firstItem (outer : List Frame)
  /-- a comma or the end, in an array -/
  | moreItems (done : List Json) (outer : List Frame)
  /-- the first name in an object, or its end -/
  | firstName (outer : List Frame)
  /-- a name, after a comma -/
  | nextName (done : List (String × Json)) (outer : List Frame)
  /-- the colon after a name -/
  | colon (done : List (String × Json)) (name : String) (outer : List Frame)
  /-- a comma or the end, in an object -/
  | moreMembers (done : List (String × Json)) (outer : List Frame)
  /-- nothing more -/
  | finished (json : Json)

namespace Builder

/-- Hands a complete value to the innermost open container. -/
def deliver (json : Json) : List Frame → Builder
  | [] => .finished json
  | .array done :: rest => .moreItems (json :: done) rest
  | .object done name :: rest => .moreMembers ((name, json) :: done) rest

/-- Takes a token where a value must stand. -/
def startValue (outer : List Frame) : Token → Option Builder
  | .null => some (deliver .null outer)
  | .bool b => some (deliver (.bool b) outer)
  | .number n => some (deliver (.number n) outer)
  | .str s => some (deliver (.str s) outer)
  | .openArray => if outer.length < maxNesting then some (.firstItem outer) else none
  | .openObject => if outer.length < maxNesting then some (.firstName outer) else none
  | _ => none

/-- Takes one token. Answers nothing where it may not stand. -/
def step : Builder → Token → Option Builder
  | .value outer, token => startValue outer token
  | .firstItem outer, .closeArray => some (deliver (.array []) outer)
  | .firstItem outer, token => startValue (.array [] :: outer) token
  | .moreItems done outer, .comma => some (.value (.array done :: outer))
  | .moreItems done outer, .closeArray => some (deliver (.array done.reverse) outer)
  | .firstName outer, .closeObject => some (deliver (.object []) outer)
  | .firstName outer, .str name => some (.colon [] name outer)
  | .nextName done outer, .str name => some (.colon done name outer)
  | .colon done name outer, .colon => some (.value (.object done name :: outer))
  | .moreMembers done outer, .comma => some (.nextName done outer)
  | .moreMembers done outer, .closeObject => some (deliver (.object done.reverse) outer)
  | _, _ => none

/-- Takes several tokens. -/
def steps (builder : Builder) (tokens : List Token) : Option Builder :=
  tokens.foldlM step builder

/-- The document, once it is complete. -/
def result? : Builder → Option Json
  | .finished json => some json
  | _ => none

end Builder

/-- Takes one character of a text. -/
def feed (state : Scanner × Builder) (c : Char) : Option (Scanner × Builder) := do
  let (scanner, tokens) ← state.1.step c
  let builder ← state.2.steps tokens
  some (scanner, builder)

/-- The document that a text spells, if the text is one JSON value among blanks. -/
def parse? (text : String) : Option Json := do
  let (scanner, builder) ← text.toList.foldlM feed (.between, .value [])
  let tokens ← scanner.finish
  let builder ← builder.steps tokens
  builder.result?

end TreeReduction.Json
