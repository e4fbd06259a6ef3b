import TreeReduction.Json.Reader

set_option autoImplicit false

/-!
# Reading JSON in part

A reader that knows some members of an object passes over the others. What is passed over is looked
at for its form only: it may hold literals that stand for nothing, and its containers may nest at
any depth. `Json.parsePart?` reads a text in this way on its outermost level.
-/

namespace TreeReduction.Json

/-! ## Form -/

/-- What may come next inside a value that is passed over. Its open containers are kept innermost
first; an object is `true`. -/
inductive Form where
  /-- a value -/
  | value (outer : List Bool)
  /-- the first item of an array, or its end -/
  | firstItem (outer : List Bool)
  /-- the first name in an object, or its end -/
  | firstName (outer : List Bool)
  /-- a name, after a comma -/
  | nextName (outer : List Bool)
  /-- the colon after a name -/
  | colon (outer : List Bool)
  /-- a comma or the end of the innermost container; nothing more if there is none -/
  | more (outer : List Bool)

namespace Form

/-- Takes a token where a value must stand. -/
def startValue (outer : List Bool) : Token → Option Form
  | .openArray => some (.firstItem (false :: outer))
  | .openObject => some (.firstName (true :: outer))
  | .closeArray => none
  | .closeObject => none
  | .comma => none
  | .colon => none
  | _ => some (.more outer)

/-- Takes a token where a name must stand. -/
def startName (outer : List Bool) : Token → Option Form
  | .str _ => some (.colon outer)
  | .void => some (.colon outer)
  | _ => none

/-- Takes one token. Answers nothing where it may not stand. -/
def step : Form → Token → Option Form
  | .value outer, token => startValue outer token
  | .firstItem (_ :: outer), .closeArray => some (.more outer)
  | .firstItem outer, token => startValue outer token
  | .firstName (_ :: outer), .closeObject => some (.more outer)
  | .firstName outer, token => startName outer token
  | .nextName outer, token => startName outer token
  | .colon outer, .colon => some (.value outer)
  | .more (false :: outer), .comma => some (.value (false :: outer))
  | .more (false :: outer), .closeArray => some (.more outer)
  | .more (true :: outer), .comma => some (.nextName (true :: outer))
  | .more (true :: outer), .closeObject => some (.more outer)
  | _, _ => none

end Form

/-! ## Parts of an object -/

/-- What may come next in an object of which some members are passed over. The members that were
kept so far stand last first. -/
inductive Part where
  /-- the first name, or the end of the object -/
  | firstName
  /-- a name, after a comma -/
  | nextName (done : List (String × Json))
  /-- the colon after a name -/
  | colon (done : List (String × Json)) (name : String)
  /-- the rest of a value that is kept -/
  | kept (done : List (String × Json)) (name : String) (value : Builder)
  /-- the rest of a value that is passed over -/
  | passed (done : List (String × Json)) (value : Form)
  /-- a comma or the end -/
  | more (done : List (String × Json))
  /-- nothing more -/
  | finished (members : List (String × Json))

namespace Part

/-- Takes one token. Answers nothing where it may not stand. -/
def step (known : String → Bool) : Part → Token → Option Part
  | .firstName, .closeObject => some (.finished [])
  | .firstName, .str name => some (.colon [] name)
  | .nextName done, .str name => some (.colon done name)
  | .colon done name, .colon =>
    some (if known name then .kept done name (.value []) else .passed done (.value []))
  | .kept done name value, token => do
    let value ← value.step token
    match value.result? with
    | some json => some (.more ((name, json) :: done))
    | none => some (.kept done name value)
  | .passed done value, token => do
    match ← value.step token with
    | .more [] => some (.more done)
    | value => some (.passed done value)
  | .more done, .comma => some (.nextName done)
  | .more done, .closeObject => some (.finished done.reverse)
  | _, _ => none

/-- The object, once it is complete. -/
def result? : Part → Option Json
  | .finished members => some (.object members)
  | _ => none

end Part

/-- Takes one character; the tokens so far stand last first. -/
def collect (state : Scanner × List Token) (c : Char) : Option (Scanner × List Token) := do
  let (scanner, tokens) ← state.1.step c
  some (scanner, tokens.reverse ++ state.2)

/-- The tokens of a text. -/
def tokens? (text : String) : Option (List Token) := do
  let (scanner, tokens) ← text.toList.foldlM collect (.between, [])
  let last ← scanner.finish
  some (tokens.reverse ++ last)

/-- The document that a text spells. Of an object those members alone are read whose names are
known. -/
def parsePart? (known : String → Bool) (text : String) : Option Json := do
  match ← tokens? text with
  | .openObject :: rest => (← rest.foldlM (Part.step known) .firstName).result?
  | tokens => (← (Builder.value []).steps tokens).result?

end TreeReduction.Json
