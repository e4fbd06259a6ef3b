set_option autoImplicit false

/-!
# TOML documents

What a TOML text says, as it says it: the assignments before the first header and, for each header,
those below it, in order. A key is a path of names, and whether two assignments outside inline
tables may stand together is left to whoever reads the document. Floating-point numbers and moments
are let through without what they are, and arrays of tables are left out, since no setting is one.
-/

namespace TreeReduction

/-- A TOML value. -/
inductive Toml where
  | text (s : String)
  | integer (n : Int)
  | boolean (b : Bool)
  /-- a floating-point number, a date, a time or a numeral that spells no number -/
  | foreign
  | array (items : List Toml)
  /-- an inline table -/
  | table (assignments : List (List String × Toml))

namespace Toml

/-- A dotted key. -/
abbrev Key : Type := List String

/-- Keys with their values, in order. -/
abbrev Assignments : Type := List (Key × Toml)

/-- A line of a document that says something. -/
inductive Statement where
  | header (key : Key)
  | assign (key : Key) (value : Toml)

/-- A document. -/
structure Document where
  /-- what stands before the first header -/
  root : Assignments := []
  /-- what stands below each header -/
  tables : List (Key × Assignments) := []

namespace Document

/-- Puts a statement in front of a document. A header takes the assignments up to the next header.
-/
def prepend (s : Statement) (d : Document) : Document :=
  match s with
  | .header key => ⟨[], (key, d.root) :: d.tables⟩
  | .assign key value => { d with root := (key, value) :: d.root }

/-- The document of statements in order. -/
def ofStatements (statements : List Statement) : Document :=
  statements.foldr prepend {}

end Document

end Toml

end TreeReduction
