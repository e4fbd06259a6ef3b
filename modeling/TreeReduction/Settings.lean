import TreeReduction.Seed.Loader
import TreeReduction.Toml.Reader

set_option autoImplicit false

/-!
# Settings

What a user may set in a file: the limits, the budget of steps and what is asked of seeds. The file
is a TOML document of three sections. A section may be left out, and so may each of its settings;
one that is unknown or of the wrong type makes the whole file invalid.

A section is written in one of three ways: below a header of its name, as dotted keys, or as one
inline value. It may be written only once.
-/

namespace TreeReduction

/-- What a user may set. -/
structure Settings where
  limits : Limits := {}
  /-- the budget of a run that names none -/
  maxSteps : Nat := 1000
  /-- ids that every seed has to hold -/
  requiredIds : List String := []
  /-- the checksum that every seed has to have -/
  pinned : Option String := none
  deriving DecidableEq

/-- Puts a value in the place of one setting, if it has the right type. -/
structure Setting where
  name : String
  put : Toml → Settings → Option Settings

/-- Settings under a common name. -/
structure Section where
  name : String
  settings : List Setting

namespace Setting

/-- A setting whose values are read by `read`. -/
def of {α : Type} (name : String) (read : Toml → Option α) (put : α → Settings → Settings) :
    Setting :=
  ⟨name, fun value s => (read value).map (put · s)⟩

/-- A count that fits an unsigned word of 64 bits. -/
def count? : Toml → Option Nat
  | .integer n => if 0 ≤ n ∧ n < 0x10000000000000000 then some n.toNat else none
  | _ => none

/-- A truth value. -/
def switch? : Toml → Option Bool
  | .boolean b => some b
  | _ => none

/-- A text. -/
def text? : Toml → Option String
  | .text s => some s
  | _ => none

/-- A list of texts. -/
def texts? : Toml → Option (List String)
  | .array items => items.mapM text?
  | _ => none

end Setting

namespace Section

/-- The limits of values. -/
def limits : Section where
  name := "limits"
  settings := [
    .of "max_depth" Setting.count? fun n s => { s with limits.maxDepth := n },
    .of "max_width" Setting.count? fun n s => { s with limits.maxWidth := n },
    .of "allow_floats" Setting.switch? fun b s => { s with limits.allowFloats := b }]

/-- What concerns runs. -/
def run : Section where
  name := "run"
  settings := [.of "max_steps" Setting.count? fun n s => { s with maxSteps := n }]

/-- What is asked of seeds. -/
def seed : Section where
  name := "seed"
  settings := [
    .of "required_ids" Setting.texts? fun ids s => { s with requiredIds := ids },
    .of "pinned_checksum" Setting.text? fun text s => { s with pinned := some text }]

/-- All sections. -/
def all : List Section := [limits, run, seed]

/-! ## Filling a section -/

/-- What is written of a section: values under their names, or values in the order of the
settings. -/
inductive Block where
  | named (assignments : Toml.Assignments)
  | listed (items : List Toml)

/-- Puts values in place by name. -/
def putNamed (settings : List Setting) : Toml.Assignments → Settings → Option Settings
  | [], s => some s
  | ([name], value) :: rest, s =>
    match settings.find? (·.name = name) with
    | none => none
    | some setting =>
      match setting.put value s with
      | none => none
      | some s => putNamed settings rest s
  | _, _ => none

/-- Puts values in place by position; those beyond the last setting mean nothing. -/
def putListed : List Setting → List Toml → Settings → Option Settings
  | setting :: settings, value :: rest, s =>
    match setting.put value s with
    | none => none
    | some s => putListed settings rest s
  | _, _, s => some s

/-- Puts the values of a block in place, unless a name stands there twice. -/
def putBlock (settings : List Setting) (s : Settings) : Block → Option Settings
  | .named assignments =>
    if (assignments.map (·.1)).Nodup then putNamed settings assignments s else none
  | .listed items => putListed settings items s

/-- The dotted keys of a section in a document, without its name. -/
def dotted (d : Toml.Document) (name : String) : Toml.Assignments :=
  d.root.filterMap fun
    | ([first, key], value) => if first = name then some ([key], value) else none
    | _ => none

/-- The blocks that a document holds for a section. -/
def blocks (d : Toml.Document) (name : String) : List Block :=
  let inline := d.root.filterMap fun
    | ([key], .table assignments) => if key = name then some (.named assignments) else none
    | ([key], .array items) => if key = name then some (.listed items) else none
    | _ => none
  let below := d.tables.filterMap fun
    | ([key], assignments) => if key = name then some (.named assignments) else none
    | _ => none
  match dotted d name with
  | [] => inline ++ below
  | assignments => .named assignments :: (inline ++ below)

/-- Reads a section of a document, which may hold one block for it at most. -/
def read (d : Toml.Document) (s : Settings) (part : Section) : Option Settings :=
  match blocks d part.name with
  | [] => some s
  | [block] => putBlock part.settings s block
  | _ => none

/-- Whether a name is that of a section. -/
def known (name : String) : Bool :=
  all.any (·.name = name)

/-- Whether an assignment before the first header belongs to a section and may be one of its blocks
or a part of one. -/
def belongs : Toml.Key × Toml → Bool
  | ([name], .table _) => known name
  | ([name], .array _) => known name
  | ([name, _], _) => known name
  | _ => false

end Section

namespace Settings

/-- The settings of a document. -/
def ofDocument? (d : Toml.Document) : Option Settings :=
  if d.root.all Section.belongs ∧
      d.tables.all (fun t => t.1.length = 1 ∧ t.1.all Section.known) then
    Section.all.foldlM (Section.read d) {}
  else none

/-- The settings of a file. -/
def parse? (text : String) : Option Settings :=
  (Toml.parse? text).bind ofDocument?

/-- The loader of seeds under these settings. -/
def loader (s : Settings) : Seed.Loader :=
  { limits := s.limits, requiredIds := s.requiredIds, pinned := s.pinned }

end Settings

end TreeReduction
