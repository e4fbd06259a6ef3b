set_option autoImplicit false

/-!
# Files

What a command sees of the files around it: which places are files and which are directories, what
the files hold, and the directory it works in. A path is a text and names a place by way of others;
`Files.resolve` follows it and finds the place or tells why there is none. `Files.put` changes one
place and no other.
-/

namespace TreeReduction

/-- A place: the names that lead to it from the root. -/
structure Location where
  names : List String
  deriving DecidableEq

namespace Location

/-- A place as an absolute path. -/
def text (l : Location) : String :=
  "/" ++ "/".intercalate l.names

/-- The place of a name in a directory. -/
def child (l : Location) (name : String) : Location :=
  ⟨l.names ++ [name]⟩

/-- The directory that a place is in; the root is in itself. -/
def parent (l : Location) : Location :=
  ⟨l.names.dropLast⟩

/-- Whether a place lies in a directory, at any depth, or is that directory. -/
def isWithin (l directory : Location) : Bool :=
  directory.names.isPrefixOf l.names

end Location

/-- What stands at a place. -/
inductive FileNode where
  | file (content : ByteArray)
  | directory

/-- Why a place could not be found, read or written. -/
inductive AccessFault where
  | notFound
  | notDirectory
  | isDirectory
  | nameTooLong
  /-- a name has a NUL in it -/
  | brokenName
  /-- the bytes of the file are not the encoding of a text -/
  | notText
  deriving DecidableEq

/-- The wording of an access fault. -/
def AccessFault.message : AccessFault → String
  | .notFound => "No such file or directory (os error 2)"
  | .notDirectory => "Not a directory (os error 20)"
  | .isDirectory => "Is a directory (os error 21)"
  | .nameTooLong => "File name too long (os error 36)"
  | .brokenName => "file name contained an unexpected NUL byte"
  | .notText => "stream did not contain valid UTF-8"

/-- The files around a command. -/
structure Files where
  /-- the directory that paths start in, unless they start at the root -/
  here : Location
  /-- what stands at a place, if anything does -/
  node? : Location → Option FileNode

namespace Files

/-- Files that are listed. Whatever lies above one of them or above the directory of work is a
directory, and so is the directory of work. -/
def ofList (here : Location) (listed : List (Location × FileNode)) : Files where
  here
  node? l :=
    match listed.find? (·.1 = l) with
    | some p => some p.2
    | none =>
      if here.isWithin l || listed.any (·.1.isWithin l) then some .directory else none

/-- Puts a file in a place. -/
def put (f : Files) (l : Location) (content : ByteArray) : Files :=
  { f with node? := fun m => if m = l then some (.file content) else f.node? m }

@[simp]
theorem node?_put_self (f : Files) (l : Location) (content : ByteArray) :
    (f.put l content).node? l = some (.file content) := by
  simp [put]

theorem node?_put_of_ne (f : Files) {l m : Location} (content : ByteArray) (h : m ≠ l) :
    (f.put l content).node? m = f.node? m := by
  simp [put, h]

/-! ## Paths -/

/-- The pieces of a path between its slashes. -/
def piecesOf : List Char → List (List Char)
  | [] => [[]]
  | c :: rest =>
    if c = '/' then [] :: piecesOf rest
    else
      match piecesOf rest with
      | [] => [[c]]
      | piece :: pieces => (c :: piece) :: pieces

/-- The pieces of a path as texts. -/
def pieces (path : String) : List String :=
  (piecesOf path.toList).map String.ofList

/-- How many bytes a name may have. -/
def maxNameBytes : Nat := 255

/-- Whether a text has a NUL in it, which no name has. -/
def hasNul (text : String) : Bool :=
  text.toList.contains '\x00'

/-- Follows one piece of a path. An empty piece stays where it is, as a point does; any piece needs
a directory to start from. -/
def enter (f : Files) (l : Location) (piece : String) : Except AccessFault Location :=
  match f.node? l with
  | some .directory =>
    if piece = "" ∨ piece = "." then .ok l
    else if piece = ".." then .ok l.parent
    else if maxNameBytes < piece.utf8ByteSize then .error .nameTooLong
    else if (f.node? (l.child piece)).isSome then .ok (l.child piece)
    else .error .notFound
  | _ => .error .notDirectory

/-- The places that pieces lead past from a place, whatever stands there. -/
def passed : Location → List String → List Location
  | l, [] => [l]
  | l, piece :: rest =>
    let next :=
      if piece = "" ∨ piece = "." then l
      else if piece = ".." then l.parent
      else l.child piece
    l :: passed next rest

/-- Follows pieces from a place. -/
def follow (f : Files) : Location → List String → Except AccessFault Location
  | l, [] => .ok l
  | l, piece :: rest =>
    match f.enter l piece with
    | .error e => .error e
    | .ok next => follow f next rest

/-- Where a path starts, seen from a directory. -/
def start (here : Location) (path : String) : Location :=
  if path.toList.head? = some '/' then ⟨[]⟩ else here

/-- The place that a path leads to. -/
def resolve (f : Files) (path : String) : Except AccessFault Location :=
  if hasNul path then .error .brokenName
  else if path = "" then .error .notFound
  else f.follow (start f.here path) (pieces path)

/-! ## Reading and writing -/

/-- What the file at a place holds. -/
def content (f : Files) (l : Location) : Except AccessFault ByteArray :=
  match f.node? l with
  | some (.file content) => .ok content
  | some .directory => .error .isDirectory
  | none => .error .notFound

/-- The text that bytes encode. -/
def decode (content : ByteArray) : Except AccessFault String :=
  match String.fromUTF8? content with
  | some text => .ok text
  | none => .error .notText

/-- The text in the file that a path leads to. -/
def readPath (f : Files) (path : String) : Except AccessFault String :=
  match f.resolve path with
  | .error e => .error e
  | .ok l =>
    match f.content l with
    | .error e => .error e
    | .ok content => decode content

/-- Checks that a file of the given name may be put in a directory. -/
def checkWritable (f : Files) (directory : Location) (name : String) : Except AccessFault Unit :=
  if hasNul name then .error .brokenName
  else if maxNameBytes < name.utf8ByteSize then .error .nameTooLong
  else
    match f.node? (directory.child name) with
    | some .directory => .error .isDirectory
    | _ => .ok ()

/-! ## Paths of files to write -/

/-- Drops empty pieces and points from the end of a path, all but its first piece. -/
def trimEnd : List String → List String
  | [] => []
  | first :: rest =>
    first :: (rest.reverse.dropWhile fun piece => piece = "" ∨ piece = ".").reverse

/-- The name at the end of a path, if it ends in one. -/
def fileName? (path : String) : Option String :=
  match (trimEnd (pieces path)).getLast? with
  | none => none
  | some name => if name = "" ∨ name = "." ∨ name = ".." then none else some name

/-- The path of the directory that the file at the end of a path is in. -/
def directoryPath (path : String) : String :=
  match trimEnd (trimEnd (pieces path)).dropLast with
  | [] => "."
  | [""] => "/"
  | pieces => "/".intercalate pieces

end Files

end TreeReduction
