import Hypertree.Text

/-!
# Files and what commands do to them

A command reads what it needs and then changes files in a fixed sequence of effects: a file is made
or emptied, written, or put in place of another. `Effect.apply?` says what one effect does to the
files of a directory tree, or that it fails. A command that is cut off has carried out a prefix of
its effects.

A path is followed name by name from the top directory, so each name before the last must lead to a
directory that is there, and the last must be one that a file can have.
-/

namespace Hypertree.Command

/-- The files of a directory tree: their places and contents. A place is the list of names that
leads to a file from the top directory; `..` at its front leads above that. -/
structure Files where
  entries : List (List String × Bytes)
  deriving DecidableEq, Repr

/-- One change of the files. -/
inductive Effect where
  /-- Makes an empty file, or empties the one there. -/
  | create (path : String)
  /-- Writes the content of an empty file. -/
  | write (path : String) (content : Bytes)
  /-- Puts a file in place of another. -/
  | rename (source target : String)
  deriving DecidableEq, Repr

namespace Files

/-- The most bytes in a path. -/
def maxPathSize : Nat := 4095

/-- The most bytes in a name. -/
def maxNameSize : Nat := 255

/-- The files below the top directory. -/
def inside (files : Files) : Files :=
  ⟨files.entries.filter fun e => e.1.head? != some ".."⟩

/-- Whether there is a directory at a place. The top directory and those above it are there, any
other if it holds a file. -/
def isDirectory (files : Files) (place : List String) : Bool :=
  place.all (· == "..") ||
    files.entries.any fun e => place.isPrefixOf e.1 && place.length < e.1.length

/-- Where a name leads from a directory. -/
def follow (directory : List String) (name : String) : List String :=
  if name = "" || name = "." then directory
  else if name = ".." then
    match directory.getLast? with
    | none | some ".." => directory ++ [".."]
    | some _ => directory.dropLast
  else directory ++ [name]

/-- Whether a file can have a name. -/
def isFileName (name : String) : Bool :=
  name != "" && name != "." && name != ".." && name.utf8ByteSize ≤ maxNameSize

/-- The place of a file that names lead to from a directory. -/
def walk? (files : Files) : (directory names : List String) → Option (List String)
  | _, [] => none
  | directory, [name] =>
    let place := directory ++ [name]
    if isFileName name && !files.isDirectory place then some place else none
  | directory, name :: rest =>
    let next := follow directory name
    if files.isDirectory next then files.walk? next rest else none

/-- The place at which a path finds or makes a file. -/
def place? (files : Files) (path : String) : Option (List String) :=
  if path.toList.head? = some '/' || maxPathSize < path.utf8ByteSize then none
  else files.walk? [] ((Text.splitOn '/' path.toList).map String.ofList)

/-- The content of a file. -/
def read? (files : Files) (path : String) : Option Bytes :=
  (files.place? path).bind fun place => files.entries.lookup place

/-- The files with one added, or replaced. -/
def put (files : Files) (place : List String) (content : Bytes) : Files :=
  ⟨files.entries.filter (fun e => e.1 != place) ++ [(place, content)]⟩

/-- The files without one. -/
def remove (files : Files) (place : List String) : Files :=
  ⟨files.entries.filter fun e => e.1 != place⟩

end Files

/-- The files after an effect; `none` if it fails. -/
def Effect.apply? (files : Files) : Effect → Option Files
  | create path => (files.place? path).map (files.put · [])
  | write path content => (files.place? path).map (files.put · content)
  | rename source target =>
    match files.place? source, files.place? target, files.read? source with
    | some source, some target, some content => some ((files.remove source).put target content)
    | _, _, _ => none

end Hypertree.Command
