import IonSchedule.Catalog

/-! # Files

The command line reads and writes text files through a record of three operations, so that it can be run over
the files of a machine or over a value. `FileTree` is such a value: the texts of the files below a working
directory, filed under their paths. A directory is there as long as some file is inside it.
-/
namespace IonSchedule

inductive FileError where
  | notFound
  | notDirectory
  | isDirectory
  | nameTooLong
  | zeroInPath
  /-- Any other failure, in the words of the machine. -/
  | other (text : String)
deriving DecidableEq

def FileError.message : FileError → String
  | .notFound => "No such file or directory (os error 2)"
  | .notDirectory => "Not a directory (os error 20)"
  | .isDirectory => "Is a directory (os error 21)"
  | .nameTooLong => "File name too long (os error 36)"
  | .zeroInPath => "file name contained an unexpected NUL byte"
  | .other text => text

structure Files (m : Type → Type) where
  /-- Whether a path leads to a file or a directory. -/
  isPresent : String → m Bool
  read : String → m (Except FileError String)
  write : String → String → m (Except FileError Unit)

/-- The parts of a text around a separator. -/
def partsAround (separator : Char) (text : String) : List String :=
  (text.toList.splitOn separator).map String.ofList

/-- The components of a path. Empty ones come from repeated or trailing separators. -/
def pathComponents (path : String) : List String := partsAround '/' path

/-- The part of a file name after its last dot, if a dot stands past its start. -/
def extension? (path : String) : Option String :=
  match (partsAround '.' ((pathComponents path).getLast?.getD "")).reverse with
  | last :: before => if before.all (· = "") && before.length ≤ 1 then none else some last
  | [] => none

/-- Texts of files, filed under their paths from the working directory. -/
abbrev FileTree := Table String

namespace FileTree

/-! ## Places

A place is the list of the names on the way to it. The way starts in the working directory, unless its first
name is empty: then it starts at the root. Names `..` in front lead out of the working directory. Outside of it
there are the directories around it and the root, and no files but those that are written there. -/

/-- Whether a name leads out of the working directory. -/
def leadsOut (name : String) : Bool := name = ".." || name = ""

def join (place : List String) : String := String.intercalate "/" place

/-- The place around a place. There is nothing around the root. -/
def parent (place : List String) : List String :=
  match place.getLast? with
  | none => [".."]
  | some name => if name = "" then place else if name = ".." then place ++ [".."] else place.dropLast

def text? (tree : FileTree) (place : List String) : Option String := tree.get? (join place)

/-- The working directory and those around it are always there; another directory is one that a file is inside
of. -/
def isDirectory (tree : FileTree) (place : List String) : Bool :=
  place.all leadsOut || tree.items.any fun entry =>
    let file := pathComponents entry.1
    place.length < file.length && place.isPrefixOf file

def maxName : Nat := 255

def maxPath : Nat := 4095

/-- Goes through the components of a path. Every place that is gone through must be a directory. -/
def walk (tree : FileTree) (place : List String) : List String → Except FileError (List String)
  | [] => .ok place
  | component :: rest =>
    if tree.isDirectory place then
      if component = "" || component = "." then walk tree place rest
      else if component = ".." then walk tree (parent place) rest
      else if maxName < component.utf8ByteSize then .error .nameTooLong
      else walk tree (place ++ [component]) rest
    else .error (if (tree.text? place).isSome then .notDirectory else .notFound)

def walkFromStart (tree : FileTree) (components : List String) : Except FileError (List String) :=
  tree.walk (if components.head? = some "" then [""] else []) components

/-- Refuses what is no path. -/
def checkPath (path : String) : Except FileError Unit :=
  if path.toList.contains '\x00' then .error .zeroInPath
  else if path = "" then .error .notFound
  else if maxPath < path.utf8ByteSize then .error .nameTooLong
  else .ok ()

def locate (tree : FileTree) (path : String) : Except FileError (List String) := do
  checkPath path
  tree.walkFromStart (pathComponents path)

def isPresent (tree : FileTree) (path : String) : Bool :=
  match tree.locate path with
  | .ok place => tree.isDirectory place || (tree.text? place).isSome
  | .error _ => false

def read (tree : FileTree) (path : String) : Except FileError String := do
  let place ← tree.locate path
  if tree.isDirectory place then throw .isDirectory
  match tree.text? place with
  | some text => return text
  | none => throw .notFound

/-- Writes a file, in a directory that is already there. A path that ends in a separator asks for a directory. -/
def write (tree : FileTree) (path : String) (text : String) : Except FileError FileTree := do
  checkPath path
  if path.toList.getLast? = some '/' then
    let named := ((pathComponents path).reverse.dropWhile (· = "")).reverse
    let _ ← tree.walkFromStart (named.dropLast ++ [""])
    throw .isDirectory
  let place ← tree.walkFromStart (pathComponents path)
  if tree.isDirectory place then throw .isDirectory
  return tree.insert (join place) text

/-- The files below the working directory that are new or have another text than before. -/
def changes (before after : FileTree) : List (String × String) :=
  after.items.filter fun entry =>
    !(pathComponents entry.1).head?.any leadsOut && before.get? entry.1 != some entry.2

def files : Files (StateM FileTree) where
  isPresent path := return (← get).isPresent path
  read path := return (← get).read path
  write path text := do
    match (← get).write path text with
    | .ok tree => set tree; return .ok ()
    | .error e => return .error e

end FileTree

end IonSchedule
