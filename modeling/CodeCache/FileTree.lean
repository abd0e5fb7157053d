import CodeCache.Bytes.Basic
import CodeCache.Text.Split

/-!
# Trees of files

Caches are read from files and written to files. A file tree is what a process sees of the file
system: the files and directories below its working directory, and whatever else it has looked up.
Paths are texts with slashes; a path leads to a place only through directories. Neither a path nor
a name in it is longer than a file system takes, and neither holds the character zero.
-/

namespace CodeCache

inductive FileNode where
  | directory
  | file (bytes : Bytes)
  deriving DecidableEq, Repr

/-- The names that lead from the working directory to a place. The first name of a place outside of
it is two dots, or a slash for the root. -/
abbrev Place := List String

structure FileTree where
  nodes : List (Place × FileNode) := []
  deriving Repr

namespace FileTree

def isGiven (place : Place) : Bool :=
  place.all (· == "..") || place == ["/"]

/-- What stands at a place. Directories that are given are always there. -/
def node? (t : FileTree) (place : Place) : Option FileNode :=
  if isGiven place then some .directory else t.nodes.lookup place

def isDirectoryAt (t : FileTree) (place : Place) : Bool :=
  t.node? place == some .directory

def setNode (t : FileTree) (place : Place) (node : FileNode) : FileTree :=
  ⟨(place, node) :: t.nodes.filter (·.1 != place)⟩

/-! ## Paths -/

def maxNameSize : Nat := 255

def maxPathSize : Nat := 4095

def isPath (path : String) : Bool :=
  path.utf8ByteSize ≤ maxPathSize && !path.toList.contains '\x00'

def above (place : Place) : Place :=
  if place.all (· == "..") then place ++ [".."]
  else if place = ["/"] then place
  else place.dropLast

def step (place : Place) (part : String) : Place :=
  if part = "" ∨ part = "." then place
  else if part = ".." then above place
  else place ++ [part]

def follow (t : FileTree) : Place → List String → Option Place
  | place, [] => some place
  | place, part :: parts =>
    if t.isDirectoryAt place && decide (part.utf8ByteSize ≤ maxNameSize) then
      follow t (step place part) parts
    else none

def origin (path : String) : Place :=
  if path.toList.head? = some '/' then ["/"] else []

/-- The place that a path leads to, whether or not anything stands there. The empty path leads
nowhere. -/
def place? (t : FileTree) (path : String) : Option Place :=
  if path.isEmpty || !isPath path then none else t.follow (origin path) (Split.fields '/' path)

def placesAlong (path : String) : List Place :=
  ((Split.fields '/' path).foldl
    (fun (place, places) part => (step place part, places ++ [step place part]))
    (origin path, [origin path])).2

def pathOf : Place → String
  | [] => "."
  | "/" :: names => "/" ++ String.intercalate "/" names
  | names => String.intercalate "/" names

def at? (t : FileTree) (path : String) : Option FileNode :=
  (t.place? path).bind t.node?

def exists? (t : FileTree) (path : String) : Bool :=
  (t.at? path).isSome

def read? (t : FileTree) (path : String) : Option Bytes :=
  match t.at? path with
  | some (.file bytes) => some bytes
  | _ => none

def join (directory name : String) : String :=
  if directory.isEmpty || directory.toList.getLast? = some '/' then directory ++ name
  else directory ++ "/" ++ name

def list? (t : FileTree) (path : String) : Option (List String) :=
  match t.place? path with
  | some place =>
    if t.isDirectoryAt place then
      let names := t.nodes.filterMap fun (p, _) =>
        if p.dropLast = place ∧ p ≠ [] then p.getLast? else none
      some (names.mergeSort fun a b => decide (a ≤ b))
    else none
  | none => none

def isInside (place : Place) : Bool :=
  place.head? != some ".." && place.head? != some "/"

def files (t : FileTree) : List String :=
  let paths := t.nodes.filterMap fun (place, node) =>
    match node with
    | .file _ => if isInside place then some (String.intercalate "/" place) else none
    | .directory => none
  paths.mergeSort fun a b => decide (a ≤ b)

/-! ## Changes -/

/-- The tree with a file written, unless its directory does not exist or a directory is in the
way. -/
def write (t : FileTree) (path : String) (bytes : Bytes) : Option FileTree :=
  match t.place? path with
  | some place => if t.isDirectoryAt place then none else some (t.setNode place (.file bytes))
  | none => none

def remove (t : FileTree) (path : String) : Option FileTree :=
  match t.place? path with
  | some place =>
    match t.node? place with
    | some (.file _) => some ⟨t.nodes.filter (·.1 != place)⟩
    | _ => none
  | none => none

def makeAt (t : FileTree) (place : Place) (parts : List String) : Option FileTree :=
  match t.follow place parts with
  | some place =>
    match t.node? place with
    | some .directory => some t
    | some (.file _) => none
    | none => some (t.setNode place .directory)
  | none => none

def makeAlong (t : FileTree) : Place → List String → FileTree
  | _, [] => t
  | place, part :: parts =>
    match t.makeAt place [part] with
    | some t => makeAlong t (step place part) parts
    | none => t

def partsUpToName (path : String) : List String :=
  ((Split.fields '/' path).reverse.dropWhile (·.isEmpty)).reverse

def partsAboveName (path : String) : List String :=
  ((Split.fields '/' path).filter fun part => part ≠ "" ∧ part ≠ ".").dropLast

/-- Makes a directory with all directories above it, and says whether it is there. Directories that
were made on the way stay if a later one cannot be made. -/
def makeDirectories (t : FileTree) (path : String) : FileTree × Bool :=
  if isPath path then
    let t := t.makeAlong (origin path) (partsAboveName path)
    match t.makeAt (origin path) (partsUpToName path) with
    | some t => (t, true)
    | none => (t, false)
  else (t, false)

theorem node?_setNode_self {t : FileTree} {place : Place} {node : FileNode}
    (h : isGiven place = false) : (t.setNode place node).node? place = some node := by
  simp [node?, setNode, h]

end FileTree

end CodeCache
