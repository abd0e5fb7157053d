import CodeCache.FileTree
import CodeCache.Options.Basic
import CodeCache.Text.Utf8

/-!
# The inputs of a merge

Inputs are named by a path, which is a cache file or a directory to search, and by the lines of a
list. A directory is searched with everything below it, in the order of the names.
-/

namespace CodeCache.Merge

/-- Whether a file has the name of a cache file: one that ends in `.csa` and has something before
that. -/
def isCacheName (path : String) : Bool :=
  let name := ((Split.fields '/' path).getLast?.getD "").toList
  ".csa".toList.isSuffixOf name && 4 < name.length

def cacheFilesAt (files : FileTree) : Nat → String → List String
  | 0, _ => []
  | depth + 1, path =>
    match files.list? path with
    | some names => names.flatMap fun name => cacheFilesAt files depth (FileTree.join path name)
    | none => if files.exists? path && isCacheName path then [path] else []

/-- The cache files that a path names. Every directory on the way down is a node of the tree, which
bounds the depth. -/
def cacheFiles (files : FileTree) (path : String) : List String :=
  cacheFilesAt files (files.nodes.length + 2) path

/-- The paths in a list of inputs, one a line; blanks around them do not count. -/
def listedPaths (text : String) : List String :=
  ((Split.fields '\n' text).map Split.trim).filter (!·.isEmpty)

def readList (files : FileTree) (path : String) : Except Error String :=
  match (files.read? path).map Utf8.decode with
  | some (.ok text) => .ok text
  | _ => .error .io

def inputFiles (o : Options) (files : FileTree) : Except Error (List String) := do
  if o.inputFiles.isNone && o.inputListFile.isNone then
    throw (.config .inputsMissing)
  let named := (o.inputFiles.map (cacheFiles files)).getD []
  let listed ← match o.inputListFile with
    | some path =>
      (fun text => (listedPaths text).flatMap (cacheFiles files)) <$> readList files path
    | none => pure []
  if (named ++ listed).isEmpty then
    throw (.config .inputsEmpty)
  return named ++ listed

end CodeCache.Merge
