import CodeCache.Command.Basic

/-!
# Running the program

The outer layer: it reads the files that a command looks at, runs the command on them, and writes
the files that it changed.
-/

namespace CodeCache.Main

/-- The tree with what stands at a place of the file system; with everything below it if the look
goes deep. -/
partial def lookAt (tree : FileTree) (place : Place) (deep : Bool) : IO FileTree := do
  match ← (IO.FS.realPath (FileTree.pathOf place)).toBaseIO with
  | .error _ => return tree
  | .ok found =>
    if ← found.isDir then
      let mut tree := if tree.isDirectoryAt place then tree else tree.setNode place .directory
      if deep then
        for entry in ← found.readDir do
          tree ← lookAt tree (place ++ [entry.fileName]) true
      return tree
    else
      match ← (IO.FS.readBinFile found).toBaseIO with
      | .error _ => return tree
      | .ok bytes => return tree.setNode place (.file bytes.toList)

def lookAlong (tree : FileTree) (path : String) : IO FileTree := do
  let places := FileTree.placesAlong path
  let tree ← places.dropLast.foldlM (fun tree place => lookAt tree place false) tree
  match places.getLast? with
  | some place => lookAt tree place true
  | none => return tree

def look (tree : FileTree) (args : List String) : IO FileTree :=
  match Request.ofArguments? args with
  | some (.run command) => (command.lookups tree).foldlM lookAlong tree
  | _ => return tree

def store (before after : FileTree) : IO Unit :=
  after.nodes.forM fun (place, node) =>
    match node with
    | .file bytes =>
      if before.node? place == some node then pure ()
      else IO.FS.writeBinFile (FileTree.pathOf place) ⟨bytes.toArray⟩
    | .directory => pure ()

end CodeCache.Main

/-- Runs the program. Lists of inputs are read before the inputs that they name. -/
def main (args : List String) : IO UInt32 := do
  let known ← CodeCache.Main.look {} args
  let files ← CodeCache.Main.look known args
  let (outcome, after) := CodeCache.runProgram files args
  CodeCache.Main.store files after
  IO.print outcome.out
  return UInt32.ofNat outcome.exitCode
