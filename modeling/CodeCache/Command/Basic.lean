import CodeCache.Command.Help
import CodeCache.Merge.Basic
import CodeCache.Options.Parse

/-!
# The program

Offline tools for cache files. The program reads and writes a tree of files, prints a text and ends
with an exit code: zero, one for a failure, two for arguments that make no sense.
-/

namespace CodeCache

structure Outcome where
  exitCode : Nat
  out : String := ""
  deriving DecidableEq, Repr

namespace Outcome

def ofText : Except Error String → Outcome
  | .ok out => { exitCode := 0, out }
  | .error _ => { exitCode := 1 }

end Outcome

namespace Command

/-- The cache file at a path, whatever build wrote it. -/
def load (files : FileTree) (path : String) : Except Error CacheFile :=
  CacheFile.load files path none

def containerStats (i : Nat) (c : Container) : Except Error String := do
  let versions ← c.methods.mapM fun (_, head) => c.code.versionCount head
  let count := versions.foldr (· + ·) 0
  return s!"  container #{i}: {c.methodCount} methods, {count} versions, "
    ++ s!"{c.code.size} code bytes, {c.table.encodedSize} table bytes"

/-- Lines of counts for containers from the `i`-th on, up to the first with a broken chain, and
whether there is none. -/
def statsFrom : Nat → List Container → List String × Bool
  | _, [] => ([], true)
  | i, c :: cs =>
    match containerStats i c with
    | .error _ => ([], false)
    | .ok line =>
      let (lines, intact) := statsFrom (i + 1) cs
      (line :: lines, intact)

/-- Counts of a file. What was counted before a failure is printed all the same. -/
def runStats (files : FileTree) (path : String) : Outcome :=
  match load files path with
  | .error _ => { exitCode := 1 }
  | .ok file =>
    let (counts, intact) := statsFrom 0 file.containers
    { exitCode := if intact then 0 else 1
      out := Layout.lines <|
        ["Code Revive v" ++ programVersion, path, "  build identity: " ++ file.buildIdentity,
          s!"  metaspace entries: {file.space.size}"] ++ counts }

def mergeOptions (options : String) : String :=
  if (Split.fields ',' options).contains "merge" then options else "merge," ++ options

def createLog (o : Options) (files : FileTree) : Except Error FileTree :=
  match o.logFile with
  | none => .ok files
  | some path =>
    match files.write path [] with
    | some files => .ok files
    | none => .error (.internal (.logFile path))

def runMerge (files : FileTree) (options : String) (identity : Option String) :
    Outcome × FileTree :=
  match Options.parse (mergeOptions options) with
  | .error _ => ({ exitCode := 1 }, files)
  | .ok o =>
    match createLog o files with
    | .error _ => ({ exitCode := 1 }, files)
    | .ok files =>
      match Merge.run o identity files with
      | .error _ => ({ exitCode := 1 }, files)
      | .ok (files, report) =>
        ({ exitCode := 0, out := report.toReport.pretty ++ "\n" }, files)

def run (files : FileTree) : Command → Outcome × FileTree
  | print file false => (.ofText ((·.print none) <$> load files file), files)
  | print file true => (.ofText ((·.summary.pretty ++ "\n") <$> load files file), files)
  | printOpt file => (.ofText do (← load files file).printAssumptions, files)
  | merge options identity => runMerge files options identity
  | stats file => (runStats files file, files)

def lookups (files : FileTree) : Command → List String
  | print file _ => [file]
  | printOpt file => [file]
  | stats file => [file]
  | merge options _ =>
    match Options.parse (mergeOptions options) with
    | .error _ => []
    | .ok o =>
      let listed := o.inputListFile.toList.flatMap fun path =>
        match Merge.readList files path with
        | .ok text => Merge.listedPaths text
        | .error _ => []
      [o.file, o.logFile, o.inputFiles, o.inputListFile].filterMap id ++ listed

end Command

def runProgram (files : FileTree) (args : List String) : Outcome × FileTree :=
  match Request.ofArguments? args with
  | none => ({ exitCode := 2 }, files)
  | some .version => ({ exitCode := 0, out := programName ++ " " ++ programVersion ++ "\n" }, files)
  | some (.help none) => ({ exitCode := 0, out := Help.onProgram }, files)
  | some (.help (some command)) => ({ exitCode := 0, out := Help.onCommand command }, files)
  | some .helpOnHelp => ({ exitCode := 0, out := Help.onHelp }, files)
  | some (.run command) => command.run files

end CodeCache
