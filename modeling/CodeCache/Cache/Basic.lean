import CodeCache.Merge.Basic
import CodeCache.Selection.Basic
import CodeCache.Statistics

/-!
# The cache of a process

A process has one cache. It may load a file, of which it uses the first container that was captured
under its own settings. Besides the file, the cache remembers what happened so far: how often
classes were redefined, which methods do without the cache, and which versions were ruled out for
good.
-/

namespace CodeCache

structure Cache where
  options : Options
  isSampled : Bool
  file : Option CacheFile := none
  container : Option Nat := none
  epoch : Epoch := {}
  stats : Statistics
  disabled : List MethodId := []
  unusable : List (MethodId × List Nat) := []

/-- Work of a cache; what it did stays done when it fails. -/
abbrev InCache := EStateM Error Cache

namespace Cache

/-- The cache of a process that rolled a die with faces 0 to 99. -/
def start (o : Options) (roll : Nat) : Cache where
  options := o
  isSampled := o.isSampled roll
  stats := { measure := o.measure }

def outputPath (o : Options) : Except Error String :=
  match o.file with
  | some path => .ok path
  | none => .error (.config .noFile)

def active? (c : Cache) : Option (CacheFile × Container) := do
  let file ← c.file
  let container ← file.containers[← c.container]?
  return (file, container)

def isUsable (c : Cache) : Bool :=
  c.active?.isSome

/-! ## Loading -/

/-- Loads the file that the options name and looks for the container that fits. Without one the file
is kept, but nothing in it can be revived. -/
def load (host : Host) (files : FileTree) : InCache Unit := do
  let c ← get
  let path ← ofExcept (outputPath c.options)
  let expected := if c.options.checkBuild then some host.buildIdentity else none
  let file ← ofExcept (CacheFile.load files path expected)
  modify fun c => { c with container := file.selectContainer host.settings }
  if c.options.printAssumptions then
    let _ ← ofExcept file.printAssumptions
  modify fun c => { c with file := some file }

/-! ## Methods that do without -/

def isDisabled (c : Cache) (m : MethodId) : Bool :=
  c.disabled.contains m

def disable (c : Cache) (m : MethodId) : Cache :=
  if c.isDisabled m then c else { c with disabled := m :: c.disabled }

def ruledOut (c : Cache) (m : MethodId) : List Nat :=
  (c.unusable.lookup m).getD []

def ruleOut (c : Cache) (m : MethodId) (versions : List Nat) : Cache :=
  if versions.isEmpty then c
  else
    let all := versions.foldl (fun vs v => if vs.contains v then vs else vs ++ [v]) (c.ruledOut m)
    { c with unusable := (m, all) :: c.unusable.filter (·.1 != m) }

/-! ## Finding -/

def isCandidate (host : Host) (c : Cache) (m : MethodId) (level : UInt32) : Bool :=
  c.options.restore && c.isSampled && c.file.isSome && level == optimizingLevel
    && host.entityLoader (.method m) != .custom && !c.isDisabled m

def find (host : Host) (c : Cache) (m : MethodId) :
    Except Error (ReviveStatus × Option UInt32) :=
  match c.active? with
  | none => .ok (.notInCache, none)
  | some (file, container) =>
    match MetaKey.of host (.method m) with
    | .ok key => container.find file.space key
    | .error e => if e.isRecoverable then .ok (.notInCache, none) else .error e

def versionCount (host : Host) (c : Cache) (m : MethodId) : Except Error Nat := do
  let (_, head) ← c.find host m
  match head, c.active? with
  | some head, some (_, container) => container.code.versionCount head
  | _, _ => return 0

def redefined (c : Cache) : Cache :=
  { c with epoch := c.epoch.advance }

end Cache

end CodeCache
