import CodeCache.Assumption.Score
import CodeCache.Options.Log

/-!
# Options

All behaviour that can be switched is one value, fixed for the life of a process.
-/

namespace CodeCache

inductive RevivePolicy where
  | first
  | random
  /-- A given one, else the first usable one after it. -/
  | appointed (version : Nat)
  deriving DecidableEq, Repr

def RevivePolicy.name : RevivePolicy → String
  | first => "first"
  | random => "random"
  | appointed version => s!"appoint={version}"

inductive MergePolicy where
  | simple
  /-- Versions are folded into those that cover them, then the most frequent stay. -/
  | coverage
  deriving DecidableEq, Repr

def MergePolicy.name : MergePolicy → String
  | simple => "simple"
  | coverage => "coverage"

structure Options where
  save : Bool := false
  restore : Bool := false
  merge : Bool := false
  printAssumptions : Bool := false
  fatalOnFail : Bool := false
  measure : Bool := false
  checkBuild : Bool := true
  disableConstantOpt : Bool := false
  checkIdentity : Bool := false
  failInstall : Bool := false
  file : Option String := none
  logFile : Option String := none
  inputFiles : Option String := none
  inputListFile : Option String := none
  logLevels : List (LogKind × LogLevel) := []
  revivePolicy : RevivePolicy := .first
  mergePolicy : MergePolicy := .simple
  /-- Out of a hundred processes, how many use the cache. -/
  percent : Nat := 100
  /-- Out of a hundred input files, how many the kept groups of a merge must cover. -/
  coverage : Nat := 100
  maxContainers : Nat := 2147483647
  maxVersions : Nat := 16
  maxFileSize : Nat := 1073741824
  costs : Costs := {}
  deriving DecidableEq, Repr

namespace Options

def megabyte : Nat := 1048576

def gigabyte : Nat := 1024 * megabyte

def versionLimit : Nat := 32

def forSave (file : String) : Options :=
  { save := true, file := some file }

def forRestore (file : String) : Options :=
  { restore := true, file := some file }

def forMerge (output : String) : Options :=
  { merge := true, file := some output }

def validate (o : Options) : Except Error Unit :=
  if o.merge && (o.save || o.restore) then .error (.config .mergeCombined)
  else if o.percent ≠ 100 && o.merge then .error (.config .percentCombined)
  else if (o.save || o.restore || o.merge) && o.file.isNone then .error (.config .noFile)
  else if o.merge && o.inputFiles.isNone && o.inputListFile.isNone then .error (.config .noInputs)
  else if o.maxVersions = 0 ∨ versionLimit < o.maxVersions then
    .error (.config (.versionLimit o.maxVersions versionLimit))
  else if o.maxFileSize < megabyte then .error (.config .sizeLimit)
  else .ok ()

def isInactive (o : Options) : Bool :=
  !o.save && !o.restore && !o.merge && !o.measure && !o.printAssumptions

def isSampled (o : Options) (roll : Nat) : Bool :=
  100 ≤ o.percent || roll < o.percent

/-- The level of a category: the one set last. -/
def logLevel (o : Options) (kind : LogKind) : LogLevel :=
  ((o.logLevels.reverse.find? (·.1 == kind)).map (·.2)).getD .none

def logDirectives (o : Options) : List String :=
  (LogKind.all.filter fun kind => o.logLevels.any (·.1 == kind)).map fun kind =>
    kind.target ++ "=" ++ (o.logLevel kind).filter

end Options

end CodeCache
