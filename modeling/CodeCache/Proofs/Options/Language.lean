import CodeCache.Proofs.Options.Numerals
import CodeCache.Proofs.Text.Splitting

/-!
# The language of options

A text of options is a list of tokens, joined by commas. What it means is said field by
field: each field holds what the last token says that sets it, and the levels of log
categories are kept in the order in which they were set.
-/

namespace CodeCache.Options

/-!
## Tokens
-/

inductive Switch where
  | save
  | restore
  | merge
  | printAssumptions
  | fatalOnFail
  | measure
  | anyBuild
  | disableConstantOpt
  | checkIdentity
  | failInstall
  deriving DecidableEq

def Switch.name : Switch → String
  | save => "save"
  | restore => "restore"
  | merge => "merge"
  | printAssumptions => "print_opt"
  | fatalOnFail => "fatal_on_fail"
  | measure => "perf"
  | anyBuild => "disable_validate_check"
  | disableConstantOpt => "disable_constant_opt"
  | checkIdentity => "verify_redefined_identity"
  | failInstall => "make_revive_fail_at_nmethod"

inductive PathKey where
  | file
  | logFile
  | inputFiles
  | inputListFile
  deriving DecidableEq

def PathKey.all : List PathKey :=
  [.file, .logFile, .inputFiles, .inputListFile]

def PathKey.name : PathKey → String
  | file => "file"
  | logFile => "logfile"
  | inputFiles => "input_files"
  | inputListFile => "input_list_file"

inductive NumberKey where
  | percent
  | coverage
  | maxContainers
  | maxVersions
  deriving DecidableEq

namespace NumberKey

def name : NumberKey → String
  | percent => "percent"
  | coverage => "coverage"
  | maxContainers => "max_container_count"
  | maxVersions => "max_nmethod_versions"

def high : NumberKey → Nat
  | percent => 99
  | coverage => 99
  | maxContainers => maxNumber
  | maxVersions => versionLimit

end NumberKey

inductive LogGroup where
  | all
  | one (kind : LogKind)
  deriving DecidableEq

namespace LogGroup

def name : LogGroup → String
  | all => "all"
  | one kind => kind.name

def kinds : LogGroup → List LogKind
  | all => LogKind.all
  | one kind => [kind]

end LogGroup

inductive SizeUnit where
  | upperM
  | lowerM
  | upperG
  | lowerG
  deriving DecidableEq

namespace SizeUnit

def letter : SizeUnit → Char
  | upperM => 'M'
  | lowerM => 'm'
  | upperG => 'G'
  | lowerG => 'g'

def bytes : SizeUnit → Nat
  | upperM => megabyte
  | lowerM => megabyte
  | upperG => gigabyte
  | lowerG => gigabyte

end SizeUnit

def setting (key value : String) : String :=
  key ++ ("=" ++ value)

inductive Choice where
  | first
  | random
  | appoint
  | appointed (version : Numeral)

namespace Choice

def text : Choice → String
  | first => "first"
  | random => "random"
  | appoint => "appoint"
  | appointed version => setting "appoint" version.text

def policy : Choice → RevivePolicy
  | first => .first
  | random => .random
  | appoint => .appointed 0
  | appointed version => .appointed version.value

end Choice

inductive Token where
  | switch (s : Switch)
  | path (key : PathKey) (path : String)
  | log (group : LogGroup) (level : LogLevel)
  | more (group : LogGroup) (level : LogLevel)
  | revive (choice : Choice)
  | policy (p : MergePolicy)
  | number (key : NumberKey) (n : Numeral)
  | size (n : Numeral) (unit : SizeUnit)

namespace Token

def text : Token → String
  | switch s => s.name
  | path key p => setting key.name p
  | log group level => setting "log" (setting group.name level.name)
  | more group level => setting group.name level.name
  | revive choice => setting "revive_policy" choice.text
  | policy p => setting "policy" p.name
  | number key n => setting key.name n.text
  | size n unit => setting "max_file_size" (n.text ++ String.singleton unit.letter)

def Valid : Token → Prop
  | path _ p => p ≠ "" ∧ ',' ∉ p.toList
  | revive (.appointed version) =>
    version = .plain 0 ∨ 1 ≤ version.value ∧ version.value ≤ versionLimit - 1
  | number key n => 1 ≤ n.value ∧ n.value ≤ key.high
  | size n _ => 1 ≤ n.value ∧ n.value ≤ maxNumber
  | _ => True

def isPlain : Token → Bool
  | revive (.appointed version) => version.isPlain
  | number _ n => n.isPlain
  | size n _ => n.isPlain
  | _ => true

def isMore : Token → Bool
  | more .. => true
  | _ => false

def isLog : Token → Bool
  | log .. => true
  | more .. => true
  | _ => false

/-!
## What a token sets
-/

@[simp] def thrown? (s : Switch) (value : Bool) : Token → Option Bool
  | switch s' => if s' = s then some value else none
  | _ => none

@[simp] def path? (key : PathKey) : Token → Option (Option String)
  | path key' p => if key' = key then some (some p) else none
  | _ => none

@[simp] def levels : Token → List (LogKind × LogLevel)
  | log group level => group.kinds.map fun kind => (kind, level)
  | more group level => group.kinds.map fun kind => (kind, level)
  | _ => []

@[simp] def revive? : Token → Option RevivePolicy
  | revive choice => some choice.policy
  | _ => none

@[simp] def policy? : Token → Option MergePolicy
  | policy p => some p
  | _ => none

@[simp] def number? (key : NumberKey) : Token → Option Nat
  | number key' n => if key' = key then some n.value else none
  | _ => none

@[simp] def size? : Token → Option Nat
  | size n unit => some (n.value * unit.bytes)
  | _ => none

end Token

/-!
## Texts
-/

/-- A further level stands only behind a log setting, or behind a further level. -/
def Placed : Bool → List Token → Prop
  | _, [] => True
  | inLog, t :: ts => (t.isMore = true → inLog = true) ∧ Placed t.isLog ts

structure Spells (text : String) (tokens : List Token) : Prop where
  ne_nil : tokens ≠ []
  text_eq : text = ",".intercalate (tokens.map Token.text)
  valid : ∀ t ∈ tokens, t.Valid
  placed : Placed false tokens

def last {α : Type} (sets : Token → Option α) (default : α) (tokens : List Token) : α :=
  (tokens.filterMap sets).getLastD default

def meaning (tokens : List Token) : Options :=
  let plain : Options := {}
  { save := last (Token.thrown? .save true) plain.save tokens
    restore := last (Token.thrown? .restore true) plain.restore tokens
    merge := last (Token.thrown? .merge true) plain.merge tokens
    printAssumptions := last (Token.thrown? .printAssumptions true) plain.printAssumptions tokens
    fatalOnFail := last (Token.thrown? .fatalOnFail true) plain.fatalOnFail tokens
    measure := last (Token.thrown? .measure true) plain.measure tokens
    checkBuild := last (Token.thrown? .anyBuild false) plain.checkBuild tokens
    disableConstantOpt :=
      last (Token.thrown? .disableConstantOpt true) plain.disableConstantOpt tokens
    checkIdentity := last (Token.thrown? .checkIdentity true) plain.checkIdentity tokens
    failInstall := last (Token.thrown? .failInstall true) plain.failInstall tokens
    file := last (Token.path? .file) plain.file tokens
    logFile := last (Token.path? .logFile) plain.logFile tokens
    inputFiles := last (Token.path? .inputFiles) plain.inputFiles tokens
    inputListFile := last (Token.path? .inputListFile) plain.inputListFile tokens
    logLevels := tokens.flatMap Token.levels
    revivePolicy := last Token.revive? plain.revivePolicy tokens
    mergePolicy := last Token.policy? plain.mergePolicy tokens
    percent := last (Token.number? .percent) plain.percent tokens
    coverage := last (Token.number? .coverage) plain.coverage tokens
    maxContainers := last (Token.number? .maxContainers) plain.maxContainers tokens
    maxVersions := last (Token.number? .maxVersions) plain.maxVersions tokens
    maxFileSize := last Token.size? plain.maxFileSize tokens
    costs := plain.costs }

/-- The text consists of these tokens, which stand for these options, and the options do
not contradict each other. -/
def Denotes (text : String) (tokens : List Token) (o : Options) : Prop :=
  Spells text tokens ∧ o = meaning tokens ∧ o.validate = .ok ()

/-!
## One token after the other
-/

def Switch.throw (o : Options) : Switch → Options
  | save => { o with save := true }
  | restore => { o with restore := true }
  | merge => { o with merge := true }
  | printAssumptions => { o with printAssumptions := true }
  | fatalOnFail => { o with fatalOnFail := true }
  | measure => { o with measure := true }
  | anyBuild => { o with checkBuild := false }
  | disableConstantOpt => { o with disableConstantOpt := true }
  | checkIdentity => { o with checkIdentity := true }
  | failInstall => { o with failInstall := true }

def PathKey.set (o : Options) (path : String) : PathKey → Options
  | file => { o with file := some path }
  | logFile => { o with logFile := some path }
  | inputFiles => { o with inputFiles := some path }
  | inputListFile => { o with inputListFile := some path }

def NumberKey.set (o : Options) (n : Nat) : NumberKey → Options
  | percent => { o with percent := n }
  | coverage => { o with coverage := n }
  | maxContainers => { o with maxContainers := n }
  | maxVersions => { o with maxVersions := n }

def after (o : Options) : Token → Options
  | .switch s => s.throw o
  | .path key p => key.set o p
  | .log group level => o.setLevels group.kinds level
  | .more group level => o.setLevels group.kinds level
  | .revive choice => { o with revivePolicy := choice.policy }
  | .policy p => { o with mergePolicy := p }
  | .number key n => key.set o n.value
  | .size n unit => { o with maxFileSize := n.value * unit.bytes }

theorem last_concat {α : Type} (sets : Token → Option α) (default : α) (tokens : List Token)
    (t : Token) :
    last sets default (tokens ++ [t]) = (sets t).getD (last sets default tokens) := by
  unfold last
  rw [List.filterMap_append]
  cases hset : sets t with
  | none => simp [hset]
  | some a => simp [hset]

theorem meaning_concat (tokens : List Token) (t : Token) :
    meaning (tokens ++ [t]) = (meaning tokens).after t := by
  unfold meaning
  simp only [last_concat, List.flatMap_append, List.flatMap_singleton]
  cases t with
  | switch s => cases s <;> simp [after, Switch.throw]
  | path key p => cases key <;> simp [after, PathKey.set]
  | log group level => simp [after, setLevels]
  | more group level => simp [after, setLevels]
  | revive choice => simp [after]
  | policy p => simp [after]
  | number key n => cases key <;> simp [after, NumberKey.set]
  | size n unit => simp [after]

theorem foldl_after (tokens : List Token) : tokens.foldl after {} = meaning tokens := by
  induction tokens using List.reverseRecOn with
  | nil => rfl
  | append_singleton tokens t ih =>
      rw [List.foldl_concat, ih, meaning_concat]

end CodeCache.Options
