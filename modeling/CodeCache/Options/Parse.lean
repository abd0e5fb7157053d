import CodeCache.Options.Basic
import CodeCache.Text.Split

/-!
# Reading options

Options are given as one text: names of switches and `key=value` settings, separated by commas. The
setting `log=kind=level` may be continued by further `kind=level` pairs.
-/

namespace CodeCache.Options

def readPath (key value : String) : Except Error (Option String) :=
  if value.isEmpty then .error (.config (.path key)) else .ok (some value)

/-- The number of a text of decimal digits, with or without a plus sign in front, below `2 ^ 32`. -/
def number? (s : String) : Option Nat :=
  let digits := match s.toList with
    | '+' :: ds => ds
    | ds => ds
  if digits.isEmpty || !digits.all Char.isDigit then none
  else
    let n := digits.foldl (fun n c => n * 10 + (c.toNat - '0'.toNat)) 0
    if n < UInt32.size then some n else none

def readNumber (key value : String) (low high : Nat) : Except Error Nat :=
  if value.toList.head? = some '0' then .error (.config (.leadingZero key value))
  else
    match number? value with
    | none => .error (.config (.noInteger key value))
    | some n =>
      if n < low ∨ high < n then .error (.config (.range key n low high)) else .ok n

def maxNumber : Nat := 2147483647

def readSize (value : String) : Except Error Nat :=
  let digits := String.ofList value.toList.dropLast
  let scaled (unit : Nat) : Except Error Nat :=
    (· * unit) <$> readNumber "max_file_size" digits 1 maxNumber
  match value.toList.getLast? with
  | some 'M' => scaled megabyte
  | some 'm' => scaled megabyte
  | some 'G' => scaled gigabyte
  | some 'g' => scaled gigabyte
  | _ => .error (.config .sizeUnit)

def readRevivePolicy (value : String) : Except Error RevivePolicy :=
  match Split.cut? '=' value with
  | none =>
    match value with
    | "first" => .ok .first
    | "random" => .ok .random
    | "appoint" => .ok (.appointed 0)
    | _ => .error (.config (.revivePolicy value))
  | some ("appoint", "0") => .ok (.appointed 0)
  | some ("appoint", version) =>
    .appointed <$> readNumber "revive_policy" version 1 (versionLimit - 1)
  | some _ => .error (.config (.policyArgument value))

def readMergePolicy : String → Except Error MergePolicy
  | "simple" => .ok .simple
  | "coverage" => .ok .coverage
  | value => .error (.config (.mergePolicy value))

def setLevels (o : Options) (kinds : List LogKind) (level : LogLevel) : Options :=
  { o with logLevels := o.logLevels ++ kinds.map fun kind => (kind, level) }

/-- The options after a `kind=level` pair that continues a log setting, if the token is one. -/
def continueLog? (o : Options) (token : String) : Option Options := do
  let (kind, level) ← Split.cut? '=' token
  return o.setLevels (← LogKind.ofOption? kind) (← LogLevel.ofName? level)

def readLog (o : Options) (value : String) : Except Error Options :=
  match Split.cut? '=' value with
  | none => .error (.config (.logShape value))
  | some (kind, level) =>
    match LogKind.ofOption? kind with
    | none => .error (.config (.logKind kind))
    | some kinds =>
      match LogLevel.ofName? level with
      | none => .error (.config (.logLevel level))
      | some level => .ok (o.setLevels kinds level)

def readSwitch? (o : Options) : String → Option Options
  | "save" => some { o with save := true }
  | "restore" => some { o with restore := true }
  | "merge" => some { o with merge := true }
  | "print_opt" => some { o with printAssumptions := true }
  | "fatal_on_fail" => some { o with fatalOnFail := true }
  | "perf" => some { o with measure := true }
  | "disable_validate_check" => some { o with checkBuild := false }
  | "disable_constant_opt" => some { o with disableConstantOpt := true }
  | "verify_redefined_identity" => some { o with checkIdentity := true }
  | "make_revive_fail_at_nmethod" => some { o with failInstall := true }
  | _ => none

def readSetting? (o : Options) (key value : String) : Option (Except Error Options) :=
  match key with
  | "file" => some do return { o with file := ← readPath key value }
  | "logfile" => some do return { o with logFile := ← readPath key value }
  | "input_files" => some do return { o with inputFiles := ← readPath key value }
  | "input_list_file" => some do return { o with inputListFile := ← readPath key value }
  | "log" => some (o.readLog value)
  | "revive_policy" => some do return { o with revivePolicy := ← readRevivePolicy value }
  | "policy" => some do return { o with mergePolicy := ← readMergePolicy value }
  | "percent" => some do return { o with percent := ← readNumber key value 1 99 }
  | "coverage" => some do return { o with coverage := ← readNumber key value 1 99 }
  | "max_container_count" => some do
    return { o with maxContainers := ← readNumber key value 1 maxNumber }
  | "max_nmethod_versions" => some do
    return { o with maxVersions := ← readNumber key value 1 versionLimit }
  | "max_file_size" => some do return { o with maxFileSize := ← readSize value }
  | _ => none

def readToken (o : Options) (token : String) : Except Error (Options × Bool) :=
  match Split.cut? '=' token with
  | none =>
    match o.readSwitch? token with
    | some o => .ok (o, false)
    | none => .error (.config (.unrecognized token))
  | some (key, value) =>
    match o.readSetting? key value with
    | some result => (fun o => (o, key == "log")) <$> result
    | none => .error (.config (.unrecognized token))

/-- The options after some tokens of the given text; `inLog` says whether a log setting may be
continued. -/
def readTokens (text : String) (o : Options) (inLog : Bool) : List String → Except Error Options
  | [] => .ok o
  | token :: tokens =>
    if token.isEmpty then .error (.config (.emptyToken text))
    else
      match if inLog then o.continueLog? token else none with
      | some o => readTokens text o true tokens
      | none => do
        let (o, inLog) ← o.readToken token
        readTokens text o inLog tokens

def parse (text : String) : Except Error Options := do
  let o ← readTokens text {} false (Split.fields ',' text)
  o.validate
  return o

end CodeCache.Options
