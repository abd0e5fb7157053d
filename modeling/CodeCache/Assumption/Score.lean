import CodeCache.Assumption.Speculation
import CodeCache.Host.Basic

/-!
# Scoring speculations

A score estimates, in heuristic instruction costs, how much cheaper the recorded code is than a
generic path under the profile at hand; less is better. A profile that contradicts a record rejects
the whole version, since its code would soon be thrown away.
-/

namespace CodeCache

structure Costs where
  virtualCall : Int64 := 10
  notInline : Int64 := 10
  receiverCheck : Int64 := 10
  cuttedIf : Int64 := 10
  testJump : Int64 := 1
  deriving DecidableEq, Repr

structure ScoreContext where
  metas : List (Option Entity)
  host : Host
  costs : Costs := {}

namespace ScoreContext

def entityAt (ctx : ScoreContext) (index : UInt32) : Except Error Entity :=
  match if index = 0 then none else (ctx.metas[index.toNat - 1]?).join with
  | some entity => .ok entity
  | none => .error (.corruption (.optNoEntry index))

def methodAt (ctx : ScoreContext) (index : UInt32) : Except Error MethodId := do
  match ← ctx.entityAt index with
  | .method m => return m
  | .klass _ => throw (.corruption (.optNoMethod index))

def classAt (ctx : ScoreContext) (index : UInt32) : Except Error ClassId := do
  match ← ctx.entityAt index with
  | .klass k => return k
  | .method _ => throw (.corruption (.optNoClass index))

end ScoreContext

namespace Speculation

/-- The type checks of a devirtualized call: the receivers they test for, how many they are, and
whether a miss traps. -/
structure TypeChecks where
  bci : Int32
  first : ClassId
  second : Option ClassId
  missIsTrap : Bool

namespace TypeChecks

def count (t : TypeChecks) : Int64 :=
  if t.second.isSome then 2 else 1

def rowScore (ctx : ScoreContext) (t : TypeChecks) (row : ReceiverRow) : Except Error Int64 :=
  if row.klass = t.first then
    .ok ((ctx.costs.testJump - ctx.costs.virtualCall) * row.count)
  else if some row.klass = t.second then
    .ok ((ctx.costs.testJump * 2 - ctx.costs.virtualCall) * row.count)
  else if t.missIsTrap then
    .error (.optRejected (.trapsOnReceiver t.bci (ctx.host.className row.klass)))
  else .ok (t.count * row.count * ctx.costs.testJump)

def rowsScore (ctx : ScoreContext) (t : TypeChecks) :
    List ReceiverRow → Int64 × Int64 → Except Error (Int64 × Int64)
  | [], state => .ok state
  | row :: rows, (total, other) => do
    let cost ← t.rowScore ctx row
    rowsScore ctx t rows (total + cost, other - row.count)

def score (ctx : ScoreContext) (t : TypeChecks) (profile : CallProfile) : Except Error Int64 := do
  let (total, other) ← t.rowsScore ctx profile.receivers (0, profile.count)
  if 0 < other then
    if t.missIsTrap then throw (.optRejected (.trapsOnUnprofiled t.bci other))
    else return total + t.count * other * ctx.costs.testJump
  else return total

end TypeChecks

def score (ctx : ScoreContext) : Speculation → Except Error Int64
  | deVirtual method bci klass1 klass2 _ missIsTrap => do
    let caller ← ctx.methodAt method
    let profile := ctx.host.callProfile caller bci
    if profile.count ≤ 0 then return 0
    else
      let first ← ctx.classAt klass1
      let second ← klass2.mapM ctx.classAt
      TypeChecks.score ctx { bci, first, second, missIsTrap } profile
  | inlined caller callee bci => do
    let caller ← ctx.methodAt caller
    if !ctx.host.hasMethodData caller then return 0
    else
      match ctx.host.profileAt caller bci with
      | some (.counter count) => return -count * ctx.costs.notInline
      | some (.virtualCall _ receivers) =>
        let holder := ctx.host.methodHolder (← ctx.methodAt callee)
        return ((receivers.find? (·.klass == holder)).map fun row =>
          -row.count * ctx.costs.notInline).getD 0
      | some (.branch ..) => return 0
      | none => return 0
  | profiledReceiver method bci klass => do
    let m ← ctx.methodAt method
    let expected ← ctx.classAt klass
    let profile := ctx.host.callProfile m bci
    if profile.count < 0 then throw (.optRejected (.negativeCount bci))
    else
      match profile.receivers with
      | [row] =>
        if row.klass = expected then
          return (ctx.costs.testJump - ctx.costs.receiverCheck) * row.count
        else throw (.optRejected (.otherReceiver bci (ctx.host.className row.klass)))
      | _ => return 0
  | unstableIf method bci takenTrap => do
    let m ← ctx.methodAt method
    if !(ctx.host.hasMethodData m && ctx.host.isMature m) then return 0
    else
      match ctx.host.profileAt m bci with
      | some (.branch taken notTaken) =>
        if 0 ≤ taken ∧ 0 ≤ notTaken ∧ 40 < taken + notTaken then
          if (takenTrap && taken == 0) || (!takenTrap && notTaken == 0) then
            return -ctx.costs.cuttedIf * (taken + notTaken)
          else throw (.optRejected (.trappedBranch bci taken notTaken))
        else return 0
      | _ => return 0
  | constantReplace klass offset type value => do
    let k ← ctx.classAt klass
    match (ctx.host.constantField k offset).filter (·.isPrimitive) with
    | none => throw (.optRejected (.noConstant offset))
    | some current =>
      if current.type = type ∧ current.bits = value then return -1
      else throw (.optRejected (.changedConstant offset value current.bits))

def saturatingAdd (a b : Int64) : Int64 :=
  let sum := a.toInt + b.toInt
  if sum < Int64.minValue.toInt then Int64.minValue
  else if Int64.maxValue.toInt < sum then Int64.maxValue
  else a + b

def totalFrom (ctx : ScoreContext) : Int64 → List Speculation → Except Error Int64
  | total, [] => .ok total
  | total, r :: rs => do
    let s ← r.score ctx
    totalFrom ctx (saturatingAdd total s) rs

def totalScore (ctx : ScoreContext) (rs : List Speculation) : Except Error Int64 :=
  totalFrom ctx 0 rs

end Speculation

end CodeCache
