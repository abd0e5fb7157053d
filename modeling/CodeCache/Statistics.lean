import CodeCache.Blob.Emit
import CodeCache.Decimal.Rounding
import CodeCache.Store.Container

/-!
# Statistics

Outcomes of revives are always counted. Sizes and times are counted only when measuring is asked
for. All counters are words that wrap around.
-/

namespace CodeCache

inductive SizeKind where
  | fileHeader
  | lookupTable
  | blobHeader
  | body
  | tags
  | stackMaps
  deriving DecidableEq, Repr

namespace SizeKind

def all : List SizeKind :=
  [fileHeader, lookupTable, blobHeader, body, tags, stackMaps]

def name : SizeKind → String
  | fileHeader => "file header"
  | lookupTable => "lookup table"
  | blobHeader => "code blob header"
  | body => "code body"
  | tags => "aux info"
  | stackMaps => "oop map set"

end SizeKind

inductive TimerKind where
  | save
  | restoreSuccess
  | restoreFail
  | merge
  deriving DecidableEq, Repr

namespace TimerKind

def all : List TimerKind :=
  [save, restoreSuccess, restoreFail, merge]

def name : TimerKind → String
  | save => "save"
  | restoreSuccess => "restore success"
  | restoreFail => "restore fail"
  | merge => "merge"

end TimerKind

structure Statistics where
  measure : Bool := false
  revives : ReviveStatus → UInt64 := fun _ => 0
  sizes : SizeKind → UInt64 := fun _ => 0
  nanos : TimerKind → UInt64 := fun _ => 0
  timings : TimerKind → UInt64 := fun _ => 0

namespace Statistics

def advance {κ : Type} [DecidableEq κ] (counters : κ → UInt64) (k : κ) (n : UInt64) : κ → UInt64 :=
  fun other => if other = k then counters other + n else counters other

def recordRevive (s : Statistics) (status : ReviveStatus) : Statistics :=
  { s with revives := advance s.revives status 1 }

def addSize (s : Statistics) (kind : SizeKind) (size : Nat) : Statistics :=
  if s.measure then { s with sizes := advance s.sizes kind (UInt64.ofNat size) } else s

def addBlobSizes (s : Statistics) (sizes : BlobSizes) : Statistics :=
  (((s.addSize .blobHeader sizes.header).addSize .body sizes.body).addSize .tags sizes.tags).addSize
    .stackMaps sizes.stackMaps

def recordTime (s : Statistics) (kind : TimerKind) (nanos : UInt64) : Statistics :=
  if s.measure then
    { s with nanos := advance s.nanos kind nanos, timings := advance s.timings kind 1 }
  else s

def total (s : Statistics) : UInt64 :=
  (ReviveStatus.all.map s.revives).foldr (· + ·) 0

def micros (s : Statistics) (kind : TimerKind) : UInt64 :=
  s.nanos kind / 1000

/-- Microseconds in milliseconds, computed in double precision and shown with three places. -/
def milliseconds (micros : UInt64) : String :=
  Decimal.threePlaces (Decimal.divDouble (Decimal.nearestDouble micros.toNat 1) 1000)

def line (name value : String) : String :=
  "  " ++ Layout.padRight 16 name ++ " " ++ value

def report (s : Statistics) : String :=
  let revives := ReviveStatus.all.map fun status => line status.name (toString (s.revives status))
  let sizes := SizeKind.all.map fun kind => line kind.name (toString (s.sizes kind))
  let timers := TimerKind.all.map fun kind =>
    line kind.name s!"{s.timings kind} x, {milliseconds (s.micros kind)} ms"
  let measured := if s.measure then "Sizes (bytes):" :: sizes ++ "Timers:" :: timers else []
  Layout.lines ("Code revive statistics:" :: revives ++ measured)

end Statistics

end CodeCache
