import CodeCache.Merge.Version
import CodeCache.Store.File

/-!
# Groups of containers

Containers whose fingerprints are identical form a group, and each group becomes one container of
the output. Within a group every method and class key gets a number, and the versions of each method
are collected from all inputs.
-/

namespace CodeCache.Merge

structure Input where
  path : String
  file : CacheFile

structure Group where
  fingerprint : Fingerprint
  members : List (Nat × Nat)
  deriving Repr

def withoutRepeats : List Nat → List Nat
  | [] => []
  | [n] => [n]
  | m :: n :: ns => if m = n then withoutRepeats (n :: ns) else m :: withoutRepeats (n :: ns)

def Group.fileCount (g : Group) : Nat :=
  (withoutRepeats (g.members.map (·.1))).length

def addToGroups (fingerprint : Fingerprint) (member : Nat × Nat) : List Group → List Group
  | [] => [{ fingerprint, members := [member] }]
  | g :: gs =>
    if g.fingerprint.identical fingerprint then { g with members := g.members ++ [member] } :: gs
    else g :: addToGroups fingerprint member gs

def containersOf (inputs : List Input) : List ((Nat × Nat) × Container) :=
  (inputs.mapIdx fun f input => input.file.containers.mapIdx fun c container =>
    ((f, c), container)).flatten

def groups (inputs : List Input) : List Group :=
  (containersOf inputs).foldl (fun gs (member, c) => addToGroups c.fingerprint member gs) []

def coveringGroups (o : Options) (inputCount : Nat) : Nat → Nat → List Group → List Group
  | _, _, [] => []
  | covered, kept, g :: gs =>
    if o.maxContainers ≤ kept ∨ o.coverage * inputCount ≤ covered * 100 then []
    else g :: coveringGroups o inputCount (covered + g.fileCount) (kept + 1) gs

/-- The groups to keep: those of most inputs, until enough inputs are covered or there are as many
containers as allowed. -/
def keptGroups (o : Options) (inputCount : Nat) (gs : List Group) : List Group :=
  coveringGroups o inputCount 0 0 <| gs.mergeSort fun a b => decide (b.fileCount ≤ a.fileCount)

/-! ## Numbers for keys -/

/-- Work that numbers keys; a key's number is its place in the list. -/
abbrev Numbering := EStateM Error (List MetaKey)

def number (key : MetaKey) : Numbering UInt32 := do
  let keys ← get
  match keys.idxOf? key with
  | some i => return UInt32.ofNat i
  | none =>
    set (keys ++ [key])
    return UInt32.ofNat keys.length

def emptySlot : UInt32 := 0xffffffff

def slotNumber (space : MetaSpace) (method : UInt32) : TagRecord → Numbering UInt32
  | .selfMethod => return method
  | .nonOop => return emptySlot
  | .klass _ index _ => do number (← ofExcept (space.key index))
  | .method _ index => do number (← ofExcept (space.key index))
  | record => throw (.corruption (.metadataPosition record))

/-- The assumptions of a blob with numbers in place of slots. Every tag stream must be sound, since
all of them are copied later. -/
def normalize (space : MetaSpace) (method : UInt32) (b : Blob) :
    Numbering (List Speculation × List Dependency) := do
  ofExcept (TagStream.checkIndices space.size b.tagMeta)
  ofExcept (TagStream.checkIndices space.size b.tagOop)
  ofExcept (TagStream.checkIndices space.size b.tagReloc)
  let records ← ofExcept (TagStream.decode b.tagMeta)
  let slots ← records.mapM (slotNumber space method)
  let speculations ← ofExcept do (← b.speculations).mapM (·.remap slots)
  let dependencies ← ofExcept do (← b.dependencies).mapM (·.remap slots)
  return (speculations, dependencies)

/-! ## Collecting versions -/

structure Collected where
  keys : List MetaKey := []
  methods : List MethodVersions := []

namespace Collected

/-- Runs work that numbers keys. Keys stay numbered when it fails. -/
def numbering {α : Type} (s : Collected) (work : Numbering α) : Except Error α × Collected :=
  match work s.keys with
  | .ok a keys => (.ok a, { s with keys })
  | .error e keys => (.error e, { s with keys })

def changeMethod (method : UInt32) (f : MethodVersions → MethodVersions) :
    List MethodVersions → List MethodVersions
  | [] => [f { method }]
  | m :: ms => if m.method = method then f m :: ms else m :: changeMethod method f ms

/-- Counts one blob of a method; an unsound one is passed over. -/
def addBlob (space : MetaSpace) (member : Nat × Nat) (method : UInt32) (s : Collected) (b : Blob) :
    Collected :=
  match s.numbering (normalize space method b) with
  | (.error _, s) => s
  | (.ok (speculations, dependencies), s) =>
    let place : BlobPlace :=
      { file := member.1, container := member.2, offset := b.offset, size := b.header.size }
    { s with methods := changeMethod method (·.add speculations dependencies place) s.methods }

def addChain (space : MetaSpace) (member : Nat × Nat) (method : UInt32) :
    Collected → List (Except Error Blob) → Collected
  | s, [] => s
  | s, .error _ :: _ => s
  | s, .ok b :: rest => addChain space member method (s.addBlob space member method b) rest

def addMethod (space : MetaSpace) (member : Nat × Nat) (c : Container) (s : Collected)
    (entry : UInt32 × UInt32) : Collected :=
  match space.key entry.1 with
  | .error _ => s
  | .ok key =>
    match s.numbering (number key) with
    | (.error _, s) => s
    | (.ok method, s) => s.addChain space member method (c.code.versions entry.2)

def addMember (inputs : List Input) (s : Collected) (member : Nat × Nat) : Collected :=
  match inputs[member.1]? with
  | none => s
  | some input =>
    match input.file.containers[member.2]? with
    | none => s
    | some c => c.methods.foldl (addMethod input.file.space member c) s

end Collected

def collect (inputs : List Input) (g : Group) : Collected :=
  g.members.foldl (Collected.addMember inputs) {}

end CodeCache.Merge
