import CodeCache.Bytes.Cursor
import CodeCache.Host.Basic
import CodeCache.Redefinition

/-!
# The metaspace

Saved code names classes and methods by index into a table of keys, the metaspace. Saving interns
the entities that the code mentions. Loading resolves an entry when it is first needed: the live
entity found by name counts only if its identity and loader are those of the key, and it is trusted
until the next class redefinition.
-/

namespace CodeCache

namespace MetaKey

/-- The key of a live entity; entities of custom loaders have none. -/
def of (host : Host) (entity : Entity) : Except Error MetaKey :=
  let loader := host.entityLoader entity
  if loader = .custom then .error (.unresolved (.customLoader (host.entityName entity)))
  else
    let name : MetaName :=
      match entity with
      | .klass k => .klass (host.className k)
      | .method m =>
        .method (host.className (host.methodHolder m)) (host.methodName m) (host.methodSignature m)
    .ok { name, identity := host.entityIdentity entity, loader }

/-- The live entity that the key's name and loader lead to. -/
def lookup (host : Host) (key : MetaKey) : Option Entity :=
  match key.name with
  | .klass name => (host.findClass name key.loader).map .klass
  | .method holder name signature =>
    (host.findClass holder key.loader).bind fun k =>
      (host.findMethod k name signature).map .method

def fits (host : Host) (key : MetaKey) (entity : Entity) : Bool :=
  host.entityIdentity entity == key.identity && host.entityLoader entity == key.loader

def resolve (host : Host) (key : MetaKey) : Except Error Entity :=
  match key.lookup host with
  | none => .error (.unresolved (.notFound key))
  | some entity =>
    if host.entityLoader entity ≠ key.loader then
      .error (.unresolved (.otherLoader key (host.entityLoader entity)))
    else if host.entityIdentity entity ≠ key.identity then
      .error (.unresolved (.otherIdentity key (host.entityIdentity entity)))
    else .ok entity

def encodeBody (key : MetaKey) : Bytes :=
  Bytes.ofUInt16 (if key.name.isMethod then 2 else 1) ++ Bytes.ofUInt16 key.loader.code
    ++ Bytes.ofUInt32 0 ++ Bytes.ofUInt64 key.identity ++
    match key.name with
    | .klass name => Bytes.ofText name
    | .method holder name signature =>
      Bytes.ofText holder ++ Bytes.ofText name ++ Bytes.ofText signature

def encode (key : MetaKey) : Bytes :=
  Bytes.padded key.encodeBody

def decodeName (i : Nat) (kind : UInt16) : Read MetaName := do
  match kind.toNat with
  | 1 => return .klass (← Read.text)
  | 2 =>
    let holder ← Read.text
    let name ← Read.text
    let signature ← Read.text
    return .method holder name signature
  | _ => throw (.corruption (.metaKind i kind))

def decode (i : Nat) : Read MetaKey := do
  let kind ← Read.uint16
  let code ← Read.uint16
  let some loader := Loader.ofCode? code
    | throw (.corruption (.metaLoader i))
  let _ ← Read.uint32
  let identity ← Read.uint64
  let name ← decodeName i kind
  Read.align
  return { name, identity, loader }

end MetaKey

structure MetaEntry where
  key : MetaKey
  live : Option Entity := none
  checked : Stamp := {}
  deriving DecidableEq, Repr

/-- The live entity, if no redefinition happened since it was checked. -/
def MetaEntry.current? (entry : MetaEntry) (epoch : Epoch) : Option Entity :=
  if entry.checked.isCurrent epoch then entry.live else none

structure MetaSpace where
  entries : List MetaEntry := []
  interned : List (Entity × UInt32) := []
  deriving Repr

/-- Work that interns or resolves entries; what it did stays done when it fails. -/
abbrev InSpace := EStateM Error MetaSpace

namespace MetaSpace

def size (space : MetaSpace) : Nat :=
  space.entries.length

def keys (space : MetaSpace) : List MetaKey :=
  space.entries.map (·.key)

def find (space : MetaSpace) (key : MetaKey) : Option UInt32 :=
  (space.entries.findIdx? (·.key == key)).map UInt32.ofNat

def entry? (space : MetaSpace) (index : UInt32) : Option MetaEntry :=
  space.entries[index.toNat]?

def key (space : MetaSpace) (index : UInt32) : Except Error MetaKey :=
  match space.entry? index with
  | some entry => .ok entry.key
  | none => .error (.corruption (.metaIndex index space.size))

def name (space : MetaSpace) (index : UInt32) : String :=
  match space.entry? index with
  | some entry => entry.key.name.display
  | none => s!"<bad meta index {index}>"

def setEntry (space : MetaSpace) (index : UInt32) (entry : MetaEntry) : MetaSpace :=
  { space with entries := space.entries.set index.toNat entry }

def internKey (space : MetaSpace) (key : MetaKey) : MetaSpace × UInt32 :=
  match space.find key with
  | some index => (space, index)
  | none => ({ space with entries := space.entries ++ [{ key }] }, UInt32.ofNat space.size)

/-- The index of a live entity. An entity interned before keeps its index without another look at
its key. -/
def intern (host : Host) (entity : Entity) : InSpace UInt32 := do
  let space ← get
  match space.interned.lookup entity with
  | some index => return index
  | none =>
    match MetaKey.of host entity with
    | .error e => throw e
    | .ok key =>
      let (space, index) := space.internKey key
      let space := { space with interned := (entity, index) :: space.interned }
      set <|
        match space.entry? index with
        | some entry => space.setEntry index { entry with live := some entity }
        | none => space
      return index

/-- What resolving one entry answers, and the entry afterwards. An entity that was resolved before
and no longer matches is cleared, whether or not another is found. -/
def resolveEntry (host : Host) (epoch : Epoch) (entry : MetaEntry) :
    Except Error Entity × MetaEntry :=
  match entry.current? epoch with
  | some live => (.ok live, entry)
  | none =>
    match entry.live.filter (entry.key.fits host) with
    | some live => (.ok live, { entry with checked := .of epoch.value })
    | none =>
      let cleared :=
        if entry.live.isSome then { entry with live := none, checked := .never } else entry
      match entry.key.resolve host with
      | .ok live => (.ok live, { cleared with live := some live, checked := .of epoch.value })
      | .error e => (.error e, cleared)

def resolve (host : Host) (epoch : Epoch) (index : UInt32) : InSpace Entity := do
  let space ← get
  match space.entry? index with
  | none => throw (.corruption (.metaIndex index space.size))
  | some entry =>
    let (answer, entry) := resolveEntry host epoch entry
    set (space.setEntry index entry)
    match answer with
    | .ok live => return live
    | .error e => throw e

def resolved? (space : MetaSpace) (epoch : Epoch) (index : UInt32) : Option Entity :=
  (space.entry? index).bind (·.current? epoch)

/-! ## Stored form and listing -/

def encode (space : MetaSpace) : Bytes :=
  Bytes.ofUInt32 (UInt32.ofNat space.size) ++ Bytes.ofUInt32 0
    ++ space.keys.flatMap MetaKey.encode

def decodeMany (space : MetaSpace) (i : Nat) : Nat → Read MetaSpace
  | 0 => pure space
  | n + 1 => do
    let key ← MetaKey.decode i
    let (space, index) := space.internKey key
    if index.toNat ≠ i then
      throw (.corruption (.metaDuplicate i index.toNat))
    decodeMany space (i + 1) n

def decoder : Read MetaSpace := do
  let count ← Read.uint32
  let _ ← Read.uint32
  let held ← Read.remaining
  if held / 16 < count.toNat then
    throw (.corruption (.metaCount count.toNat held))
  decodeMany {} 0 count.toNat

def decode (bs : Bytes) : Except Error MetaSpace :=
  decoder.run bs

def print (space : MetaSpace) : String :=
  Layout.lines <|
    s!"  MetaSpace: {space.size} entries" ::
      space.keys.mapIdx fun i key =>
        "    " ++ Layout.padLeft 5 (toString i) ++ " " ++ key.display

end MetaSpace

end CodeCache
