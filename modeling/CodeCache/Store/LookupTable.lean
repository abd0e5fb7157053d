import CodeCache.Bytes.Cursor
import CodeCache.Bytes.Hash

/-!
# Lookup tables

A lookup table leads from a method's name to its first blob. It is one array of fixed-size entries:
the first entries are the buckets, entries that collide are appended behind them and chained by byte
offset, so the table can be read straight out of a file. Several methods may share a name; the
caller says which of the entries found is the one.
-/

namespace CodeCache

structure TableEntry where
  /-- Metaspace index of the method; negative for an empty bucket. -/
  metaIndex : Int32 := -1
  hash : UInt32 := 0
  /-- Byte offset of the next entry of the chain; zero for none. -/
  next : Int32 := 0
  codeOffset : Int32 := -1
  deriving DecidableEq, Repr, Inhabited

namespace TableEntry

def isEmpty (e : TableEntry) : Bool :=
  e.metaIndex < 0

def byteSize : Nat := 16

def encode (e : TableEntry) : Bytes :=
  Bytes.ofInt32 e.metaIndex ++ Bytes.ofUInt32 e.hash ++ Bytes.ofInt32 e.next
    ++ Bytes.ofInt32 e.codeOffset

def decode : Read TableEntry := do
  let metaIndex ← Read.int32
  let hash ← Read.uint32
  let next ← Read.int32
  let codeOffset ← Read.int32
  return { metaIndex, hash, next, codeOffset }

def decodeMany : Nat → Read (List TableEntry)
  | 0 => pure []
  | n + 1 => return (← decode) :: (← decodeMany n)

end TableEntry

inductive KeyMatch where
  | exact
  | nameOnly
  | different
  deriving DecidableEq, Repr

inductive Lookup where
  | found (entry : Nat)
  | foundWithName
  | notFound
  deriving DecidableEq, Repr

structure LookupTable where
  bucketCount : Nat
  entries : List TableEntry
  deriving DecidableEq, Repr

namespace LookupTable

def nameHash (name : String) : UInt32 :=
  Hash.stable 0 (Utf8.encode name)

def minBuckets : Nat := 10

def headerSize : Nat := 8

def sized (expected : Nat) : LookupTable :=
  let bucketCount := max expected minBuckets
  { bucketCount, entries := List.replicate bucketCount {} }

def occupied (t : LookupTable) : List (Nat × TableEntry) :=
  (t.entries.mapIdx fun i e => (i, e)).filter fun (_, e) => !e.isEmpty

def size (t : LookupTable) : Nat :=
  t.occupied.length

def bucket (t : LookupTable) (hash : UInt32) : Nat :=
  hash.toNat % t.bucketCount

def offsetOf (place : Nat) : Int32 :=
  Int32.ofNat (headerSize + place * TableEntry.byteSize)

/-- The place of the entry at a byte offset. Negative offsets are read as very large ones. -/
def placeOf (offset : Int32) : Except Error Nat :=
  let offset := (offset.toInt % UInt64.size).toNat
  if offset < headerSize ∨ (offset - headerSize) % TableEntry.byteSize ≠ 0 then
    .error (.corruption (.chainMisaligned offset))
  else .ok ((offset - headerSize) / TableEntry.byteSize)

/-- The places of a chain from one on, at most `steps` of them; what breaks the chain comes last. An
entry with a bad link is not visited. -/
def chainFrom (t : LookupTable) : Nat → Nat → List (Except Error Nat)
  | steps, place =>
    match t.entries[place]? with
    | none => [.error (.corruption (.chainOutside place))]
    | some e =>
      match steps with
      | 0 => [.error (.corruption .chainEndless)]
      | steps + 1 =>
        if e.next = 0 then [.ok place]
        else
          match placeOf e.next with
          | .error fault => [.error fault]
          | .ok next => .ok place :: chainFrom t steps next

def chain (t : LookupTable) (hash : UInt32) : List (Except Error Nat) :=
  t.chainFrom t.entries.length (t.bucket hash)

def firstOf (test : Nat → Bool) : List (Except Error Nat) → Except Error (Option Nat)
  | [] => .ok none
  | .error e :: _ => .error e
  | .ok place :: rest => if test place then .ok (some place) else firstOf test rest

def entryAt (t : LookupTable) (place : Nat) : TableEntry :=
  t.entries.getD place {}

def setEntry (t : LookupTable) (place : Nat) (e : TableEntry) : LookupTable :=
  { t with entries := t.entries.set place e }

/-- The table with an entry for a method, and its place. A new entry goes into its bucket, or right
behind the bucket in the chain. -/
def insert (t : LookupTable) (metaIndex : UInt32) (name : String) :
    Except Error (LookupTable × Nat) := do
  let hash := nameHash name
  let head := t.bucket hash
  let entry : TableEntry := { metaIndex := metaIndex.toInt32, hash }
  if (t.entryAt head).isEmpty then
    return (t.setEntry head entry, head)
  else
    match ← firstOf (fun place => (t.entryAt place).metaIndex == metaIndex.toInt32)
        (t.chain hash) with
    | some place => return (t, place)
    | none =>
      let place := t.entries.length
      let linked := { t with
        entries := t.entries ++ [{ entry with next := (t.entryAt head).next }] }
      return (linked.setEntry head { t.entryAt head with next := offsetOf place }, place)

/-- Goes through a chain: the first exact match ends the search; `nameSeen` says whether an entry of
the same name was met. -/
def search (t : LookupTable) (hash : UInt32) (compare : UInt32 → KeyMatch) :
    Bool → List (Except Error Nat) → Except Error Lookup
  | nameSeen, [] => .ok (if nameSeen then .foundWithName else .notFound)
  | _, .error e :: _ => .error e
  | nameSeen, .ok place :: rest =>
    let e := t.entryAt place
    if e.isEmpty || e.hash != hash then search t hash compare nameSeen rest
    else
      match compare e.metaIndex.toUInt32 with
      | .exact => .ok (.found place)
      | .nameOnly => search t hash compare true rest
      | .different => search t hash compare nameSeen rest

def find (t : LookupTable) (name : String) (compare : UInt32 → KeyMatch) : Except Error Lookup :=
  t.search (nameHash name) compare false (t.chain (nameHash name))

def metaIndex (t : LookupTable) (place : Nat) : UInt32 :=
  (t.entryAt place).metaIndex.toUInt32

def codeOffset? (t : LookupTable) (place : Nat) : Option UInt32 :=
  let offset := (t.entryAt place).codeOffset
  if 0 ≤ offset then some offset.toUInt32 else none

def setCodeOffset (t : LookupTable) (place : Nat) (offset : UInt32) : LookupTable :=
  t.setEntry place { t.entryAt place with codeOffset := offset.toInt32 }

/-! ## Stored form and listing -/

def encodedSize (t : LookupTable) : Nat :=
  headerSize + t.entries.length * TableEntry.byteSize

def encode (t : LookupTable) : Bytes :=
  Bytes.ofUInt32 (UInt32.ofNat t.bucketCount) ++ Bytes.ofUInt32 (UInt32.ofNat t.entries.length)
    ++ t.entries.flatMap TableEntry.encode

def decoder (size : Nat) : Read LookupTable := do
  let bucketCount := (← Read.uint32).toNat
  let count := (← Read.uint32).toNat
  let held ← Read.remaining
  if bucketCount = 0 ∨ count < bucketCount ∨ held / TableEntry.byteSize < count then
    throw (.corruption (.tableShape bucketCount count size))
  return { bucketCount, entries := ← TableEntry.decodeMany count }

def decode (bs : Bytes) : Except Error LookupTable :=
  (decoder bs.length).run bs

def print (name : UInt32 → String) (t : LookupTable) : String :=
  let line : Nat × TableEntry → String := fun (i, e) =>
    "    [" ++ Layout.padLeft 4 (toString i) ++ "] hash=" ++ Layout.hexWide 8 e.hash.toNat
      ++ " code=" ++ Layout.padLeft 8 (toString e.codeOffset.toInt)
      ++ " next=" ++ Layout.padLeft 6 (toString e.next.toInt)
      ++ " " ++ name e.metaIndex.toUInt32
  Layout.lines <|
    s!"  LookupTable: {t.bucketCount} buckets, {t.size} entries" :: t.occupied.map line

@[simp] theorem length_encode (t : LookupTable) : t.encode.length = t.encodedSize := by
  have h : ∀ es : List TableEntry,
      (es.flatMap TableEntry.encode).length = es.length * TableEntry.byteSize := by
    intro es
    induction es with
    | nil => rfl
    | cons e es ih =>
      simp only [List.flatMap_cons, List.length_append, ih, List.length_cons, Nat.succ_mul]
      simp [TableEntry.encode, TableEntry.byteSize, Nat.add_comm]
  simp [encode, encodedSize, headerSize, h]
  omega

end LookupTable

end CodeCache
