import CodeCache.Metadata.Space
import CodeCache.Tag.Record

/-!
# Tag streams

A tag stream is a list of tag records with an end mark. A stored record is a tag, a half word that
holds a loader or a kind, and operands; strings are stored with their length, so they may hold any
character. Every record starts and ends on a multiple of eight bytes.

What a stream holds is told once, by `scan`: the records before the end mark, with their positions,
and the failure that cut the stream short. Decoding, listing and every other pass are read off it.
-/

namespace CodeCache

namespace TagRecord

def half : TagRecord → UInt16
  | global kind _ => kind.toUInt16
  | loaderObject loader => loader.code
  | klass loader _ _ => loader.code
  | mirror loader _ _ => loader.code
  | method loader _ => loader.code
  | _ => 0

def operands : TagRecord → Bytes
  | global _ offset => Bytes.ofUInt32 offset
  | text s =>
    let bs := Utf8.encode s
    Bytes.ofUInt32 (UInt32.ofNat bs.length) ++ bs
  | knownObject o => Bytes.ofUInt32 o.index
  | internalWord offset => Bytes.ofUInt32 offset
  | klass _ index minState => Bytes.ofUInt32 index ++ Bytes.ofUInt32 minState.code
  | mirror _ index minState => Bytes.ofUInt32 index ++ Bytes.ofUInt32 minState.code
  | method _ index => Bytes.ofUInt32 index
  | _ => []

def encode (r : TagRecord) : Bytes :=
  Bytes.padded (Bytes.ofUInt16 r.tag ++ Bytes.ofUInt16 r.half ++ r.operands)

def encodedSize : TagRecord → Nat
  | klass .. => 16
  | mirror .. => 16
  | text s => alignUp (8 + (Utf8.encode s).length)
  | _ => 8

theorem length_encode (r : TagRecord) : r.encode.length = r.encodedSize := by
  rw [encode, Bytes.length_padded]
  cases r <;> simp [operands, encodedSize, alignUp, Nat.add_assoc]
  omega

/-! ## Reading one record -/

/-- A read inside the record at `start`: running out of bytes is a malformed record. -/
def within {α : Type} (start : Nat) (reader : Read α) : Read α :=
  reader.mapError fun
    | .format (.short r) => .corruption (.tagShort start r)
    | e => e

def loaderOf (start : Nat) (code : UInt16) : Read Loader :=
  match Loader.ofCode? code with
  | some loader => pure loader
  | none => throw (.corruption (.tagLoader start code))

def readText (start : Nat) : Read String := do
  let size ← within start Read.uint32
  let bs ← within start (Read.bytes size.toNat)
  match Utf8.decode bs with
  | .ok s => return s
  | .error fault => throw (.corruption (.tagText start fault))

def readState (start : Nat) : Read InitState := do
  let code ← within start Read.uint32
  match InitState.ofCode? code with
  | some state => return state
  | none => throw (.corruption (.tagState code start))

def decodeOperands (start : Nat) (tag half : UInt16) : Read TagRecord := do
  match tag.toNat with
  | 0 => throw (.corruption (.tagReserved "Invalid" start))
  | 1 =>
    match GlobalKind.ofCode? half with
    | some kind => return global kind (← within start Read.uint32)
    | none => throw (.corruption (.tagGlobal half start))
  | 2 => return text (← readText start)
  | 3 => return loaderObject (← loaderOf start half)
  | 4 =>
    let index ← within start Read.uint32
    match KnownObject.ofIndex? index with
    | some o => return knownObject o
    | none => throw (.corruption (.tagKnown index start))
  | 5 => throw (.corruption (.tagReserved "MetaMethodData" start))
  | 6 => return selfMethod
  | 7 => return internalWord (← within start Read.uint32)
  | 8 =>
    let loader ← loaderOf start half
    let index ← within start Read.uint32
    return klass loader index (← readState start)
  | 9 =>
    let loader ← loaderOf start half
    let index ← within start Read.uint32
    return mirror loader index (← readState start)
  | 10 =>
    let loader ← loaderOf start half
    return method loader (← within start Read.uint32)
  | 11 => return skip
  | 12 => return nonOop
  | 13 => return finish
  | _ => throw (.corruption (.tagCode tag start))

def decode : Read TagRecord := do
  let start ← Read.position
  if !isAligned start then
    throw (.corruption (.tagMisaligned start))
  let tag ← within start Read.uint16
  let half ← within start Read.uint16
  let record ← decodeOperands start tag half
  Read.align
  return record

def decodeEnd : Read Unit := do
  match ← decode with
  | finish => return ()
  | record => throw (.corruption (.tagNotEnd (← Read.position) record))

end TagRecord

namespace TagStream

def encode (records : List TagRecord) : Bytes :=
  records.flatMap TagRecord.encode ++ TagRecord.finish.encode

structure Scan where
  records : List (Nat × TagRecord) := []
  fault : Option Error := none

def scanFrom : Nat → Cursor → Scan
  | 0, _ => {}
  | steps + 1, c =>
    match TagRecord.decode c with
    | .error e _ => { fault := some e }
    | .ok .finish _ => {}
    | .ok record next =>
      let rest := scanFrom steps next
      { rest with records := (c.position, record) :: rest.records }

/-- What a stream holds. A record takes at least eight bytes, so there are no more records than
bytes. -/
def scan (bs : Bytes) : Scan :=
  scanFrom (bs.length + 1) { bytes := bs }

/-- Visits the records in order; a failure of the stream comes after its records. -/
def walk {α : Type} (visit : Nat → TagRecord → Except Error α) (bs : Bytes) :
    Except Error (List α) := do
  let s := scan bs
  let results ← s.records.mapM fun (position, record) => visit position record
  match s.fault with
  | some e => throw e
  | none => return results

def decode (bs : Bytes) : Except Error (List TagRecord) :=
  walk (fun _ record => .ok record) bs

def metaIndices (bs : Bytes) : Except Error (List UInt32) :=
  (·.filterMap id) <$> walk (fun _ record => .ok record.metaIndex?) bs

def knownObjects (bs : Bytes) : Except Error (List KnownObject) :=
  (·.filterMap id) <$> walk
    (fun _ record => .ok (match record with | .knownObject o => some o | _ => none)) bs

def nameOf (space : MetaSpace) (record : TagRecord) : Except Error (Option String) :=
  match record with
  | .text s => .ok (some (Quoted.quote s))
  | .knownObject o => .ok (some o.name)
  | .global kind _ => .ok (some kind.name)
  | record =>
    match record.metaIndex? with
    | some index => (fun key => some key.name.display) <$> space.key index
    | none => .ok none

def names (space : MetaSpace) (bs : Bytes) : Except Error (List String) :=
  (·.filterMap id) <$> walk (fun _ record => nameOf space record) bs

def checkIndices (count : Nat) (bs : Bytes) : Except Error Unit := do
  let _ ← walk (fun position record =>
    match record.metaIndex? with
    | some index =>
      if index.toNat < count then .ok ()
      else .error (.corruption (.tagIndex record position count))
    | none => .ok ()) bs

def reindex (f : UInt32 → Except Error UInt32) (bs : Bytes) : Except Error Bytes :=
  encode <$> walk (fun _ record => record.mapIndexM f) bs

/-- Listing of a stream, one record a line, each after its position. A malformed stream is listed up
to the bad record. -/
def print (name : UInt32 → String) (margin : String) (bs : Bytes) : String :=
  let s := scan bs
  let line : Nat × TagRecord → String := fun (position, record) =>
    let shown := match record.metaIndex? with
      | some index => " (" ++ name index ++ ")"
      | none => ""
    margin ++ Layout.padLeft 5 (toString position) ++ ": " ++ record.describe ++ shown
  let last := s.fault.toList.map fun e => margin ++ "<" ++ e.message ++ ">"
  Layout.lines (s.records.map line ++ last)

end TagStream

end CodeCache
