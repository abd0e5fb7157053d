import CodeCache.Blob.Header
import CodeCache.Bytes.Cursor
import CodeCache.Proofs.Bytes.Reading
import CodeCache.Proofs.Work
import CodeCache.Store.File

/-!
# How far a cursor gets

A reader moves its cursor forwards only, and never past the first multiple of eight
behind the end, whether it fails or not. Where a record of fixed size has room, a
reader of such a record does not fail.
-/

namespace CodeCache

structure Cursor.Within (bs : Bytes) (start : Nat) (c : Cursor) : Prop where
  bytes_eq : c.bytes = bs
  start_le : start ≤ c.position
  le_end : c.position ≤ alignUp bs.length

/-- The reader never moves its cursor back, and not behind the padding of the bytes. -/
def Confined {α : Type} (reader : Read α) : Prop :=
  ∀ bs start, Ensures (Cursor.Within bs start) reader fun _ => True

theorem alignUp_mono {m n : Nat} (h : m ≤ n) : alignUp m ≤ alignUp n := by
  unfold alignUp
  omega

namespace Confined

variable {α β : Type}

theorem of_pure (a : α) : Confined (pure a : Read α) :=
  fun _ _ => Ensures.of_pure trivial

theorem of_throw (e : Error) : Confined (throw e : Read α) :=
  fun _ _ => Ensures.of_throw e

theorem of_bind {reader : Read α} {next : α → Read β} (h : Confined reader)
    (hnext : ∀ a, Confined (next a)) :
    Confined (reader >>= next) :=
  fun bs start => (h bs start).of_bind fun a _ => hnext a bs start

theorem of_bind_pure {reader : Read α} {f : α → β} (h : Confined reader) :
    Confined (reader >>= fun a => pure (f a)) :=
  h.of_bind fun a => of_pure (f a)

theorem of_check {c : Prop} [Decidable c] {e : Error} {f : β → Read α} {reader : Read α}
    (h : Confined reader) :
    Confined (if c then throw e >>= f else reader) :=
  fun bs start => Ensures.of_check fun _ => h bs start

theorem of_bytes (len : Nat) : Confined (Read.bytes len) := by
  intro bs start c hc
  unfold Read.bytes
  cases hslice : c.bytes.slice c.position len with
  | error e => exact hc
  | ok part =>
      obtain ⟨hbytes, hstart, -⟩ := hc
      have hfits : c.position + len ≤ bs.length := by
        unfold Bytes.slice at hslice
        rw [hbytes] at hslice
        split at hslice
        · assumption
        · cases hslice
      refine ⟨⟨hbytes, ?_, ?_⟩, trivial⟩
      · exact Nat.le_add_right_of_le hstart
      · exact Nat.le_trans hfits (le_alignUp _)

theorem of_word {f : Bytes → α} (len : Nat) : Confined (do return f (← Read.bytes len)) :=
  (of_bytes len).of_bind_pure

theorem of_uint16 : Confined Read.uint16 :=
  of_word 2

theorem of_uint32 : Confined Read.uint32 :=
  of_word 4

theorem of_int32 : Confined Read.int32 :=
  of_word 4

theorem of_uint64 : Confined Read.uint64 :=
  of_word 8

theorem of_remaining : Confined Read.remaining := by
  intro bs start c hc
  exact ⟨hc, trivial⟩

theorem of_align : Confined Read.align := by
  intro bs start c hc
  refine ⟨⟨hc.bytes_eq, ?_, ?_⟩, trivial⟩
  · exact Nat.le_trans hc.start_le (le_alignUp c.position)
  · have hend := alignUp_mono hc.le_end
    rwa [alignUp_alignUp] at hend

theorem of_text? : Confined Read.text? := by
  intro bs start c hc
  unfold Read.text?
  cases htext : c.bytes.readText c.position with
  | error fault => exact ⟨hc, trivial⟩
  | ok answer =>
      obtain ⟨s, used⟩ := answer
      have hfits := (Bytes.of_readText htext).1
      rw [hc.bytes_eq] at hfits
      refine ⟨⟨hc.bytes_eq, ?_, ?_⟩, trivial⟩
      · exact Nat.le_add_right_of_le hc.start_le
      · exact Nat.le_trans hfits (le_alignUp _)

theorem of_text : Confined Read.text := by
  refine of_text?.of_bind fun answer => ?_
  cases answer with
  | ok s => exact of_pure s
  | error fault => exact of_throw _

theorem position_le {reader : Read α} (h : Confined reader) (bs : Bytes) :
    match reader { bytes := bs } with
    | .ok _ c => c.position ≤ alignUp bs.length
    | .error _ c => c.position ≤ alignUp bs.length := by
  have hout := h bs 0 { bytes := bs } ⟨rfl, Nat.le_refl 0, Nat.zero_le _⟩
  cases hrun : reader { bytes := bs } with
  | ok a c =>
      rw [hrun] at hout
      exact hout.1.le_end
  | error e c =>
      rw [hrun] at hout
      exact hout.le_end

end Confined

/-!
## The parts of a cache file
-/

theorem Fingerprint.decodePointer_confined : Confined decodePointer := by
  unfold decodePointer
  refine Confined.of_uint64.of_bind fun base => ?_
  refine Confined.of_uint32.of_bind fun shift => ?_
  exact Confined.of_uint32.of_bind_pure

theorem Fingerprint.decodeFlags_confined (n : Nat) : Confined (decodeFlags n) := by
  induction n with
  | zero => exact .of_pure []
  | succ n ih =>
      unfold decodeFlags
      refine Confined.of_uint32.of_bind fun index => ?_
      refine Confined.of_uint32.of_bind fun value => ?_
      exact ih.of_bind_pure

theorem Fingerprint.decoder_confined : Confined decoder := by
  unfold decoder
  refine Confined.of_uint32.of_bind fun objectAlignment => ?_
  refine Confined.of_uint32.of_bind fun paddingWidth => ?_
  refine Confined.of_uint32.of_bind fun allocationStyle => ?_
  refine Confined.of_uint32.of_bind fun count => ?_
  refine decodePointer_confined.of_bind fun narrowOop => ?_
  refine decodePointer_confined.of_bind fun narrowKlass => ?_
  refine Confined.of_remaining.of_bind fun held => ?_
  refine .of_check ?_
  exact (decodeFlags_confined _).of_bind_pure

theorem TableEntry.decode_confined : Confined decode := by
  unfold decode
  refine Confined.of_int32.of_bind fun metaIndex => ?_
  refine Confined.of_uint32.of_bind fun hash => ?_
  refine Confined.of_int32.of_bind fun next => ?_
  exact Confined.of_int32.of_bind_pure

theorem TableEntry.decodeMany_confined (n : Nat) : Confined (decodeMany n) := by
  induction n with
  | zero => exact .of_pure []
  | succ n ih =>
      unfold decodeMany
      refine decode_confined.of_bind fun e => ?_
      exact ih.of_bind_pure

theorem LookupTable.decoder_confined (size : Nat) : Confined (decoder size) := by
  unfold decoder
  refine Confined.of_uint32.of_bind fun buckets => ?_
  refine Confined.of_uint32.of_bind fun count => ?_
  refine Confined.of_remaining.of_bind fun held => ?_
  refine .of_check ?_
  exact (TableEntry.decodeMany_confined _).of_bind_pure

theorem MetaKey.decodeName_confined (i : Nat) (kind : UInt16) : Confined (decodeName i kind) := by
  unfold decodeName
  split
  · exact Confined.of_text.of_bind_pure
  · refine Confined.of_text.of_bind fun holder => ?_
    refine Confined.of_text.of_bind fun name => ?_
    exact Confined.of_text.of_bind_pure
  · exact .of_throw _

theorem MetaKey.decode_confined (i : Nat) : Confined (decode i) := by
  unfold decode
  refine Confined.of_uint16.of_bind fun kind => ?_
  refine Confined.of_uint16.of_bind fun code => ?_
  cases Loader.ofCode? code with
  | none => exact .of_throw _
  | some loader =>
      refine Confined.of_uint32.of_bind fun _ => ?_
      refine Confined.of_uint64.of_bind fun identity => ?_
      refine (decodeName_confined i kind).of_bind fun name => ?_
      exact Confined.of_align.of_bind_pure

theorem MetaSpace.decodeMany_confined (space : MetaSpace) (i n : Nat) :
    Confined (decodeMany space i n) := by
  induction n generalizing space i with
  | zero => exact .of_pure space
  | succ n ih =>
      unfold decodeMany
      refine (MetaKey.decode_confined i).of_bind fun key => ?_
      exact .of_check (ih _ _)

theorem MetaSpace.decoder_confined : Confined decoder := by
  unfold decoder
  refine Confined.of_uint32.of_bind fun count => ?_
  refine Confined.of_uint32.of_bind fun _ => ?_
  refine Confined.of_remaining.of_bind fun held => ?_
  exact .of_check (decodeMany_confined _ _ _)

theorem FileHeader.decode_confined : Confined decode := by
  unfold decode
  refine Confined.of_uint32.of_bind fun found => ?_
  refine .of_check ?_
  refine Confined.of_uint32.of_bind fun headerSize => ?_
  refine Confined.of_uint64.of_bind fun fileSize => ?_
  refine Confined.of_uint64.of_bind fun containerStart => ?_
  refine Confined.of_uint64.of_bind fun containerSize => ?_
  refine Confined.of_uint64.of_bind fun metaStart => ?_
  refine Confined.of_uint64.of_bind fun metaSize => ?_
  refine Confined.of_uint32.of_bind fun containerCount => ?_
  refine Confined.of_uint32.of_bind fun _ => ?_
  refine Confined.of_text?.of_bind fun answer => ?_
  cases answer with
  | error fault => exact .of_throw _
  | ok buildIdentity => exact .of_pure _

theorem BlobHeader.readSection_confined : Confined readSection := by
  unfold readSection
  refine Confined.of_uint32.of_bind fun start => ?_
  exact Confined.of_uint32.of_bind_pure

theorem Container.decodeHeader_confined : Confined decodeHeader := by
  unfold decodeHeader
  refine BlobHeader.readSection_confined.of_bind fun fingerprint => ?_
  refine BlobHeader.readSection_confined.of_bind fun table => ?_
  refine BlobHeader.readSection_confined.of_bind fun code => ?_
  exact Confined.of_uint64.of_bind_pure

/-!
## Records of fixed size
-/

def Takes {α : Type} (size : Nat) (reader : Read α) : Prop :=
  ∀ c : Cursor, c.position + size ≤ c.bytes.length →
    ∃ a, reader c = .ok a { c with position := c.position + size }

namespace Takes

variable {α β : Type} {m n : Nat}

theorem of_pure (a : α) : Takes 0 (pure a : Read α) :=
  fun _ _ => ⟨a, rfl⟩

theorem of_bytes (n : Nat) : Takes n (Read.bytes n) := by
  intro c hfits
  unfold Read.bytes Bytes.slice
  rw [if_pos hfits]
  exact ⟨_, rfl⟩

theorem of_bind {reader : Read α} {next : α → Read β} (h : Takes m reader)
    (hnext : ∀ a, Takes n (next a)) :
    Takes (n + m) (reader >>= next) := by
  intro c hfits
  obtain ⟨a, ha⟩ := h c (by omega)
  obtain ⟨b, hb⟩ := hnext a { c with position := c.position + m } (by simp only; omega)
  rw [run_bind ha, hb]
  exact ⟨b, by simp only [Nat.add_assoc, Nat.add_comm m n]⟩

theorem of_bind_pure {reader : Read α} {f : α → β} (h : Takes m reader) :
    Takes m (reader >>= fun a => pure (f a)) := by
  simpa using h.of_bind fun a => of_pure (f a)

theorem of_uint16 : Takes 2 Read.uint16 :=
  (of_bytes 2).of_bind_pure

theorem of_uint32 : Takes 4 Read.uint32 :=
  (of_bytes 4).of_bind_pure

theorem of_int32 : Takes 4 Read.int32 :=
  (of_bytes 4).of_bind_pure

theorem run {reader : Read α} (h : Takes n reader) {bs : Bytes} (hlength : bs.length = n) :
    ∃ a, reader.run bs = .ok a := by
  obtain ⟨a, ha⟩ := h { bytes := bs } (by simp [hlength])
  unfold Read.run
  rw [ha]
  exact ⟨a, rfl⟩

end Takes

theorem BlobHeader.readSection_takes : Takes 8 readSection := by
  unfold readSection
  refine Takes.of_uint32.of_bind fun start => ?_
  exact Takes.of_uint32.of_bind_pure

theorem BlobHeader.decode_takes : Takes byteSize decode := by
  change Takes 88 decode
  unfold decode
  refine Takes.of_uint32.of_bind fun size => ?_
  refine Takes.of_uint32.of_bind fun codeSize => ?_
  refine Takes.of_uint32.of_bind fun entry => ?_
  refine Takes.of_uint32.of_bind fun verifiedEntry => ?_
  refine Takes.of_uint32.of_bind fun relocStart => ?_
  refine Takes.of_uint32.of_bind fun relocCount => ?_
  refine readSection_takes.of_bind fun deps => ?_
  refine readSection_takes.of_bind fun opts => ?_
  refine Takes.of_uint32.of_bind fun oopCount => ?_
  refine Takes.of_uint32.of_bind fun metaCount => ?_
  refine readSection_takes.of_bind fun tagMeta => ?_
  refine readSection_takes.of_bind fun tagOop => ?_
  refine readSection_takes.of_bind fun tagReloc => ?_
  refine readSection_takes.of_bind fun stackMaps => ?_
  refine Takes.of_int32.of_bind fun nextVersion => ?_
  exact Takes.of_uint32.of_bind_pure

end CodeCache
