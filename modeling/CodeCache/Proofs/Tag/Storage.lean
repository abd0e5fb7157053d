import CodeCache.Proofs.Tag.Reading

/-!
# Stored tag streams

A stored record is read back wherever it starts on a multiple of eight, and a
stored stream holds its records.
-/

namespace CodeCache

namespace TagRecord

variable {place : Nat}

def IsShort : TagRecord → Prop
  | text s => (Utf8.encode s).length < 2 ^ 32
  | _ => True

theorem within_reads {α : Type} {reader : Read α} {bs : Bytes} {a : α}
    (start : Nat) (h : Reads place reader bs a) :
    Reads place (within start reader) bs a :=
  h.of_mapError _

theorem loaderOf_reads (start : Nat) (loader : Loader) :
    Reads place (loaderOf start loader.code) [] loader := by
  unfold loaderOf
  rw [Loader.ofCode?_code]
  exact Reads.of_pure loader

theorem readText_reads (start : Nat) {s : String}
    (h : (Utf8.encode s).length < 2 ^ 32) :
    Reads place (readText start)
      (Bytes.ofUInt32 (UInt32.ofNat (Utf8.encode s).length) ++ Utf8.encode s)
      s := by
  have hsize : (UInt32.ofNat (Utf8.encode s).length).toNat =
      (Utf8.encode s).length :=
    UInt32.toNat_ofNat_of_lt' h
  unfold readText
  refine (within_reads start (Reads.of_uint32 _)).of_bind ?_
  rw [hsize]
  refine (within_reads start (Reads.of_bytes _)).of_bind_nil ?_
  rw [Utf8.decode_encode]
  exact Reads.of_pure s

theorem readState_reads (start : Nat) (state : InitState) :
    Reads place (readState start) (Bytes.ofUInt32 state.code) state := by
  unfold readState
  refine (within_reads start (Reads.of_uint32 _)).of_bind_nil ?_
  rw [InitState.ofCode?_code]
  exact Reads.of_pure state

theorem ofIndex?_index (o : KnownObject) :
    KnownObject.ofIndex? o.index = some o := by
  rcases o with ⟨number⟩
  revert number
  decide

theorem decodeOperands_reads (start : Nat) {r : TagRecord} (h : r.IsShort) :
    Reads place (decodeOperands start r.tag r.half) r.operands r := by
  have hword : ∀ (p : Nat) (f : UInt32 → TagRecord) (v : UInt32),
      Reads p (within start Read.uint32 >>= fun v => pure (f v))
        (Bytes.ofUInt32 v) (f v) :=
    fun p f v => (within_reads start (Reads.of_uint32 v)).of_bind_pure
  have hclass : ∀ (f : Loader → UInt32 → InitState → TagRecord)
      (loader : Loader) (index : UInt32) (state : InitState),
      Reads place (loaderOf start loader.code >>= fun loader =>
        within start Read.uint32 >>= fun index =>
          readState start >>= fun state => pure (f loader index state))
        ([] ++ (Bytes.ofUInt32 index ++ Bytes.ofUInt32 state.code))
        (f loader index state) := by
    intro f loader index state
    refine (loaderOf_reads start loader).of_bind ?_
    refine (within_reads start (Reads.of_uint32 index)).of_bind ?_
    exact (readState_reads start state).of_bind_pure
  cases r with
  | global kind offset =>
      unfold decodeOperands tag half
      dsimp only
      rw [GlobalKind.ofCode?_toUInt16]
      exact hword place (global kind) offset
  | text s => exact (readText_reads start h).of_bind_pure
  | loaderObject loader => exact (loaderOf_reads start loader).of_bind_pure
  | knownObject o =>
      refine (within_reads start (Reads.of_uint32 o.index)).of_bind_nil ?_
      rw [ofIndex?_index]
      exact Reads.of_pure _
  | selfMethod => exact Reads.of_pure _
  | internalWord offset => exact hword place internalWord offset
  | klass loader index state => exact hclass klass loader index state
  | mirror loader index state => exact hclass mirror loader index state
  | method loader index =>
      exact (loaderOf_reads start loader).of_bind
        (hword _ (method loader) index)
  | skip => exact Reads.of_pure _
  | nonOop => exact Reads.of_pure _
  | finish => exact Reads.of_pure _

theorem decode_reads {r : TagRecord} (h : r.IsShort) :
    Reads 0 decode r.encode r := by
  unfold encode
  rw [Bytes.padded_eq]
  simp only [List.append_assoc]
  unfold decode
  refine Reads.of_position ?_
  intro start hstart
  refine Reads.of_check ?_ ?_
  · unfold isAligned
    rw [hstart]
    decide
  refine (within_reads start (Reads.of_uint16 _)).of_bind ?_
  refine (within_reads start (Reads.of_uint16 _)).of_bind ?_
  refine (decodeOperands_reads start h).of_bind ?_
  refine ((Reads.of_align _).of_place_eq ?_).of_bind_pure
  simp only [List.length_append, Nat.zero_add, Nat.add_assoc]

theorem length_encode_mod (r : TagRecord) : r.encode.length % 8 = 0 := by
  unfold encode
  rw [Bytes.length_padded, alignUp_mod]

theorem length_encode_pos (r : TagRecord) : 0 < r.encode.length := by
  rw [length_encode]
  cases r with
  | text s =>
      have hle := le_alignUp (8 + (Utf8.encode s).length)
      show 0 < alignUp (8 + (Utf8.encode s).length)
      omega
  | _ => exact Nat.zero_lt_succ _

theorem isShort_of_length {r : TagRecord} (h : r.encode.length < 2 ^ 32) :
    r.IsShort := by
  cases r with
  | text s =>
      have hle := le_alignUp (8 + (Utf8.encode s).length)
      rw [length_encode] at h
      change alignUp (8 + (Utf8.encode s).length) < _ at h
      exact show (Utf8.encode s).length < _ by omega
  | _ => trivial

end TagRecord

namespace TagStream

theorem holds_append {records : List TagRecord} (pre post : Bytes)
    (hpre : pre.length % 8 = 0) (hshort : ∀ r ∈ records, r.IsShort)
    (hfinish : ∀ r ∈ records, r ≠ .finish) :
    Holds ⟨pre ++ encode records ++ post, pre.length⟩ records := by
  induction records generalizing pre with
  | nil =>
      have hread := TagRecord.decode_reads (r := .finish) trivial
      exact .finish (hread pre post hpre)
  | cons r records ih =>
      have hread := TagRecord.decode_reads (hshort r List.mem_cons_self)
        pre (encode records ++ post) hpre
      have hall : pre ++ encode (r :: records) ++ post =
          pre ++ r.encode ++ (encode records ++ post) := by
        unfold encode
        simp only [List.flatMap_cons, List.append_assoc]
      rw [hall]
      refine .cons hread (hfinish r List.mem_cons_self) ?_
      have hrest := ih (pre ++ r.encode)
        (by rw [List.length_append]; have := r.length_encode_mod; omega)
        (fun s hs => hshort s (List.mem_cons_of_mem _ hs))
        (fun s hs => hfinish s (List.mem_cons_of_mem _ hs))
      rw [List.length_append] at hrest
      simpa only [List.append_assoc] using hrest

theorem length_encode (records : List TagRecord) :
    (encode records).length = 8 + (records.map TagRecord.encodedSize).sum := by
  unfold encode
  rw [List.length_append, List.length_flatMap, TagRecord.length_encode,
    Nat.add_comm]
  simp only [TagRecord.length_encode]
  rfl

theorem length_lt_length_encode (records : List TagRecord) :
    records.length < (encode records).length := by
  have hle := Bytes.length_le_length_flatMap TagRecord.length_encode_pos records
  have hend := TagRecord.length_encode_pos .finish
  unfold encode
  rw [List.length_append]
  omega

theorem isShort_of_mem {records : List TagRecord} {r : TagRecord}
    (h : (encode records).length < 2 ^ 32) (hr : r ∈ records) :
    r.IsShort := by
  have hle := Bytes.length_le_flatMap hr TagRecord.encode
  unfold encode at h
  rw [List.length_append] at h
  exact TagRecord.isShort_of_length (by omega)

theorem holds_encode {records : List TagRecord}
    (hshort : ∀ r ∈ records, r.IsShort)
    (hfinish : ∀ r ∈ records, r ≠ .finish) :
    Holds { bytes := encode records } records := by
  have hall := holds_append [] [] rfl hshort hfinish
  rw [List.nil_append, List.append_nil] at hall
  exact hall

end TagStream

end CodeCache
