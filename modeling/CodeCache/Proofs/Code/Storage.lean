import CodeCache.Code.Relocation
import CodeCache.Code.StackMap
import CodeCache.Proofs.Bytes.Reading

/-!
# Stored relocations and stack maps

Both are read back as they were written.
-/

namespace CodeCache

namespace Relocation

theorem decode_reads (r : Relocation) (place : Nat) :
    Reads place decode r.encode r := by
  rcases r with ⟨offset, kind⟩
  have hflag : ∀ flag : Bool,
      ((if flag then 1 else 0 : UInt16) != 0) = flag := by
    intro flag
    cases flag <;> rfl
  unfold decode encode
  simp only [List.append_assoc]
  refine (Reads.of_uint32 _).of_bind ?_
  refine (Reads.of_uint16 _).of_bind ?_
  refine (Reads.of_uint16 _).of_bind ?_
  refine (Reads.of_uint32 _).of_bind ?_
  rw [← List.append_nil (Bytes.ofUInt32 kind.operands.2.2)]
  refine (Reads.of_uint32 _).of_bind ?_
  rw [hflag, RelocKind.ofOperands?_operands]
  exact Reads.of_pure _

theorem decodeMany_reads (relocs : List Relocation) (place : Nat) :
    Reads place (decodeMany relocs.length) (encodeAll relocs) relocs := by
  induction relocs generalizing place with
  | nil => exact Reads.of_pure []
  | cons r relocs ih =>
      unfold encodeAll
      rw [List.flatMap_cons, List.length_cons]
      unfold decodeMany
      refine (decode_reads r place).of_bind ?_
      exact (ih _).of_bind_pure

theorem length_encodeAll (relocs : List Relocation) :
    (encodeAll relocs).length = relocs.length * size := by
  unfold encodeAll
  induction relocs with
  | nil => exact (Nat.zero_mul _).symm
  | cons r relocs ih =>
      rw [List.flatMap_cons, List.length_append, ih, length_encode,
        List.length_cons, Nat.succ_mul, Nat.add_comm]

end Relocation

namespace StackMap

theorem decode_reads {m : StackMap} (h : m.data.length < 2 ^ 32) (i : Nat) :
    Reads 0 (decode i) m.encode m := by
  have hsize : (UInt32.ofNat m.data.length).toNat = m.data.length :=
    UInt32.toNat_ofNat_of_lt' h
  unfold encode
  rw [Bytes.padded_eq]
  simp only [List.append_assoc]
  unfold decode
  refine (Reads.of_uint32 _).of_bind ?_
  refine (Reads.of_uint32 _).of_bind ?_
  refine (Reads.of_uint32 _).of_bind ?_
  rw [hsize]
  refine ((Reads.of_bytes m.data).of_mapError _).of_bind ?_
  refine ((Reads.of_align _).of_place_eq ?_).of_bind_pure
  simp only [List.length_append, Nat.zero_add, Nat.add_assoc]

theorem decodeMany_reads {maps : List StackMap}
    (h : ∀ m ∈ maps, m.data.length < 2 ^ 32) (i : Nat) :
    Reads 0 (decodeMany i maps.length) (maps.flatMap encode) maps := by
  induction maps generalizing i with
  | nil => exact Reads.of_pure []
  | cons m maps ih =>
      rw [List.flatMap_cons, List.length_cons]
      unfold decodeMany
      refine (decode_reads (h m List.mem_cons_self) i).of_bind ?_
      have hrest := ih (fun n hn => h n (List.mem_cons_of_mem _ hn)) (i + 1)
      refine (hrest.of_place_eq ?_).of_bind_pure
      rw [length_encode, Nat.zero_add, alignUp_mod]

theorem length_flatMap_encode (maps : List StackMap) :
    (maps.flatMap encode).length = encodedSize maps - 8 := by
  have hsum : (maps.flatMap encode).length =
      (maps.map fun m => alignUp (12 + m.data.length)).sum := by
    induction maps with
    | nil => rfl
    | cons m maps ih =>
        rw [List.flatMap_cons, List.length_append, ih, length_encode,
          List.map_cons, List.sum_cons]
  rw [hsum]
  exact (Nat.add_sub_cancel_left 8 _).symm

theorem length_encode_pos (m : StackMap) : 0 < m.encode.length := by
  have hle := le_alignUp (12 + m.data.length)
  rw [length_encode]
  omega

theorem decodeAll_encodeAll {maps : List StackMap}
    (h : (encodeAll maps).length < 2 ^ 32) :
    decodeAll (encodeAll maps) = .ok maps := by
  have hlength : (encodeAll maps).length =
      8 + (maps.flatMap encode).length := by
    unfold encodeAll
    simp only [List.length_append, Bytes.length_ofUInt32]
  have hcount : (UInt32.ofNat maps.length).toNat = maps.length := by
    have hle := Bytes.length_le_length_flatMap length_encode_pos maps
    exact UInt32.toNat_ofNat_of_lt' (show _ < 2 ^ 32 by omega)
  have hsize : (UInt32.ofNat (encodedSize maps - 8)).toNat =
      (maps.flatMap encode).length := by
    rw [← length_flatMap_encode]
    exact UInt32.toNat_ofNat_of_lt' (show _ < 2 ^ 32 by omega)
  have hshort : ∀ m ∈ maps, m.data.length < 2 ^ 32 := by
    intro m hm
    have hle := Bytes.length_le_flatMap hm encode
    have hpad := le_alignUp (12 + m.data.length)
    rw [length_encode] at hle
    omega
  apply ReadsLast.run_eq
  unfold encodeAll decodeSet
  rw [List.append_assoc]
  refine ReadsLast.of_bind (Reads.of_uint32 _) ?_
  refine ReadsLast.of_bind (Reads.of_uint32 _) ?_
  refine ReadsLast.of_remaining ?_
  rw [hsize, hcount, if_neg (fun hne => hne rfl)]
  refine ReadsLast.of_reads ((decodeMany_reads hshort 0).of_place_eq ?_)
  rw [Bytes.length_ofUInt32, Bytes.length_ofUInt32]

end StackMap

end CodeCache
