import CodeCache.Assumption.Dependency
import CodeCache.Assumption.Speculation
import CodeCache.Proofs.Bytes.Reading

/-!
# Stored assumptions

Lists of dependencies and speculations are read back as they were written.
-/

namespace CodeCache

/-!
## The wire
-/

namespace Wire

variable {α : Type} {place : Nat}

theorem of_word {f : Bytes → α} {bs : Bytes} {n : Nat} {v : α}
    (hlength : bs.length = n) (hvalue : f bs = v) :
    Reads place (bytes n >>= fun x => pure (f x)) bs v := by
  rw [← hvalue]
  exact ((Reads.of_bytes_of_length hlength).of_mapError _).of_bind_pure

theorem uint32_reads (v : UInt32) : Reads place uint32 (Bytes.ofUInt32 v) v :=
  of_word (Bytes.length_ofUInt32 v) (Bytes.toUInt32_ofUInt32 v)

theorem int32_reads (v : Int32) : Reads place int32 (Bytes.ofInt32 v) v :=
  of_word (Bytes.length_ofInt32 v) (Bytes.toInt32_ofInt32 v)

theorem uint64_reads (v : UInt64) : Reads place uint64 (Bytes.ofUInt64 v) v :=
  of_word (Bytes.length_ofUInt64 v) (Bytes.toUInt64_ofUInt64 v)

theorem int64_reads (v : Int64) : Reads place int64 (Bytes.ofInt64 v) v :=
  of_word (Bytes.length_ofInt64 v) (Bytes.toInt64_ofInt64 v)

theorem byte_reads (b : UInt8) : Reads place byte [b] b :=
  of_word rfl rfl

theorem variant_reads {n count : Nat} (h : n < count) (hcount : count < 2 ^ 32) :
    Reads place (variant count) (ofVariant n) n := by
  have hn : (UInt32.ofNat n).toNat = n :=
    UInt32.toNat_ofNat_of_lt' (Nat.lt_trans h hcount)
  unfold variant ofVariant
  rw [← List.append_nil (Bytes.ofUInt32 (UInt32.ofNat n))]
  refine (uint32_reads _).of_bind ?_
  dsimp only
  rw [hn, if_pos h]
  exact Reads.of_pure n

theorem bool_reads (b : Bool) : Reads place bool (ofBool b) b := by
  unfold bool ofBool
  rw [← List.append_nil [if b then (1 : UInt8) else 0]]
  refine (byte_reads _).of_bind ?_
  cases b <;> exact Reads.of_pure _

theorem option_reads {value : Read α} {encode : α → Bytes}
    (h : ∀ a p, Reads p value (encode a) a) (a? : Option α) :
    Reads place (option value) (ofOption encode a?) a? := by
  cases a? with
  | none =>
      have hread : Reads place (option value) ([0] ++ []) none := by
        refine (byte_reads 0).of_bind ?_
        exact Reads.of_pure none
      exact hread
  | some a =>
      have hread : Reads place (option value) ([1] ++ encode a) (some a) := by
        refine (byte_reads 1).of_bind ?_
        exact (h a _).of_bind_pure
      exact hread

theorem many_reads {value : Read α} {encode : α → Bytes} {as : List α}
    (h : ∀ a ∈ as, ∀ p, Reads p value (encode a) a) :
    Reads place (many value as.length) (as.flatMap encode) as := by
  induction as generalizing place with
  | nil => exact Reads.of_pure []
  | cons a as ih =>
      rw [List.flatMap_cons, List.length_cons]
      unfold many
      refine (h a List.mem_cons_self place).of_bind ?_
      exact (ih fun b hb => h b (List.mem_cons_of_mem _ hb)).of_bind_pure

theorem list_reads {value : Read α} {encode : α → Bytes} {as : List α}
    (h : ∀ a ∈ as, ∀ p, Reads p value (encode a) a)
    (hlength : as.length < 2 ^ 64) :
    Reads place (list value) (ofList encode as) as := by
  have hcount : (UInt64.ofNat as.length).toNat = as.length :=
    UInt64.toNat_ofNat_of_lt' hlength
  unfold list ofList
  refine (uint64_reads _).of_bind ?_
  rw [hcount]
  exact many_reads h

theorem length_ofList (encode : α → Bytes) (as : List α) :
    (ofList encode as).length = 8 + (as.flatMap encode).length := by
  unfold ofList
  rw [List.length_append, Bytes.length_ofUInt64]

theorem decodeAll_ofList {record : Read α} {encode : α → Bytes} {as : List α}
    (h : ∀ a ∈ as, ∀ p, Reads p record (encode a) a)
    (hlength : as.length < 2 ^ 64) :
    decodeAll record (ofList encode as) = .ok as := by
  have hne : ¬ (ofList encode as).isEmpty = true := by
    rw [List.isEmpty_iff]
    intro hempty
    have hlen := congrArg List.length hempty
    unfold ofList at hlen
    rw [List.length_append, Bytes.length_ofUInt64, List.length_nil] at hlen
    omega
  unfold decodeAll
  rw [if_neg hne]
  exact (list_reads h hlength).run_eq

end Wire

/-!
## Records
-/

namespace Dependency

theorem decode_reads {d : Dependency} (h : d.args.length < 2 ^ 64)
    (place : Nat) :
    Reads place decode d.encode d := by
  have hkind : d.kind.index < DependencyKind.all.length := by
    cases d.kind <;> decide
  have hlist : Reads (place + (Wire.ofVariant d.kind.index).length)
      (Wire.list Wire.uint32 >>= fun args =>
        pure (⟨d.kind, args⟩ : Dependency))
      (Wire.ofList Bytes.ofUInt32 d.args) ⟨d.kind, d.args⟩ :=
    (Wire.list_reads (fun a _ _ => Wire.uint32_reads a) h).of_bind_pure
  unfold decode encode
  refine (Wire.variant_reads hkind (by decide)).of_bind ?_
  rw [DependencyKind.ofIndex?_index]
  exact hlist

theorem length_args_lt_length_encode (d : Dependency) :
    d.args.length < d.encode.length := by
  have hargs := Bytes.length_le_length_flatMap (f := Bytes.ofUInt32)
    (fun v => by rw [Bytes.length_ofUInt32]; decide) d.args
  unfold encode Wire.ofVariant Wire.ofList
  simp only [List.length_append, Bytes.length_ofUInt32, Bytes.length_ofUInt64]
  omega

theorem decodeAll_encodeAll {ds : List Dependency}
    (h : (encodeAll ds).length < 2 ^ 64) :
    decodeAll (encodeAll ds) = .ok ds := by
  unfold encodeAll at h
  rw [Wire.length_ofList] at h
  refine Wire.decodeAll_ofList (fun d hd p => decode_reads ?_ p) ?_
  · have hargs := length_args_lt_length_encode d
    have hd := Bytes.length_le_flatMap hd encode
    omega
  · have hle := Bytes.length_le_length_flatMap
      (fun d => Nat.zero_lt_of_lt (length_args_lt_length_encode d)) ds
    omega

end Dependency

namespace Speculation

theorem decode_reads (r : Speculation) (place : Nat) :
    Reads place decode r.encode r := by
  have hordinal : r.ordinal < 5 := by
    unfold ordinal
    split <;> decide
  unfold decode encode
  refine (Wire.variant_reads hordinal (by decide)).of_bind ?_
  cases r with
  | deVirtual method bci klass1 klass2 morphism missIsTrap =>
      simp only [List.append_assoc]
      refine (Wire.uint32_reads _).of_bind ?_
      refine (Wire.int32_reads _).of_bind ?_
      refine (Wire.uint32_reads _).of_bind ?_
      refine (Wire.option_reads (fun a _ => Wire.uint32_reads a) _).of_bind ?_
      refine (Wire.int32_reads _).of_bind ?_
      exact (Wire.bool_reads _).of_bind_pure
  | inlined caller callee bci =>
      simp only [List.append_assoc]
      refine (Wire.uint32_reads _).of_bind ?_
      refine (Wire.uint32_reads _).of_bind ?_
      exact (Wire.int32_reads _).of_bind_pure
  | profiledReceiver method bci klass =>
      simp only [List.append_assoc]
      refine (Wire.uint32_reads _).of_bind ?_
      refine (Wire.int32_reads _).of_bind ?_
      exact (Wire.uint32_reads _).of_bind_pure
  | unstableIf method bci takenTrap =>
      simp only [List.append_assoc]
      refine (Wire.uint32_reads _).of_bind ?_
      refine (Wire.int32_reads _).of_bind ?_
      exact (Wire.bool_reads _).of_bind_pure
  | constantReplace klass offset type value =>
      have htype : type.index < FieldType.all.length := by
        cases type <;> decide
      simp only [List.append_assoc]
      refine (Wire.uint32_reads _).of_bind ?_
      refine (Wire.uint32_reads _).of_bind ?_
      refine (Wire.variant_reads htype (by decide)).of_bind ?_
      rw [FieldType.ofIndex?_index]
      exact (Wire.int64_reads _).of_bind_pure

theorem length_encode_pos (r : Speculation) : 0 < r.encode.length := by
  unfold encode Wire.ofVariant
  rw [List.length_append, Bytes.length_ofUInt32]
  omega

theorem decodeAll_encodeAll {rs : List Speculation}
    (h : (encodeAll rs).length < 2 ^ 64) :
    decodeAll (encodeAll rs) = .ok rs := by
  unfold encodeAll at h
  rw [Wire.length_ofList] at h
  refine Wire.decodeAll_ofList (fun r _ p => decode_reads r p) ?_
  have hle := Bytes.length_le_length_flatMap length_encode_pos rs
  omega

end Speculation

end CodeCache
