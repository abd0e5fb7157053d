import CodeCache.Proofs.Metadata.Interning

/-!
# Loaded metaspaces

Whatever a metaspace is read from, its keys are all different and can be stored
again.
-/

namespace CodeCache

namespace MetaKey

theorem decodeName_ensures (i : Nat) (kind : UInt16) :
    Ensures (fun _ => True) (decodeName i kind) MetaName.NulFree := by
  unfold decodeName
  split
  · refine Read.text_ensures.of_bind ?_
    intro name hname
    exact Ensures.of_pure hname
  · refine Read.text_ensures.of_bind ?_
    intro holder hholder
    refine Read.text_ensures.of_bind ?_
    intro name hname
    refine Read.text_ensures.of_bind ?_
    intro signature hsignature
    exact Ensures.of_pure ⟨hholder, hname, hsignature⟩
  · exact Ensures.of_throw _

theorem decode_ensures (i : Nat) :
    Ensures (fun _ => True) (decode i) (fun key => key.name.NulFree) := by
  unfold decode
  refine (Ensures.of_true _).of_bind ?_
  intro kind _
  refine (Ensures.of_true _).of_bind ?_
  intro code _
  cases Loader.ofCode? code with
  | none => exact Ensures.of_throw _
  | some loader =>
      refine (Ensures.of_true _).of_bind ?_
      intro _ _
      refine (Ensures.of_true _).of_bind ?_
      intro identity _
      refine (decodeName_ensures i kind).of_bind ?_
      intro name hname
      refine (Ensures.of_true _).of_bind ?_
      intro _ _
      exact Ensures.of_pure hname

end MetaKey

namespace MetaSpace

structure KeyedBy (P : MetaKey → Prop) (space : MetaSpace) : Prop where
  distinct : space.keys.Nodup
  all : ∀ key ∈ space.keys, P key

variable {P : MetaKey → Prop}

theorem keyedBy_empty (P : MetaKey → Prop) : KeyedBy P {} :=
  ⟨List.nodup_nil, fun _ hkey => absurd hkey List.not_mem_nil⟩

theorem KeyedBy.internKey {space : MetaSpace} (h : space.KeyedBy P)
    {key : MetaKey} (hkey : P key) :
    (space.internKey key).1.KeyedBy P := by
  refine ⟨nodup_internKey h.distinct key, ?_⟩
  intro other hother
  rcases mem_keys_internKey hother with hold | rfl
  · exact h.all other hold
  · exact hkey

theorem decodeMany_keyedBy (n : Nat) {space : MetaSpace}
    (h : space.KeyedBy (·.name.NulFree)) (i : Nat) :
    Ensures (fun _ => True) (decodeMany space i n)
      (KeyedBy (·.name.NulFree)) := by
  induction n generalizing space i with
  | zero => exact Ensures.of_pure h
  | succ n ih =>
      unfold decodeMany
      refine (MetaKey.decode_ensures i).of_bind ?_
      intro key hkey
      exact Ensures.of_check fun _ => ih (h.internKey hkey) (i + 1)

theorem keyedBy_of_decode {bs : Bytes} {space : MetaSpace}
    (h : decode bs = .ok space) :
    space.KeyedBy (·.name.NulFree) := by
  have hreads : Ensures (fun _ => True) decoder (KeyedBy (·.name.NulFree)) := by
    unfold decoder
    refine (Ensures.of_true _).of_bind ?_
    intro count _
    refine (Ensures.of_true _).of_bind ?_
    intro _ _
    refine (Ensures.of_true _).of_bind ?_
    intro held _
    exact Ensures.of_check fun _ =>
      decodeMany_keyedBy count.toNat (keyedBy_empty _) 0
  exact hreads.of_run h

end MetaSpace

end CodeCache
