import CodeCache.Blob.Basic
import CodeCache.Proofs.Work

/-!
# How the sections of a blob fail

Each section is read by a reader of its own, and each reader reports faults of its own:
the failure says which section is malformed.
-/

namespace CodeCache

def Blames {α : Type} (P : Error → Prop) (reader : Read α) : Prop :=
  ∀ c e c', reader c = .error e c' → P e

namespace Blames

variable {α β : Type} {P Q : Error → Prop}

theorem of_pure (a : α) : Blames P (pure a : Read α) :=
  fun _ _ _ h => nomatch h

theorem of_throw {e : Error} (h : P e) : Blames P (throw e : Read α) := by
  intro c e' c' hrun
  cases hrun
  exact h

theorem of_bind {reader : Read α} {next : α → Read β} (h : Blames P reader)
    (hnext : ∀ a, Blames P (next a)) :
    Blames P (reader >>= next) := by
  intro c e c' hrun
  cases hfirst : reader c with
  | ok a s =>
      rw [run_bind hfirst] at hrun
      exact hnext a s e c' hrun
  | error e' s =>
      rw [run_bind_error hfirst] at hrun
      cases hrun
      exact h c e _ hfirst

theorem of_bind_pure {reader : Read α} {f : α → β} (h : Blames P reader) :
    Blames P (reader >>= fun a => pure (f a)) :=
  h.of_bind fun a => of_pure (f a)

theorem of_check {c : Prop} [Decidable c] {e : Error} {f : β → Read α} {reader : Read α}
    (he : P e) (h : Blames P reader) :
    Blames P (if c then throw e >>= f else reader) := by
  intro s e' s' hrun
  by_cases hc : c
  · rw [if_pos hc] at hrun
    cases hrun
    exact he
  · rw [if_neg hc] at hrun
    exact h s e' s' hrun

theorem of_align : Blames P Read.align :=
  fun _ _ _ h => nomatch h

theorem of_remaining : Blames P Read.remaining :=
  fun _ _ _ h => nomatch h

theorem of_bytes (hshort : ∀ offset wanted size, P (.short offset wanted size)) (len : Nat) :
    Blames P (Read.bytes len) := by
  intro c e c' hrun
  unfold Read.bytes Bytes.slice at hrun
  split at hrun
  · cases hrun
  · rename_i e' hslice
    cases hrun
    split at hslice
    · cases hslice
    · cases hslice
      exact hshort _ _ _

theorem of_uint16 (hshort : ∀ offset wanted size, P (.short offset wanted size)) :
    Blames P Read.uint16 :=
  (of_bytes hshort 2).of_bind_pure

theorem of_uint32 (hshort : ∀ offset wanted size, P (.short offset wanted size)) :
    Blames P Read.uint32 :=
  (of_bytes hshort 4).of_bind_pure

theorem of_mapError {f : Error → Error} (h : ∀ e, P (f e)) (reader : Read α) :
    Blames P (reader.mapError f) := by
  intro c e c' hrun
  unfold Read.mapError at hrun
  split at hrun
  · cases hrun
  · cases hrun
    exact h _

theorem run {reader : Read α} (h : Blames P reader) {bs : Bytes} {e : Error}
    (hrun : reader.run bs = .error e) :
    P e := by
  unfold Read.run at hrun
  split at hrun
  · cases hrun
  · rename_i e' c hread
    cases hrun
    exact h _ _ _ hread

end Blames

/-!
## Relocations
-/

inductive Relocation.Fault : Error → Prop where
  | short (offset wanted size : Nat) : Fault (.short offset wanted size)
  | kind (code : UInt16) (site : UInt32) : Fault (.corruption (.relocationKind code site))

theorem Relocation.decode_blames : Blames Fault decode := by
  unfold decode
  refine (Blames.of_uint32 .short).of_bind fun offset => ?_
  refine (Blames.of_uint16 .short).of_bind fun code => ?_
  refine (Blames.of_uint16 .short).of_bind fun flags => ?_
  refine (Blames.of_uint32 .short).of_bind fun a => ?_
  refine (Blames.of_uint32 .short).of_bind fun b => ?_
  split
  · exact .of_pure _
  · exact .of_throw (.kind _ _)

theorem Relocation.decodeMany_blames (n : Nat) : Blames Fault (decodeMany n) := by
  induction n with
  | zero => exact .of_pure _
  | succ n ih =>
      unfold decodeMany
      exact decode_blames.of_bind fun r => ih.of_bind_pure

/-!
## Stack maps
-/

inductive StackMap.Fault : Error → Prop where
  | short (offset wanted size : Nat) : Fault (.short offset wanted size)
  | data (entry : Nat) : Fault (.corruption (.stackMapData entry))
  | size (declared held : Nat) : Fault (.corruption (.stackMapSize declared held))

theorem StackMap.decode_blames (i : Nat) : Blames Fault (decode i) := by
  unfold decode
  refine (Blames.of_uint32 .short).of_bind fun pcOffset => ?_
  refine (Blames.of_uint32 .short).of_bind fun valueCount => ?_
  refine (Blames.of_uint32 .short).of_bind fun size => ?_
  refine (Blames.of_mapError (fun _ => .data i) _).of_bind fun data => ?_
  exact Blames.of_align.of_bind fun _ => .of_pure _

theorem StackMap.decodeMany_blames (i n : Nat) : Blames Fault (decodeMany i n) := by
  induction n generalizing i with
  | zero => exact .of_pure _
  | succ n ih =>
      unfold decodeMany
      exact (decode_blames i).of_bind fun m => (ih (i + 1)).of_bind_pure

theorem StackMap.decodeSet_blames : Blames Fault decodeSet := by
  unfold decodeSet
  refine (Blames.of_uint32 .short).of_bind fun declared => ?_
  refine (Blames.of_uint32 .short).of_bind fun count => ?_
  refine Blames.of_remaining.of_bind fun held => ?_
  exact .of_check (.size _ _) (decodeMany_blames 0 _)

/-!
## Record lists
-/

namespace Wire

inductive Fault : Error → Prop where
  | records (f : RecordFault) : Fault (fault f)

variable {α : Type} {value : Read α}

theorem bytes_blames (len : Nat) : Blames Fault (bytes len) :=
  Blames.of_mapError (fun _ => .records _) _

theorem uint32_blames : Blames Fault uint32 :=
  (bytes_blames 4).of_bind_pure

theorem int32_blames : Blames Fault int32 :=
  (bytes_blames 4).of_bind_pure

theorem int64_blames : Blames Fault int64 :=
  (bytes_blames 8).of_bind_pure

theorem uint64_blames : Blames Fault uint64 :=
  (bytes_blames 8).of_bind_pure

theorem byte_blames : Blames Fault byte :=
  (bytes_blames 1).of_bind_pure

theorem variant_blames (count : Nat) : Blames Fault (variant count) := by
  unfold variant
  refine uint32_blames.of_bind fun found => ?_
  dsimp only
  split
  · exact .of_pure _
  · exact .of_throw (.records _)

theorem bool_blames : Blames Fault bool := by
  unfold bool
  refine byte_blames.of_bind fun found => ?_
  dsimp only
  split
  · exact .of_pure _
  · split
    · exact .of_pure _
    · exact .of_throw (.records _)

theorem option_blames (h : Blames Fault value) : Blames Fault (option value) := by
  unfold option
  refine byte_blames.of_bind fun found => ?_
  dsimp only
  split
  · exact .of_pure _
  · split
    · exact h.of_bind_pure
    · exact .of_throw (.records _)

theorem many_blames (h : Blames Fault value) (n : Nat) : Blames Fault (many value n) := by
  induction n with
  | zero => exact .of_pure _
  | succ n ih =>
      unfold many
      exact h.of_bind fun a => ih.of_bind_pure

theorem list_blames (h : Blames Fault value) : Blames Fault (list value) :=
  uint64_blames.of_bind fun n => many_blames h n.toNat

theorem fault_of_decodeAll (h : Blames Fault value) {bs : Bytes} {e : Error}
    (hrun : decodeAll value bs = .error e) :
    Fault e := by
  unfold decodeAll at hrun
  split at hrun
  · cases hrun
  · exact (list_blames h).run hrun

end Wire

theorem Dependency.decode_blames : Blames Wire.Fault decode := by
  unfold decode
  refine (Wire.variant_blames _).of_bind fun kind => ?_
  exact (Wire.list_blames Wire.uint32_blames).of_bind_pure

theorem Speculation.decode_blames : Blames Wire.Fault decode := by
  unfold decode
  refine (Wire.variant_blames 5).of_bind fun ordinal => ?_
  split
  · refine Wire.uint32_blames.of_bind fun method => ?_
    refine Wire.int32_blames.of_bind fun bci => ?_
    refine Wire.uint32_blames.of_bind fun klass1 => ?_
    refine (Wire.option_blames Wire.uint32_blames).of_bind fun klass2 => ?_
    refine Wire.int32_blames.of_bind fun morphism => ?_
    exact Wire.bool_blames.of_bind_pure
  · refine Wire.uint32_blames.of_bind fun caller => ?_
    refine Wire.uint32_blames.of_bind fun callee => ?_
    exact Wire.int32_blames.of_bind_pure
  · refine Wire.uint32_blames.of_bind fun method => ?_
    refine Wire.int32_blames.of_bind fun bci => ?_
    exact Wire.uint32_blames.of_bind_pure
  · refine Wire.uint32_blames.of_bind fun method => ?_
    refine Wire.int32_blames.of_bind fun bci => ?_
    exact Wire.bool_blames.of_bind_pure
  · refine Wire.uint32_blames.of_bind fun klass => ?_
    refine Wire.uint32_blames.of_bind fun offset => ?_
    refine (Wire.variant_blames _).of_bind fun type => ?_
    exact Wire.int64_blames.of_bind_pure

/-!
## Sections of a blob
-/

namespace Blob

variable {b : Blob} {e : Error}

theorem fault_of_relocations (h : b.relocations = .error e) : Relocation.Fault e :=
  (Relocation.decodeMany_blames _).run h

theorem fault_of_stackMaps (h : b.stackMaps = .error e) : StackMap.Fault e :=
  StackMap.decodeSet_blames.run h

theorem fault_of_dependencies (h : b.dependencies = .error e) : Wire.Fault e :=
  Wire.fault_of_decodeAll Dependency.decode_blames h

theorem fault_of_speculations (h : b.speculations = .error e) : Wire.Fault e :=
  Wire.fault_of_decodeAll Speculation.decode_blames h

end Blob

end CodeCache
