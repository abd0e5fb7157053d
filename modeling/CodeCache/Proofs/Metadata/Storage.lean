import CodeCache.Metadata.Space
import CodeCache.Proofs.Bytes.Texts

/-!
# Stored metaspaces

A stored metaspace is read back with the same keys at the same indices, provided
that its names hold no zero and that no key occurs twice. A loaded metaspace has
keys and nothing else: no entry is resolved yet.
-/

namespace CodeCache

namespace MetaSpace

def Fresh (space : MetaSpace) : Prop :=
  ∀ entry ∈ space.entries, entry = { key := entry.key }

theorem internKey_fresh {space : MetaSpace} (h : space.Fresh) (key : MetaKey) :
    (space.internKey key).1.Fresh := by
  unfold internKey
  cases space.find key with
  | some index => exact h
  | none =>
      intro entry hentry
      rcases List.mem_append.mp hentry with hold | hnew
      · exact h entry hold
      · rw [List.mem_singleton.mp hnew]

theorem decodeMany_ensures (n : Nat) {space : MetaSpace} (h : space.Fresh)
    (i : Nat) :
    Ensures (fun _ => True) (decodeMany space i n) Fresh := by
  induction n generalizing space i with
  | zero => exact Ensures.of_pure h
  | succ n ih =>
      unfold decodeMany
      refine Ensures.of_bind (P := fun _ => True)
        (Ensures.of_true (MetaKey.decode i)) ?_
      intro key _
      exact Ensures.of_check fun _ => ih (internKey_fresh h key) (i + 1)

theorem decoder_ensures : Ensures (fun _ => True) decoder Fresh := by
  have hempty : Fresh {} := by
    intro entry hentry
    cases hentry
  unfold decoder
  refine Ensures.of_bind (P := fun _ => True) (Ensures.of_true _) ?_
  intro count _
  refine Ensures.of_bind (P := fun _ => True) (Ensures.of_true _) ?_
  intro _ _
  refine Ensures.of_bind (P := fun _ => True) (Ensures.of_true _) ?_
  intro held _
  exact Ensures.of_check fun _ => decodeMany_ensures count.toNat hempty 0

theorem fresh_of_decode {bs : Bytes} {space : MetaSpace}
    (h : decode bs = .ok space) :
    space.Fresh :=
  decoder_ensures.of_run h

end MetaSpace

/-!
## Keys
-/

def MetaName.NulFree : MetaName → Prop
  | klass name => CodeCache.NulFree name
  | method holder name signature =>
    CodeCache.NulFree holder ∧ CodeCache.NulFree name ∧
      CodeCache.NulFree signature

instance (name : MetaName) : Decidable name.NulFree :=
  match name with
  | .klass name => inferInstanceAs (Decidable (CodeCache.NulFree name))
  | .method holder name signature =>
    inferInstanceAs (Decidable (CodeCache.NulFree holder ∧
      CodeCache.NulFree name ∧ CodeCache.NulFree signature))

def MetaName.encode : MetaName → Bytes
  | klass name => Bytes.ofText name
  | method holder name signature =>
    Bytes.ofText holder ++ (Bytes.ofText name ++ Bytes.ofText signature)

namespace MetaKey

theorem encodeBody_eq (key : MetaKey) :
    key.encodeBody =
      Bytes.ofUInt16 (if key.name.isMethod then 2 else 1) ++
        (Bytes.ofUInt16 key.loader.code ++ (Bytes.ofUInt32 0 ++
          (Bytes.ofUInt64 key.identity ++ key.name.encode))) := by
  rcases key with ⟨name, identity, loader⟩
  unfold encodeBody
  cases name with
  | klass name => simp only [MetaName.encode, List.append_assoc]
  | method holder name signature =>
      simp only [MetaName.encode, List.append_assoc]

theorem decodeName_reads {name : MetaName} (h : name.NulFree) (i place : Nat) :
    Reads place (decodeName i (if name.isMethod then 2 else 1)) name.encode
      name := by
  cases name with
  | klass name => exact (Reads.of_text h).of_bind_pure
  | method holder name signature =>
      rcases h with ⟨hholder, hname, hsignature⟩
      refine (Reads.of_text hholder).of_bind ?_
      refine (Reads.of_text hname).of_bind ?_
      exact (Reads.of_text hsignature).of_bind_pure

theorem decode_reads {key : MetaKey} (h : key.name.NulFree) (i : Nat) :
    Reads 0 (decode i) key.encode key := by
  have hpad := Reads.of_align key.encodeBody.length
  rw [encodeBody_eq] at hpad
  unfold decode encode Bytes.padded
  rw [encodeBody_eq]
  simp only [List.append_assoc]
  refine (Reads.of_uint16 _).of_bind ?_
  refine (Reads.of_uint16 _).of_bind ?_
  rw [Loader.ofCode?_code]
  dsimp only
  refine (Reads.of_uint32 _).of_bind ?_
  refine (Reads.of_uint64 _).of_bind ?_
  refine (decodeName_reads h i _).of_bind ?_
  refine (hpad.of_place_eq ?_).of_bind_pure
  simp only [List.length_append]
  omega

theorem sixteen_le_length_encode (key : MetaKey) : 16 ≤ key.encode.length := by
  have hle := le_alignUp key.encodeBody.length
  have hbody : 16 ≤ key.encodeBody.length := by
    unfold encodeBody
    simp only [List.length_append, Bytes.length_ofUInt16, Bytes.length_ofUInt32,
      Bytes.length_ofUInt64]
    omega
  unfold encode
  rw [Bytes.length_padded]
  exact Nat.le_trans hbody hle

theorem length_encode_mod (key : MetaKey) : key.encode.length % 8 = 0 := by
  unfold encode
  rw [Bytes.length_padded, alignUp_mod]

end MetaKey

/-!
## Spaces
-/

namespace MetaSpace

def ofKeys (keys : List MetaKey) : MetaSpace :=
  { entries := keys.map fun key => { key } }

theorem fresh_ofKeys (keys : List MetaKey) : (ofKeys keys).Fresh := by
  intro entry hentry
  rcases List.mem_map.mp hentry with ⟨key, _, rfl⟩
  rfl

theorem keys_ofKeys (keys : List MetaKey) : (ofKeys keys).keys = keys := by
  unfold MetaSpace.keys ofKeys
  rw [List.map_map]
  exact List.map_id keys

theorem internKey_of_new {space : MetaSpace} {key : MetaKey}
    (h : key ∉ space.keys) :
    space.internKey key =
      ({ space with entries := space.entries ++ [{ key }] },
        UInt32.ofNat space.size) := by
  have hfind : space.find key = none := by
    unfold find
    rw [Option.map_eq_none_iff, List.findIdx?_eq_none_iff]
    intro entry hentry
    rw [beq_eq_false_iff_ne]
    intro hkey
    exact h (List.mem_map.mpr ⟨entry, hentry, hkey⟩)
  unfold internKey
  rw [hfind]

theorem decodeMany_reads (before rest : List MetaKey)
    (hclean : ∀ key ∈ rest, key.name.NulFree) (hdistinct : (before ++ rest).Nodup)
    (hsize : (before ++ rest).length ≤ 2 ^ 32) :
    Reads 0 (decodeMany (ofKeys before) before.length rest.length)
      (rest.flatMap MetaKey.encode) (ofKeys (before ++ rest)) := by
  induction rest generalizing before with
  | nil =>
      rw [List.append_nil]
      exact Reads.of_pure _
  | cons key rest ih =>
      have hnew : key ∉ (ofKeys before).keys := by
        rw [keys_ofKeys]
        intro hmem
        exact (List.nodup_append.mp hdistinct).2.2 key hmem key
          List.mem_cons_self rfl
      have hlength : (ofKeys before).size = before.length := by
        unfold MetaSpace.size ofKeys
        rw [List.length_map]
      have hadded : { ofKeys before with
          entries := (ofKeys before).entries ++ [{ key }] } =
            ofKeys (before ++ [key]) := by
        unfold ofKeys
        rw [List.map_append]
        rfl
      have hlt : before.length < 2 ^ 32 := by
        rw [List.length_append, List.length_cons] at hsize
        omega
      have hshift : before ++ key :: rest = (before ++ [key]) ++ rest := by
        rw [List.append_assoc]
        rfl
      rw [List.flatMap_cons, List.length_cons]
      unfold decodeMany
      refine (MetaKey.decode_reads (hclean key List.mem_cons_self) _).of_bind ?_
      rw [internKey_of_new hnew, hlength, hadded]
      dsimp only
      refine Reads.of_check ?_ ?_
      · rw [UInt32.toNat_ofNat_of_lt' hlt]
        exact fun h => h rfl
      · have hrest := ih (before ++ [key])
          (fun k hk => hclean k (List.mem_cons_of_mem _ hk))
          (hshift ▸ hdistinct) (hshift ▸ hsize)
        rw [← hshift, List.length_append] at hrest
        refine hrest.of_place_eq ?_
        rw [Nat.zero_add, MetaKey.length_encode_mod]

theorem length_keys (space : MetaSpace) : space.keys.length = space.size :=
  List.length_map _

theorem encode_congr {space space' : MetaSpace}
    (h : space'.keys = space.keys) : space'.encode = space.encode := by
  unfold encode
  rw [← length_keys, h, length_keys]

theorem length_le_flatMap_encode (keys : List MetaKey) :
    16 * keys.length ≤ (keys.flatMap MetaKey.encode).length := by
  induction keys with
  | nil => exact Nat.le_refl 0
  | cons key keys ih =>
      have hkey := key.sixteen_le_length_encode
      rw [List.flatMap_cons, List.length_append, List.length_cons]
      omega

theorem decoder_reads {space : MetaSpace}
    (hclean : ∀ key ∈ space.keys, key.name.NulFree)
    (hdistinct : space.keys.Nodup) (hsize : space.size < 2 ^ 32) :
    Reads 0 decoder space.encode (ofKeys space.keys) := by
  have hlength := space.length_keys
  have hcount : (UInt32.ofNat space.size).toNat = space.keys.length := by
    rw [UInt32.toNat_ofNat_of_lt' hsize, hlength]
  unfold encode decoder
  rw [List.append_assoc]
  refine (Reads.of_uint32 _).of_bind ?_
  refine (Reads.of_uint32 _).of_bind ?_
  refine Reads.of_remaining ?_
  intro held hheld
  refine Reads.of_check ?_ ?_
  · have hle := length_le_flatMap_encode space.keys
    rw [hcount]
    omega
  · rw [hcount]
    refine (decodeMany_reads [] space.keys hclean hdistinct ?_).of_place_eq ?_
    · rw [List.nil_append, hlength]
      exact Nat.le_of_lt hsize
    · rw [Bytes.length_ofUInt32, Bytes.length_ofUInt32]

theorem decode_padded {space : MetaSpace}
    (hclean : ∀ key ∈ space.keys, key.name.NulFree)
    (hdistinct : space.keys.Nodup) (hsize : space.size < 2 ^ 32) :
    decode space.encode.padded = .ok (ofKeys space.keys) := by
  rw [Bytes.padded_eq]
  exact (decoder_reads hclean hdistinct hsize).run_append_eq _

end MetaSpace

end CodeCache
