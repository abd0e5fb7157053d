import CodeCache.Proofs.Metadata.Storage
import CodeCache.Proofs.Store.Chains
import CodeCache.Proofs.Store.Storage
import CodeCache.Store.File
import Mathlib.Algebra.Order.BigOperators.Group.List
import Mathlib.Algebra.Order.Group.Nat

/-!
# Stored files

A file that was built by interning keys, choosing containers and adding versions
is read back as it was written, and takes exactly the room that was announced.
-/

namespace CodeCache

/-!
## Headers
-/

namespace FileHeader

theorem decode_run {h : FileHeader} (hclean : NulFree h.buildIdentity)
    (post : Bytes) :
    decode.run (h.encode ++ post) = .ok h := by
  unfold encode
  rw [Bytes.padded_eq, List.append_assoc]
  apply Reads.run_append_eq
  unfold decode
  simp only [List.append_assoc]
  refine (Reads.of_uint32 _).of_bind ?_
  refine Reads.of_check (fun hne => hne rfl) ?_
  refine (Reads.of_uint32 _).of_bind ?_
  refine (Reads.of_uint64 _).of_bind ?_
  refine (Reads.of_uint64 _).of_bind ?_
  refine (Reads.of_uint64 _).of_bind ?_
  refine (Reads.of_uint64 _).of_bind ?_
  refine (Reads.of_uint64 _).of_bind ?_
  refine (Reads.of_uint32 _).of_bind ?_
  refine (Reads.of_uint32 _).of_bind ?_
  rw [← List.append_nil (Bytes.ofText h.buildIdentity)]
  refine (Reads.of_text? hclean).of_bind ?_
  exact Reads.of_pure h

theorem fixedSize_le_encodedSize (buildIdentity : String) :
    fixedSize ≤ encodedSize buildIdentity := by
  have hle := le_alignUp (fixedSize + (Bytes.ofText buildIdentity).length)
  unfold encodedSize
  omega

end FileHeader

namespace CacheFile

/-!
## Chains of containers
-/

def chainSize (cs : List Container) : Nat :=
  (cs.map Container.encodedSize).sum

theorem encodedSize_eq (f : CacheFile) :
    f.encodedSize = FileHeader.encodedSize f.buildIdentity +
      chainSize f.containers + alignUp f.space.encode.length :=
  rfl

theorem chainSize_cons (c : Container) (cs : List Container) :
    chainSize (c :: cs) = c.encodedSize + chainSize cs := by
  unfold chainSize
  rw [List.map_cons, List.sum_cons]

theorem length_encodeChain (start : Nat) (cs : List Container) :
    (encodeChain start cs).length = chainSize cs := by
  induction cs generalizing start with
  | nil => rfl
  | cons c cs ih =>
      cases cs with
      | nil =>
          unfold encodeChain
          rw [Container.length_encode]
          rfl
      | cons d rest =>
          unfold encodeChain
          dsimp only
          rw [List.length_append, Container.length_encode, ih, chainSize_cons c]

theorem chainSize_mod (cs : List Container) : chainSize cs % 8 = 0 := by
  induction cs with
  | nil => rfl
  | cons c cs ih =>
      have hc := c.encodedSize_mod
      rw [chainSize_cons]
      omega

structure Accepts (space : MetaSpace) (c : Container) : Prop where
  storable : c.Storable
  in_range : ∀ entry ∈ c.methods, entry.1.toNat < space.size

theorem Accepts.check {space : MetaSpace} {c : Container}
    (h : Accepts space c) :
    (c.methods.forM fun (index, _) => do
      let _ ← space.key index : Except Error PUnit) = .ok () := by
  have hrange := h.in_range
  generalize c.methods = methods at hrange ⊢
  induction methods with
  | nil => rfl
  | cons entry rest ih =>
      rcases entry with ⟨index, head⟩
      have hlt : index.toNat < space.entries.length :=
        hrange (index, head) List.mem_cons_self
      have hkey : space.key index = .ok (space.entries[index.toNat]).key := by
        unfold MetaSpace.key MetaSpace.entry?
        rw [List.getElem?_eq_getElem hlt]
      unfold List.forM
      dsimp only
      rw [hkey]
      exact ih fun e he => hrange e (List.mem_cons_of_mem _ he)

theorem decodeChain_encodeChain {space : MetaSpace} (c : Container)
    (cs : List Container) (pre post : Bytes) (before finish : Nat)
    (haccepts : ∀ d ∈ c :: cs, Accepts space d)
    (hfinish : pre.length + chainSize (c :: cs) ≤ finish)
    (hsize : finish < 2 ^ 64) :
    decodeChain (pre ++ encodeChain pre.length (c :: cs) ++ post) space finish
      before (cs.length + 1) pre.length = .ok (c :: cs) := by
  induction cs generalizing c pre before with
  | nil =>
      have hc := haccepts c List.mem_cons_self
      have hpos := c.headerSize_le_encodedSize
      unfold Container.headerSize at hpos
      rw [chainSize_cons] at hfinish
      have hread : Container.decode (pre ++ c.encode 0 ++ post) pre.length =
          .ok (c, none) :=
        Container.decode_encode hc.storable pre post fun h => absurd rfl h
      unfold decodeChain encodeChain
      rw [if_neg (by omega), hread]
      change ((List.forM c.methods _ : Except Error PUnit) >>= fun _ => _) = _
      rw [hc.check]
      rfl
  | cons d rest ih =>
      have hc := haccepts c List.mem_cons_self
      have hpos := c.headerSize_le_encodedSize
      have hd := d.headerSize_le_encodedSize
      unfold Container.headerSize at hpos hd
      rw [chainSize_cons, chainSize_cons] at hfinish
      have hnext : (UInt64.ofNat (pre.length + c.encodedSize)).toNat =
          pre.length + c.encodedSize :=
        UInt64.toNat_ofNat_of_lt' (show _ < 2 ^ 64 by omega)
      have hne : UInt64.ofNat (pre.length + c.encodedSize) ≠ 0 := by
        intro hzero
        rw [hzero] at hnext
        change 0 = _ at hnext
        omega
      have hread := Container.decode_encode hc.storable pre
        (encodeChain (pre.length + c.encodedSize) (d :: rest) ++ post)
        (fun _ => hnext ▸ (by omega : pre.length < pre.length + c.encodedSize))
      rw [if_neg hne] at hread
      have hbehind :
          (pre ++ c.encode (UInt64.ofNat (pre.length + c.encodedSize))).length =
            pre.length + c.encodedSize := by
        rw [List.length_append, Container.length_encode]
      have hrest := ih d
        (pre ++ c.encode (UInt64.ofNat (pre.length + c.encodedSize)))
        (before + 1) (fun e he => haccepts e (List.mem_cons_of_mem _ he))
        (by rw [hbehind, chainSize_cons]; omega)
      rw [hbehind] at hrest
      simp only [List.append_assoc] at hread hrest
      rw [encodeChain]
      simp only [List.append_assoc]
      unfold decodeChain
      rw [if_neg (by omega), hread]
      change ((List.forM c.methods _ : Except Error PUnit) >>= fun _ => _) = _
      rw [hc.check]
      change (decodeChain _ space finish (before + 1) (rest.length + 1)
        (UInt64.ofNat (pre.length + c.encodedSize)).toNat >>= fun _ => _) = _
      rw [hnext, hrest]
      rfl

/-!
## Whole files
-/

theorem length_encode (f : CacheFile) : f.encode.length = f.encodedSize := by
  have hchain : alignUp (chainSize f.containers) = chainSize f.containers :=
    alignUp_of_mod (chainSize_mod f.containers)
  unfold encode encodedSize
  dsimp only
  rw [List.length_append, List.length_append, FileHeader.length_encode,
    Bytes.length_padded, Bytes.length_padded, length_encodeChain, hchain]
  rfl

structure WellFormed (f : CacheFile) : Prop where
  distinct : f.space.keys.Nodup
  containers : ∀ c ∈ f.containers, c.WellFormed

/-- What can be stored: texts hold no zero, counts and offsets fit their fields,
and every method has a key. -/
structure Storable (f : CacheFile) : Prop where
  identity_clean : NulFree f.buildIdentity
  identity_lt : (Bytes.ofText f.buildIdentity).length < 2 ^ 63
  names_clean : ∀ key ∈ f.space.keys, key.name.NulFree
  keys_lt : f.space.size < 2 ^ 31
  space_lt : f.space.encode.length < 2 ^ 32
  containers_ne_nil : f.containers ≠ []
  containers_le : f.containers.length ≤ FileHeader.maxContainers
  start_lt : ∀ c ∈ f.containers, c.codeStart < 2 ^ 32
  in_range : ∀ c ∈ f.containers, ∀ entry ∈ c.methods,
    entry.1.toNat < f.space.size

theorem Storable.accepts {f : CacheFile} (h : f.Storable) (hf : f.WellFormed)
    {c : Container} (hc : c ∈ f.containers) :
    Accepts (.ofKeys f.space.keys) c := by
  have hcode := (hf.containers c hc).code_lt
  have hsize : (MetaSpace.ofKeys f.space.keys).size = f.space.size := by
    unfold MetaSpace.size MetaSpace.ofKeys MetaSpace.keys
    rw [List.length_map, List.length_map]
  constructor
  · exact ⟨(hf.containers c hc).shaped, h.start_lt c hc, by omega⟩
  · rw [hsize]
    exact h.in_range c hc

theorem chainSize_le {cs : List Container} {bound : Nat}
    (h : ∀ c ∈ cs, c.encodedSize ≤ bound) :
    chainSize cs ≤ cs.length * bound := by
  induction cs with
  | nil => exact Nat.zero_le _
  | cons c cs ih =>
      have hc := h c List.mem_cons_self
      have hrest := ih fun d hd => h d (List.mem_cons_of_mem _ hd)
      rw [chainSize_cons, List.length_cons, Nat.add_mul]
      omega

theorem Storable.encodedSize_lt {f : CacheFile} (h : f.Storable)
    (hf : f.WellFormed) :
    f.encodedSize < 2 ^ 64 := by
  have hcontainer : ∀ c ∈ f.containers, c.encodedSize ≤ 2 ^ 33 := by
    intro c hc
    have hstart := h.start_lt c hc
    have hcode := (hf.containers c hc).code_lt
    have hpad := alignUp_lt c.code.size
    unfold Container.codeStart at hstart
    unfold Container.encodedSize
    omega
  have hchain := chainSize_le hcontainer
  have hcount := h.containers_le
  have hidentity := h.identity_lt
  have hspace := h.space_lt
  have hpad := alignUp_lt f.space.encode.length
  have hheader :=
    alignUp_lt (FileHeader.fixedSize + (Bytes.ofText f.buildIdentity).length)
  unfold FileHeader.maxContainers at hcount
  unfold FileHeader.fixedSize at hheader
  rw [encodedSize_eq]
  unfold FileHeader.encodedSize FileHeader.fixedSize
  omega

theorem size_lt_of_small {f : CacheFile} (hsmall : f.encodedSize < 2 ^ 32) :
    f.space.size < 2 ^ 28 := by
  have hspace := le_alignUp f.space.encode.length
  have hmany := MetaSpace.length_le_flatMap_encode f.space.keys
  have hlength := f.space.length_keys
  have hkeys : 16 * f.space.size ≤ f.space.encode.length := by
    unfold MetaSpace.encode
    rw [List.length_append]
    omega
  unfold encodedSize at hsmall
  omega

/-- A file below four gigabytes can be stored, unless a text holds a zero or a
method has no key. -/
theorem storable_of_small {f : CacheFile} (hsmall : f.encodedSize < 2 ^ 32)
    (hidentity : NulFree f.buildIdentity)
    (hnames : ∀ key ∈ f.space.keys, key.name.NulFree)
    (hsome : f.containers ≠ [])
    (hfew : f.containers.length ≤ FileHeader.maxContainers)
    (hrange : ∀ c ∈ f.containers, ∀ entry ∈ c.methods,
      entry.1.toNat < f.space.size) :
    f.Storable := by
  have hsize := size_lt_of_small hsmall
  have hspace := le_alignUp f.space.encode.length
  have hheader := le_alignUp
    (FileHeader.fixedSize + (Bytes.ofText f.buildIdentity).length)
  rw [encodedSize_eq] at hsmall
  unfold FileHeader.encodedSize at hsmall
  refine
    { identity_clean := hidentity
      identity_lt := by omega
      names_clean := hnames
      keys_lt := by omega
      space_lt := by omega
      containers_ne_nil := hsome
      containers_le := hfew
      start_lt := ?_
      in_range := hrange }
  intro c hc
  have hstart : c.codeStart ≤ c.encodedSize := Nat.le_add_right _ _
  have hsum : c.encodedSize ≤ chainSize f.containers :=
    List.single_le_sum (fun _ _ => Nat.zero_le _) _ (List.mem_map_of_mem hc)
  omega

def header (f : CacheFile) : FileHeader where
  headerSize := UInt32.ofNat (FileHeader.encodedSize f.buildIdentity)
  fileSize := UInt64.ofNat f.encodedSize
  containerStart := UInt64.ofNat (FileHeader.encodedSize f.buildIdentity)
  containerSize := UInt64.ofNat (chainSize f.containers)
  metaStart := UInt64.ofNat
    (FileHeader.encodedSize f.buildIdentity + chainSize f.containers)
  metaSize := UInt64.ofNat (alignUp f.space.encode.length)
  containerCount := UInt32.ofNat f.containers.length
  buildIdentity := f.buildIdentity

theorem encode_eq (f : CacheFile) :
    f.encode = f.header.encode ++
      encodeChain (FileHeader.encodedSize f.buildIdentity) f.containers ++
      f.space.encode.padded := by
  have hchain : (encodeChain (FileHeader.encodedSize f.buildIdentity)
      f.containers).length % 8 = 0 := by
    rw [length_encodeChain]
    exact chainSize_mod f.containers
  unfold encode header encodedSize
  dsimp only
  rw [Bytes.padded_of_mod hchain, length_encodeChain, Bytes.length_padded]
  rfl

theorem decode_run_encode (f : CacheFile) (h : NulFree f.buildIdentity) :
    FileHeader.decode.run f.encode = .ok f.header := by
  rw [encode_eq, List.append_assoc]
  exact FileHeader.decode_run h _

theorem window_space {f : CacheFile} (hsize : f.encodedSize < 2 ^ 64) :
    f.encode.window f.header.metaStart.toNat f.header.metaSize.toNat =
      f.space.encode.padded := by
  have hsum : f.encodedSize = FileHeader.encodedSize f.buildIdentity +
      chainSize f.containers + alignUp f.space.encode.length := rfl
  have hstart : f.header.metaStart.toNat =
      FileHeader.encodedSize f.buildIdentity + chainSize f.containers :=
    UInt64.toNat_ofNat_of_lt' (show _ < 2 ^ 64 by omega)
  have hroom : f.header.metaSize.toNat = alignUp f.space.encode.length :=
    UInt64.toNat_ofNat_of_lt' (show _ < 2 ^ 64 by omega)
  have happend := Bytes.window_append
    (f.header.encode ++ encodeChain
      (FileHeader.encodedSize f.buildIdentity) f.containers)
    f.space.encode.padded []
  rw [List.append_nil, List.length_append, FileHeader.length_encode,
    length_encodeChain, Bytes.length_padded, ← encode_eq] at happend
  rw [hstart, hroom]
  exact happend

theorem Storable.check_header {f : CacheFile} (h : f.Storable)
    (hf : f.WellFormed) :
    f.header.check f.encodedSize = .ok () := by
  have hsize := h.encodedSize_lt hf
  have hcount := h.containers_le
  unfold FileHeader.maxContainers at hcount
  have hsum : f.encodedSize = FileHeader.encodedSize f.buildIdentity +
      chainSize f.containers + alignUp f.space.encode.length := rfl
  have hnat : ∀ n, n ≤ f.encodedSize → (UInt64.ofNat n).toNat = n :=
    fun n hn => UInt64.toNat_ofNat_of_lt' (show n < 2 ^ 64 by omega)
  have hheader : (UInt32.ofNat (FileHeader.encodedSize f.buildIdentity)).toNat ≤
      FileHeader.encodedSize f.buildIdentity := by
    rw [UInt32.toNat_ofNat']
    exact Nat.mod_le _ _
  have hcontainers : (UInt32.ofNat f.containers.length).toNat =
      f.containers.length :=
    UInt32.toNat_ofNat_of_lt' (show _ < 2 ^ 32 by omega)
  unfold FileHeader.check
  rw [if_neg, if_neg, if_neg]
  · unfold header FileHeader.maxContainers
    dsimp only
    rw [hcontainers]
    omega
  · unfold header FileHeader.holds
    dsimp only
    rw [hnat _ (by omega), hnat _ (by omega), hnat _ (by omega),
      hnat _ (by omega), hnat _ (by omega)]
    simp only [Bool.not_eq_true', Bool.and_eq_false_iff, decide_eq_false_iff_not]
    omega
  · unfold header
    dsimp only
    rw [hnat _ (Nat.le_refl _)]
    exact fun hne => hne rfl

theorem Storable.decodeChain_eq {f : CacheFile} (h : f.Storable)
    (hf : f.WellFormed) :
    decodeChain f.encode (.ofKeys f.space.keys)
      (f.header.containerStart.toNat + f.header.containerSize.toNat) 0
      f.header.containerCount.toNat f.header.containerStart.toNat =
        .ok f.containers := by
  have hsize := h.encodedSize_lt hf
  have hsum : f.encodedSize = FileHeader.encodedSize f.buildIdentity +
      chainSize f.containers + alignUp f.space.encode.length := rfl
  have hlength : f.header.encode.length =
      FileHeader.encodedSize f.buildIdentity :=
    f.header.length_encode
  have hcount := h.containers_le
  unfold FileHeader.maxContainers at hcount
  have hcontainers : f.header.containerCount.toNat = f.containers.length :=
    UInt32.toNat_ofNat_of_lt' (show _ < 2 ^ 32 by omega)
  have hstart : f.header.containerStart.toNat = f.header.encode.length :=
    (UInt64.toNat_ofNat_of_lt' (show _ < 2 ^ 64 by omega)).trans hlength.symm
  have hroom : f.header.containerSize.toNat = chainSize f.containers :=
    UInt64.toNat_ofNat_of_lt' (show _ < 2 ^ 64 by omega)
  rw [hcontainers, hstart, hroom, encode_eq, ← hlength]
  have haccepts : ∀ c ∈ f.containers, Accepts (.ofKeys f.space.keys) c :=
    fun c hc => h.accepts hf hc
  have hfinish : f.header.encode.length + chainSize f.containers < 2 ^ 64 := by
    rw [hlength]
    omega
  have hne := h.containers_ne_nil
  generalize f.containers = cs at haccepts hfinish hne ⊢
  cases cs with
  | nil => exact absurd rfl hne
  | cons c cs =>
      exact decodeChain_encodeChain c cs _ _ _ _ haccepts (Nat.le_refl _) hfinish

theorem decode_encode {f : CacheFile} (hf : f.WellFormed) (h : f.Storable)
    {expected : Option String}
    (hexpected : expected = none ∨ expected = some f.buildIdentity) :
    decode f.encode expected = .ok
      { buildIdentity := f.buildIdentity
        space := .ofKeys f.space.keys
        containers := f.containers } := by
  have hlong : FileHeader.fixedSize ≤ f.encodedSize := by
    have hfixed := FileHeader.fixedSize_le_encodedSize f.buildIdentity
    unfold encodedSize
    omega
  have hbuild : f.header.checkBuild expected = .ok () := by
    rcases hexpected with rfl | rfl
    · rfl
    · exact if_pos rfl
  have hspace : MetaSpace.decode (f.encode.window f.header.metaStart.toNat
      f.header.metaSize.toNat) = .ok (.ofKeys f.space.keys) := by
    have hkeys := h.keys_lt
    rw [window_space (h.encodedSize_lt hf)]
    exact MetaSpace.decode_padded h.names_clean hf.distinct (by omega)
  unfold decode
  simp only [bind, Except.bind]
  rw [length_encode, if_neg (Nat.not_lt.mpr hlong),
    f.decode_run_encode h.identity_clean]
  dsimp only
  rw [h.check_header hf]
  dsimp only
  rw [hbuild]
  dsimp only
  rw [hspace]
  dsimp only
  rw [h.decodeChain_eq hf]
  rfl

end CacheFile

end CodeCache
