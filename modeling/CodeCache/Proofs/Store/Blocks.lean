import CodeCache.Proofs.Blob.Images
import CodeCache.Proofs.Store.Chains

/-!
# Code spaces as lists of blocks

A code space that was built by appending versions is a list of blobs, told by
number, each of which names the number of the next version of its method. The
blobs stand one behind the other, each on a multiple of eight, so that a link can
be changed without touching any other blob, and links go forwards only, so that
chains end.
-/

namespace CodeCache

namespace Bytes

theorem overwrite_middle (pre : Bytes) {part : Bytes} (post : Bytes)
    {offset : Nat} {new : Bytes} (h : offset + new.length ≤ part.length) :
    (pre ++ part ++ post).overwrite (pre.length + offset) new =
      pre ++ part.overwrite offset new ++ post := by
  have htake : (pre ++ part ++ post).take (pre.length + offset) =
      pre ++ part.take offset := by
    rw [List.append_assoc, List.take_length_add_append,
      List.take_append_of_le_length (by omega)]
  have hdrop : (pre ++ part ++ post).drop (pre.length + offset + new.length) =
      part.drop (offset + new.length) ++ post := by
    rw [List.append_assoc, Nat.add_assoc, List.drop_length_add_append,
      List.drop_append_of_le_length h]
  unfold overwrite
  rw [htake, hdrop]
  simp only [List.append_assoc]

end Bytes

structure Block where
  image : Blob.Image
  next : Option Nat := none

namespace Block

def room (b : Block) : Nat :=
  alignUp b.image.size

def start (blocks : List Block) (i : Nat) : Nat :=
  ((blocks.take i).map room).sum

def link (blocks : List Block) : Option Nat → Int32
  | none => -1
  | some j => (UInt32.ofNat (start blocks j)).toInt32

def bytes (blocks : List Block) (b : Block) : Bytes :=
  (b.image.bytes (link blocks b.next)).padded

def blob? (blocks : List Block) (i : Nat) : Option Blob :=
  blocks[i]?.map fun b =>
    b.image.blob (link blocks b.next) (UInt32.ofNat (start blocks i))

variable {blocks blocks' : List Block}

theorem length_bytes (blocks : List Block) (b : Block) :
    (b.bytes blocks).length = b.room := by
  rw [bytes, Bytes.length_padded, Blob.Image.length_bytes, room]

theorem byteSize_le_room (b : Block) : BlobHeader.byteSize ≤ b.room :=
  Nat.le_trans b.image.byteSize_le_size (le_alignUp _)

theorem length_flatMap_bytes (blocks all : List Block) :
    (all.flatMap (bytes blocks)).length = (all.map room).sum := by
  induction all with
  | nil => rfl
  | cons b rest ih =>
      rw [List.flatMap_cons, List.length_append, length_bytes, ih, List.map_cons,
        List.sum_cons]

theorem length_mul_le (all : List Block) :
    all.length * BlobHeader.byteSize ≤ (all.map room).sum := by
  induction all with
  | nil => exact Nat.zero_le _
  | cons b rest ih =>
      have hb := b.byteSize_le_room
      rw [List.map_cons, List.sum_cons, List.length_cons, Nat.succ_mul]
      omega

theorem start_succ {i : Nat} {b : Block} (h : blocks[i]? = some b) :
    start blocks (i + 1) = start blocks i + b.room := by
  unfold start
  rw [List.take_add_one, h, List.map_append, List.sum_append]
  simp only [Option.toList_some, List.map_cons, List.map_nil, List.sum_cons,
    List.sum_nil, Nat.add_zero]

theorem start_mod (blocks : List Block) (i : Nat) : start blocks i % 8 = 0 := by
  unfold start
  generalize blocks.take i = front
  induction front with
  | nil => rfl
  | cons b rest ih =>
      have hb : b.room % 8 = 0 := alignUp_mod _
      rw [List.map_cons, List.sum_cons]
      omega

theorem start_mono (blocks : List Block) {i j : Nat} (h : i ≤ j) :
    start blocks i ≤ start blocks j := by
  induction j with
  | zero => exact Nat.le_of_eq (congrArg (start blocks) (Nat.le_zero.mp h))
  | succ j ih =>
      rcases Nat.lt_or_eq_of_le h with hlt | rfl
      · have hle := ih (Nat.le_of_lt_succ hlt)
        cases hb : blocks[j]? with
        | none =>
            unfold start at hle ⊢
            rw [List.take_add_one, hb, Option.toList_none, List.append_nil]
            exact hle
        | some b =>
            rw [start_succ hb]
            omega
      · exact Nat.le_refl _

theorem start_append (blocks more : List Block) {i : Nat}
    (h : i ≤ blocks.length) :
    start (blocks ++ more) i = start blocks i := by
  unfold start
  rw [List.take_append_of_le_length h]

theorem start_of_images
    (h : blocks'.map (·.image) = blocks.map (·.image)) (i : Nat) :
    start blocks' i = start blocks i := by
  have hrooms : ∀ all : List Block, all.map room =
      (all.map (·.image)).map fun image => alignUp image.size := by
    intro all
    rw [List.map_map]
    rfl
  unfold start
  rw [List.map_take, List.map_take, hrooms, hrooms, h]

theorem map_image_set {i : Nat} {b : Block} (hb : blocks[i]? = some b)
    (next : Option Nat) :
    (blocks.set i { b with next }).map (·.image) = blocks.map (·.image) := by
  apply List.ext_getElem?
  intro j
  rw [List.map_set, List.getElem?_set]
  split
  · rename_i hij
    have hlt := (List.getElem?_eq_some_iff.mp hb).1
    rw [← hij, List.getElem?_map, hb, if_pos (by rwa [List.length_map])]
    rfl
  · rfl

theorem start_set {i : Nat} {b : Block} (hb : blocks[i]? = some b)
    (next : Option Nat) (k : Nat) :
    start (blocks.set i { b with next }) k = start blocks k :=
  start_of_images (map_image_set hb next) k

theorem bytes_congr {b : Block}
    (h : ∀ j, b.next = some j → start blocks' j = start blocks j) :
    b.bytes blocks' = b.bytes blocks := by
  unfold bytes link
  cases hnext : b.next with
  | none => rfl
  | some j => simp only [h j hnext]

theorem flatMap_bytes_congr {all : List Block}
    (h : ∀ b ∈ all, ∀ j, b.next = some j →
      start blocks' j = start blocks j) :
    all.flatMap (bytes blocks') = all.flatMap (bytes blocks) := by
  induction all with
  | nil => rfl
  | cons b rest ih =>
      rw [List.flatMap_cons, List.flatMap_cons,
        bytes_congr (h b List.mem_cons_self),
        ih fun c hc => h c (List.mem_cons_of_mem _ hc)]

/-!
## Chains
-/

inductive Chain (blocks : List Block) : Nat → List Nat → Prop where
  | last {i : Nat} {b : Block} (hb : blocks[i]? = some b)
      (hnext : b.next = none) : Chain blocks i [i]
  | cons {i j : Nat} {b : Block} {js : List Nat} (hb : blocks[i]? = some b)
      (hnext : b.next = some j) (rest : Chain blocks j js) :
      Chain blocks i (i :: js)

namespace Chain

theorem lt_length {i : Nat} {js : List Nat} (h : Chain blocks i js) :
    ∀ j ∈ js, j < blocks.length := by
  induction h with
  | last hb hnext =>
      intro j hj
      rw [List.mem_singleton.mp hj]
      exact (List.getElem?_eq_some_iff.mp hb).1
  | cons hb hnext rest ih =>
      intro j hj
      rcases List.mem_cons.mp hj with rfl | hmem
      · exact (List.getElem?_eq_some_iff.mp hb).1
      · exact ih j hmem

theorem first_lt {i : Nat} {js : List Nat} (h : Chain blocks i js) :
    i < blocks.length := by
  cases h with
  | last hb _ | cons hb _ _ => exact (List.getElem?_eq_some_iff.mp hb).1

theorem congr {i : Nat} {js : List Nat} (h : Chain blocks i js)
    (hsame : ∀ j ∈ js, blocks'[j]? = blocks[j]?) :
    Chain blocks' i js := by
  induction h with
  | last hb hnext =>
      exact .last ((hsame _ List.mem_cons_self).trans hb) hnext
  | cons hb hnext rest ih =>
      refine .cons ((hsame _ List.mem_cons_self).trans hb) hnext ?_
      exact ih fun j hj => hsame j (List.mem_cons_of_mem _ hj)

theorem snoc {i t n : Nat} {js : List Nat} (h : Chain blocks i (js ++ [t]))
    (hbefore : ∀ j ∈ js, blocks'[j]? = blocks[j]?) {b c : Block}
    (hlast : blocks'[t]? = some b) (hnext : b.next = some n)
    (hnew : blocks'[n]? = some c) (hend : c.next = none) :
    Chain blocks' i (js ++ [t, n]) := by
  induction js generalizing i with
  | nil =>
      cases h with
      | last hb hnone => exact .cons hlast hnext (.last hnew hend)
      | cons hb hsome rest => cases rest
  | cons j js ih =>
      rw [List.cons_append] at h
      cases js with
      | nil =>
          cases h with
          | cons hb hsome rest =>
              have hj := hbefore _ List.mem_cons_self
              exact .cons (hj.trans hb) hsome
                (ih rest fun k hk => absurd hk List.not_mem_nil)
      | cons k ks =>
          cases h with
          | cons hb hsome rest =>
              have hj := hbefore _ List.mem_cons_self
              exact .cons (hj.trans hb) hsome
                (ih rest fun l hl => hbefore l (List.mem_cons_of_mem _ hl))

end Chain

end Block

namespace CodeSpace

/-- The space is made of the blocks, which are sound and link forwards. -/
structure ConsistsOf (space : CodeSpace) (blocks : List Block) : Prop where
  bytes_eq : space.bytes = blocks.flatMap (Block.bytes blocks)
  sound : ∀ b ∈ blocks, b.image.Sound
  forwards : ∀ i b j, blocks[i]? = some b → b.next = some j →
    i < j ∧ j < blocks.length
  size_lt : space.size < 2 ^ 31

theorem consistsOf_nil : ConsistsOf {} [] where
  bytes_eq := rfl
  sound b hb := absurd hb List.not_mem_nil
  forwards i b j hb := by cases hb
  size_lt := Nat.two_pow_pos 31

namespace ConsistsOf

variable {space : CodeSpace} {blocks : List Block}

theorem size_eq (h : space.ConsistsOf blocks) :
    space.size = Block.start blocks blocks.length := by
  unfold size Block.start
  rw [h.bytes_eq, Block.length_flatMap_bytes, List.take_length]

theorem start_le (h : space.ConsistsOf blocks) (i : Nat) :
    Block.start blocks i ≤ space.size := by
  rw [h.size_eq]
  rcases Nat.le_total i blocks.length with hle | hge
  · exact Block.start_mono blocks hle
  · unfold Block.start
    exact Nat.le_of_eq (by rw [List.take_of_length_le hge, List.take_length])

theorem toNat_start (h : space.ConsistsOf blocks) (i : Nat) :
    (UInt32.ofNat (Block.start blocks i)).toNat = Block.start blocks i := by
  have hle := h.start_le i
  have hlt := h.size_lt
  exact UInt32.toNat_ofNat_of_lt' (show _ < 2 ^ 32 by omega)

theorem bytes_split (h : space.ConsistsOf blocks) {i : Nat} {b : Block}
    (hb : blocks[i]? = some b) :
    space.bytes = (blocks.take i).flatMap (Block.bytes blocks) ++
      b.bytes blocks ++ (blocks.drop (i + 1)).flatMap (Block.bytes blocks) := by
  have hsplit : blocks = blocks.take i ++ b :: blocks.drop (i + 1) := by
    rw [← (List.getElem?_eq_some_iff.mp hb).2, List.getElem_cons_drop,
      List.take_append_drop]
  rw [h.bytes_eq]
  conv => lhs; rw [hsplit]
  rw [List.flatMap_append, List.flatMap_cons, ← hsplit, List.append_assoc]

theorem hasPart (h : space.ConsistsOf blocks) {i : Nat} {b : Block}
    (hb : blocks[i]? = some b) :
    space.bytes.HasPart (Block.start blocks i) (b.bytes blocks) :=
  ⟨_, _, h.bytes_split hb, Block.length_flatMap_bytes _ _⟩

theorem blob_eq (h : space.ConsistsOf blocks) {i : Nat} {b : Blob}
    (hb : Block.blob? blocks i = some b) :
    space.blob (UInt32.ofNat (Block.start blocks i)) = .ok b := by
  unfold Block.blob? at hb
  rw [Option.map_eq_some_iff] at hb
  rcases hb with ⟨block, hblock, rfl⟩
  have hsound := h.sound block (List.mem_of_getElem? hblock)
  refine hsound.parse_eq ?_ ?_
  · rw [h.toNat_start]
    exact (h.hasPart hblock).of_padded
  · rw [h.toNat_start]
    exact Block.start_mod blocks i

theorem next?_eq (h : space.ConsistsOf blocks) {i : Nat} {b : Block} {c : Blob}
    (hb : blocks[i]? = some b) (hc : Block.blob? blocks i = some c) :
    c.header.next? =
      b.next.map fun j => UInt32.ofNat (Block.start blocks j) := by
  unfold Block.blob? at hc
  rw [hb, Option.map_some] at hc
  cases hc
  show (if 0 ≤ Block.link blocks b.next then
    some (Block.link blocks b.next).toUInt32 else none) = _
  cases b.next with
  | none => exact if_neg (show ¬ (0 : Int32) ≤ -1 by decide)
  | some j =>
      have hle := h.start_le j
      have hlt := h.size_lt
      have hpos : 0 ≤ Block.link blocks (some j) := by
        unfold Block.link
        dsimp only
        rw [Int32.le_iff_toInt_le, UInt32.toInt32_ofNat',
          Int32.toInt_ofNat_of_lt (by omega), Int32.toInt_zero]
        omega
      rw [if_pos hpos]
      rfl

/-!
## Versions
-/

theorem exists_chain (h : space.ConsistsOf blocks) {i : Nat}
    (hi : i < blocks.length) :
    ∃ js, Block.Chain blocks i js := by
  generalize hn : blocks.length - i = n
  induction n using Nat.strongRecOn generalizing i with
  | ind n ih =>
      have hb := List.getElem?_eq_getElem hi
      cases hnext : blocks[i].next with
      | none => exact ⟨[i], .last hb hnext⟩
      | some j =>
          rcases h.forwards i _ j hb hnext with ⟨hij, hj⟩
          rcases ih (blocks.length - j) (by omega) hj rfl with ⟨js, hchain⟩
          exact ⟨i :: js, .cons hb hnext hchain⟩

theorem length_chain_le (h : space.ConsistsOf blocks) {i : Nat} {js : List Nat}
    (hchain : Block.Chain blocks i js) :
    js.length ≤ blocks.length - i := by
  induction hchain with
  | last hb hnext =>
      have hi := (List.getElem?_eq_some_iff.mp hb).1
      rw [List.length_singleton]
      omega
  | cons hb hnext rest ih =>
      rcases h.forwards _ _ _ hb hnext with ⟨hij, hj⟩
      rw [List.length_cons]
      omega

theorem length_le (h : space.ConsistsOf blocks) :
    blocks.length * BlobHeader.byteSize ≤ space.size := by
  have hle := Block.length_mul_le blocks
  rw [h.size_eq]
  unfold Block.start
  rw [List.take_length]
  exact hle

theorem versionsFrom_eq (h : space.ConsistsOf blocks) {i : Nat} {js : List Nat}
    (hchain : Block.Chain blocks i js) {steps : Nat} (hsteps : js.length ≤ steps) :
    ∃ blobs, space.versionsFrom steps (UInt32.ofNat (Block.start blocks i)) =
        blobs.map .ok ∧
      List.Forall₂ (fun j b => Block.blob? blocks j = some b) js blobs := by
  induction hchain generalizing steps with
  | @last i b hb hnext =>
      cases steps with
      | zero => cases hsteps
      | succ steps =>
          have hblob : Block.blob? blocks i = some _ :=
            congrArg (Option.map _) hb
          have hend := h.next?_eq hb hblob
          rw [hnext, Option.map_none] at hend
          refine ⟨[_], ?_, .cons hblob .nil⟩
          rw [versionsFrom, h.blob_eq hblob]
          dsimp only
          rw [hend]
          rfl
  | @cons i j b js hb hnext rest ih =>
      cases steps with
      | zero => cases hsteps
      | succ steps =>
          rcases ih (Nat.le_of_succ_le_succ hsteps) with ⟨blobs, hrest, hall⟩
          have hblob : Block.blob? blocks i = some _ :=
            congrArg (Option.map _) hb
          have hmore := h.next?_eq hb hblob
          rw [hnext, Option.map_some] at hmore
          refine ⟨_ :: blobs, ?_, .cons hblob hall⟩
          rw [versionsFrom, h.blob_eq hblob]
          dsimp only
          rw [hmore]
          dsimp only
          rw [hrest]
          rfl

theorem chain_eq (h : space.ConsistsOf blocks) {i : Nat} {js : List Nat}
    (hchain : Block.Chain blocks i js) :
    ∃ blobs, space.chain (UInt32.ofNat (Block.start blocks i)) = .ok blobs ∧
      List.Forall₂ (fun j b => Block.blob? blocks j = some b) js blobs := by
  have hsteps : js.length ≤ space.size / BlobHeader.byteSize + 1 := by
    have hlength := h.length_chain_le hchain
    have hroom := (Nat.le_div_iff_mul_le (by decide)).mpr h.length_le
    omega
  rcases h.versionsFrom_eq hchain hsteps with ⟨blobs, hversions, hall⟩
  exact ⟨blobs, chain_eq_ok_iff.mpr hversions, hall⟩

theorem lastVersion_eq (h : space.ConsistsOf blocks) {i t : Nat} {js : List Nat}
    (hchain : Block.Chain blocks i (js ++ [t])) :
    space.lastVersion (UInt32.ofNat (Block.start blocks i)) =
      .ok (UInt32.ofNat (Block.start blocks t)) := by
  rcases h.chain_eq hchain with ⟨blobs, heq, hall⟩
  rcases forall₂_append_left hall with ⟨before, after, rfl, -, hlast⟩
  cases hlast with
  | @cons _ b _ rest hb hnil =>
      cases hnil
      have hoffset : b.offset = UInt32.ofNat (Block.start blocks t) := by
        unfold Block.blob? at hb
        rw [Option.map_eq_some_iff] at hb
        rcases hb with ⟨block, _, rfl⟩
        rfl
      unfold lastVersion
      rw [heq]
      show Except.ok (((before ++ [b]).getLast?.map (·.offset)).getD _) = _
      rw [List.getLast?_concat, Option.map_some, Option.getD_some, hoffset]

/-!
## Adding versions
-/

theorem append (h : space.ConsistsOf blocks) {image : Blob.Image}
    (himage : image.Sound) {space' : CodeSpace} {offset : UInt32}
    (happend : space.append (image.bytes (-1)) = .ok (space', offset)) :
    offset = UInt32.ofNat (Block.start blocks blocks.length) ∧
      space'.ConsistsOf (blocks ++ [⟨image, none⟩]) := by
  have hlt := (size_of_append happend).2
  have hspace : space.size % 8 = 0 := by
    rw [h.size_eq]
    exact Block.start_mod _ _
  have hold : blocks.flatMap (Block.bytes (blocks ++ [⟨image, none⟩])) =
      blocks.flatMap (Block.bytes blocks) := by
    refine Block.flatMap_bytes_congr ?_
    intro b hb j hnext
    rcases List.getElem?_of_mem hb with ⟨i, hi⟩
    exact Block.start_append _ _ (Nat.le_of_lt (h.forwards i b j hi hnext).2)
  unfold CodeSpace.append at happend
  dsimp only at happend
  split at happend
  · cases happend
  · cases happend
    refine ⟨?_, ?_, ?_, ?_, hlt⟩
    · rw [alignUp_of_mod hspace, h.size_eq]
    · rw [List.flatMap_append, List.flatMap_cons, List.flatMap_nil,
        List.append_nil, hold]
      show space.bytes.padded ++ (image.bytes (-1)).padded = _
      rw [Bytes.padded_of_mod hspace, h.bytes_eq]
      rfl
    · intro b hb
      rcases List.mem_append.mp hb with hmem | hnew
      · exact h.sound b hmem
      · rw [List.mem_singleton.mp hnew]
        exact himage
    · intro i b j hb hnext
      rw [List.length_append, List.length_singleton]
      rcases Nat.lt_or_ge i blocks.length with hi | hi
      · rw [List.getElem?_append_left hi] at hb
        rcases h.forwards i b j hb hnext with ⟨hij, hj⟩
        exact ⟨hij, by omega⟩
      · rw [List.getElem?_append_right hi] at hb
        rw [List.mem_singleton.mp (List.mem_of_getElem? hb)] at hnext
        cases hnext

theorem setLink (h : space.ConsistsOf blocks) {i j : Nat} {b : Block}
    (hb : blocks[i]? = some b) (hij : i < j) (hj : j < blocks.length) :
    (space.setLink (UInt32.ofNat (Block.start blocks i))
      (UInt32.ofNat (Block.start blocks j))).ConsistsOf
        (blocks.set i { b with next := some j }) := by
  have hi := (List.getElem?_eq_some_iff.mp hb).1
  have hget := (List.getElem?_eq_some_iff.mp hb).2
  have hstart := Block.start_set hb (some j)
  have hbytes : ∀ all : List Block,
      all.flatMap (Block.bytes (blocks.set i { b with next := some j })) =
        all.flatMap (Block.bytes blocks) :=
    fun all => Block.flatMap_bytes_congr fun _ _ k _ => hstart k
  have hset : blocks.set i { b with next := some j } =
      blocks.take i ++ { b with next := some j } :: blocks.drop (i + 1) := by
    rw [List.set_eq_take_append_cons_drop, if_pos hi]
  refine ⟨?_, ?_, ?_, ?_⟩
  · have hpre : ((blocks.take i).flatMap (Block.bytes blocks)).length =
        Block.start blocks i :=
      Block.length_flatMap_bytes _ _
    have hroom : BlobHeader.nextVersionOffset +
        (Bytes.ofInt32 (UInt32.ofNat (Block.start blocks j)).toInt32).length ≤
          (b.image.bytes (Block.link blocks b.next)).length := by
      have hle := b.image.byteSize_le_size
      rw [Blob.Image.length_bytes, Bytes.length_ofInt32]
      unfold BlobHeader.nextVersionOffset
      unfold BlobHeader.byteSize at hle
      omega
    have hpadded : BlobHeader.nextVersionOffset +
        (Bytes.ofInt32 (UInt32.ofNat (Block.start blocks j)).toInt32).length ≤
          (b.bytes blocks).length := by
      rw [Block.bytes, Bytes.length_padded]
      exact Nat.le_trans hroom (le_alignUp _)
    have hlinked : Block.bytes blocks { b with next := some j } =
        (b.bytes blocks).overwrite BlobHeader.nextVersionOffset
          (Bytes.ofInt32 (UInt32.ofNat (Block.start blocks j)).toInt32) := by
      rw [Block.bytes, Block.bytes, Bytes.overwrite_padded hroom,
        Blob.Image.bytes_setNext]
      rfl
    show space.bytes.overwrite _ _ = _
    rw [hbytes, hset, h.toNat_start, h.bytes_split hb, ← hpre,
      Bytes.overwrite_middle _ _ hpadded, List.flatMap_append, List.flatMap_cons,
      hlinked, List.append_assoc]
  · intro c hc
    rcases List.mem_or_eq_of_mem_set hc with hold | hnew
    · exact h.sound c hold
    · rw [hnew]
      exact h.sound b (List.mem_of_getElem? hb)
  · intro k c l hc hnext
    rw [List.length_set]
    rw [List.getElem?_set] at hc
    split at hc
    · rename_i hik
      cases hc
      cases hnext
      rw [← hik]
      exact ⟨hij, hj⟩
    · exact h.forwards k c l hc hnext
  · rw [size_setLink]
    · exact h.size_lt
    · have hfits := (h.hasPart hb).fits
      have hle := b.byteSize_le_room
      rw [Block.length_bytes] at hfits
      rw [h.toNat_start]
      unfold size
      omega

theorem appendVersion_none (h : space.ConsistsOf blocks) {image : Blob.Image}
    (himage : image.Sound) {space' : CodeSpace} {offset : UInt32}
    (happend : space.appendVersion none (image.bytes (-1)) =
      .ok (space', offset)) :
    offset = UInt32.ofNat (Block.start blocks blocks.length) ∧
      space'.ConsistsOf (blocks ++ [⟨image, none⟩]) := by
  rcases of_bind_eq_ok happend with ⟨tail, htail, happend⟩
  cases htail
  rcases of_bind_eq_ok happend with ⟨⟨grown, place⟩, hgrown, hdone⟩
  cases hdone
  exact h.append himage hgrown

theorem appendVersion_some (h : space.ConsistsOf blocks) {image : Blob.Image}
    (himage : image.Sound) {i t : Nat} {js : List Nat}
    (hchain : Block.Chain blocks i (js ++ [t])) {space' : CodeSpace}
    {offset : UInt32}
    (happend : space.appendVersion (some (UInt32.ofNat (Block.start blocks i)))
      (image.bytes (-1)) = .ok (space', offset)) :
    offset = UInt32.ofNat (Block.start blocks blocks.length) ∧
      ∃ b, blocks[t]? = some b ∧ space'.ConsistsOf
        (List.set (blocks ++ [⟨image, none⟩]) t
          { b with next := some blocks.length }) := by
  rcases of_bind_eq_ok happend with ⟨tail, htail, happend⟩
  have hlast := h.lastVersion_eq hchain
  change (space.lastVersion _ >>= fun a => pure (some a)) = _ at htail
  rw [hlast] at htail
  cases htail
  rcases of_bind_eq_ok happend with ⟨⟨grown, place⟩, hgrown, hdone⟩
  rcases h.append himage hgrown with ⟨rfl, hconsists⟩
  cases hdone
  refine ⟨rfl, ?_⟩
  have ht : t < blocks.length :=
    hchain.lt_length t (List.mem_append_right _ List.mem_cons_self)
  have hb : (blocks ++ [⟨image, none⟩])[t]? = some blocks[t] := by
    rw [List.getElem?_append_left ht, List.getElem?_eq_getElem ht]
  refine ⟨blocks[t], List.getElem?_eq_getElem ht, ?_⟩
  have hlinked := hconsists.setLink hb ht (by
    rw [List.length_append, List.length_singleton]
    omega)
  rw [Block.start_append _ _ (Nat.le_of_lt ht),
    Block.start_append _ _ (Nat.le_refl _)] at hlinked
  exact hlinked

end ConsistsOf

end CodeSpace

end CodeCache
