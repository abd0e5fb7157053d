import CodeCache.Proofs.Store.Rows
import Mathlib.Data.List.Dedup

/-!
# Containers filled in any order

Versions of several methods may be added in turns. Each version still becomes
the last of the chain of its own method, and leaves the chains of all others
alone: what a container holds is the list of its additions, and whatever is read
from it can be told from that list.
-/

namespace CodeCache

structure Addition where
  index : UInt32
  name : String
  image : Blob.Image

namespace Addition

variable {adds : List Addition} {index : UInt32}

def numbered (index : UInt32) (adds : List Addition) : List (Addition × Nat) :=
  adds.zipIdx.filter fun (a, _) => a.index == index

def toMethod (index : UInt32) (adds : List Addition) : List Addition :=
  adds.filter fun a => a.index == index

def numbers (index : UInt32) (adds : List Addition) : List Nat :=
  (numbered index adds).map Prod.snd

theorem numbered_concat (index : UInt32) (adds : List Addition) (a : Addition) :
    numbered index (adds ++ [a]) = numbered index adds ++
      if a.index = index then [(a, adds.length)] else [] := by
  unfold numbered
  rw [List.zipIdx_append, List.filter_append, Nat.zero_add]
  by_cases h : a.index = index
  · simp [h]
  · simp [h]

theorem numbers_concat_self {a : Addition} (adds : List Addition)
    (h : a.index = index) :
    numbers index (adds ++ [a]) = numbers index adds ++ [adds.length] := by
  unfold numbers
  rw [numbered_concat, if_pos h, List.map_append]
  rfl

theorem numbers_concat_ne {a : Addition} (adds : List Addition)
    (h : a.index ≠ index) :
    numbers index (adds ++ [a]) = numbers index adds := by
  unfold numbers
  rw [numbered_concat, if_neg h, List.append_nil]

theorem of_mem_numbered {a : Addition} {i : Nat}
    (h : (a, i) ∈ numbered index adds) :
    adds[i]? = some a ∧ a.index = index := by
  unfold numbered at h
  rw [List.mem_filter] at h
  exact ⟨List.mem_zipIdx_iff_getElem?.mp h.1, beq_iff_eq.mp h.2⟩

theorem of_mem_numbers {i : Nat} (h : i ∈ numbers index adds) :
    ∃ a, adds[i]? = some a ∧ a.index = index := by
  unfold numbers at h
  rw [List.mem_map] at h
  rcases h with ⟨⟨a, i'⟩, hmem, rfl⟩
  exact ⟨a, of_mem_numbered hmem⟩

theorem nodup_numbers (index : UInt32) (adds : List Addition) :
    (numbers index adds).Nodup := by
  have hall : (adds.zipIdx.map Prod.snd).Nodup := by
    rw [List.zipIdx_map_snd]
    exact List.nodup_range'
  exact hall.sublist (List.filter_sublist.map Prod.snd)

theorem map_fst_numbered (index : UInt32) (adds : List Addition) :
    (numbered index adds).map Prod.fst = toMethod index adds := by
  have h := List.filter_map (f := Prod.fst)
    (p := fun a : Addition => a.index == index) (l := adds.zipIdx)
  rw [List.zipIdx_map_fst] at h
  exact h.symm

theorem numbers_ne_nil {a : Addition} (h : a ∈ adds) :
    numbers a.index adds ≠ [] := by
  intro hnil
  unfold numbers at hnil
  rw [List.map_eq_nil_iff] at hnil
  have hmem : a ∈ toMethod a.index adds :=
    List.mem_filter.mpr ⟨h, beq_self_eq_true _⟩
  rw [← map_fst_numbered, hnil] at hmem
  cases hmem

end Addition

def CodeSpace.Yields (space : CodeSpace) (head : UInt32)
    (images : List Blob.Image) : Prop :=
  ∃ blobs : List Blob, space.versions head = blobs.map .ok ∧
    List.Forall₂ (fun image b => ∃ next, b = Blob.Image.blob image next b.offset)
      images blobs

namespace Container

/-- The container holds the additions and nothing else: one block for each, in
order, and in the table one entry for each method, which leads to the chain of
its additions. -/
structure Records (c : Container) (adds : List Addition) (blocks : List Block) :
    Prop where
  consists : c.code.ConsistsOf blocks
  images_eq : blocks.map (·.image) = adds.map (·.image)
  tidy : c.table.Tidy
  leads : ∀ a ∈ adds, ∃ place first, c.table.Has a.name a.index place ∧
    c.table.codeOffset? place =
      some (UInt32.ofNat (Block.start blocks first)) ∧
    Block.Chain blocks first (Addition.numbers a.index adds)
  index_lt : ∀ a ∈ adds, a.index.toNat < 2 ^ 31
  listed : ∀ p, (c.table.entryAt p).isEmpty = false →
    ∃ a ∈ adds, (c.table.entryAt p).metaIndex = a.index.toInt32
  length_le : c.table.entries.length ≤ c.table.bucketCount + adds.length

namespace Records

variable {c c' : Container} {adds : List Addition} {blocks : List Block}

theorem of_sized (fingerprint : Fingerprint) {expected : Nat}
    (h : LookupTable.headerSize +
      max expected LookupTable.minBuckets * TableEntry.byteSize < 2 ^ 31) :
    (sized fingerprint expected).Records [] [] := by
  constructor
  · exact CodeSpace.consistsOf_nil
  · rfl
  · exact LookupTable.tidy_sized h
  · intro a ha
    cases ha
  · intro a ha
    cases ha
  · intro p hp
    change ((LookupTable.sized expected).entryAt p).isEmpty = false at hp
    rw [LookupTable.entryAt_sized] at hp
    cases hp
  · exact Nat.le_of_eq List.length_replicate

theorem length_eq (h : c.Records adds blocks) : blocks.length = adds.length := by
  simpa only [List.length_map] using congrArg List.length h.images_eq

theorem image_eq (h : c.Records adds blocks) {i : Nat} {b : Block} {a : Addition}
    (hb : blocks[i]? = some b) (ha : adds[i]? = some a) :
    b.image = a.image := by
  have hsame := congrArg (·[i]?) h.images_eq
  simp only [List.getElem?_map, hb, ha, Option.map_some] at hsame
  exact Option.some_inj.mp hsame

theorem length_mul_le (h : c.Records adds blocks) :
    adds.length * BlobHeader.byteSize < 2 ^ 31 := by
  rw [← h.length_eq]
  exact Nat.lt_of_le_of_lt h.consists.length_le h.consists.size_lt

/-!
## Adding a version
-/

theorem images_concat (h : c.Records adds blocks) (a : Addition) :
    (blocks ++ [(⟨a.image, none⟩ : Block)]).map (·.image) =
      (adds ++ [a]).map (·.image) := by
  rw [List.map_append, List.map_append, h.images_eq]
  rfl

theorem room (h : c.Records adds blocks)
    (hbuckets : c.table.bucketCount ≤ 10 ^ 8) :
    LookupTable.headerSize +
      (c.table.entries.length + 1) * TableEntry.byteSize < 2 ^ 31 := by
  have hlength := h.length_le
  have hmany := h.length_mul_le
  unfold BlobHeader.byteSize at hmany
  unfold LookupTable.headerSize TableEntry.byteSize
  omega

theorem addFirst (h : c.Records adds blocks) {a : Addition} {offset : UInt32}
    (hindex : a.index.toNat < 2 ^ 31) (hnew : ∀ b ∈ adds, b.index ≠ a.index)
    (hbuckets : c.table.bucketCount ≤ 10 ^ 8) (himage : a.image.Sound)
    (hadd : c.addVersion a.index a.name (a.image.bytes (-1)) =
      .ok (c', offset)) :
    c'.Records (adds ++ [a]) (blocks ++ [⟨a.image, none⟩]) := by
  have habsent := LookupTable.absent_of_listed h.listed hindex hnew
  have hroom := h.room hbuckets
  rcases addVersion_absent h.tidy h.consists hindex habsent hroom himage hadd
    with ⟨place, hgains, hconsists⟩
  have hlength := h.length_eq
  constructor
  · exact hconsists
  · exact h.images_concat a
  · exact hgains.tidy
  · intro b hb
    rcases List.mem_append.mp hb with hold | hlast
    · rcases h.leads b hold with ⟨p, first, hhas, hhead, hchain⟩
      rcases hgains.kept _ _ p (h.index_lt b hold) hhas with ⟨hhas', hsame⟩
      have hlt := hchain.lt_length
      have hfirst := hchain.first_lt
      refine ⟨p, first, hhas', ?_, ?_⟩
      · rw [hsame, hhead, Block.start_append _ _ (Nat.le_of_lt hfirst)]
      · rw [Addition.numbers_concat_ne adds (hnew b hold).symm]
        apply hchain.congr
        intro j hj
        exact List.getElem?_append_left (hlt j hj)
    · cases List.mem_singleton.mp hlast
      refine ⟨place, blocks.length, hgains.has, ?_, ?_⟩
      · rw [hgains.codeOffset?_eq, Block.start_append _ _ (Nat.le_refl _)]
      · have hnone : Addition.numbers a.index adds = [] := by
          rw [List.eq_nil_iff_forall_not_mem]
          intro i hi
          rcases Addition.of_mem_numbers hi with ⟨b, hb, hsame⟩
          exact hnew b (List.mem_of_getElem? hb) hsame
        rw [Addition.numbers_concat_self adds rfl, hnone, ← hlength]
        exact .last List.getElem?_concat_length rfl
  · intro b hb
    rcases List.mem_append.mp hb with hold | hlast
    · exact h.index_lt b hold
    · cases List.mem_singleton.mp hlast
      exact hindex
  · intro p hp
    rcases hgains.old_or_new p hp with hnew | ⟨hold, hsame⟩
    · exact ⟨a, List.mem_append_right _ List.mem_cons_self, hnew⟩
    · rcases h.listed p hold with ⟨b, hb, hlisted⟩
      exact ⟨b, List.mem_append_left _ hb, hsame.trans hlisted⟩
  · have hgrown := hgains.le_length
    have hle := h.length_le
    rw [hgains.bucketCount_eq, List.length_append, List.length_singleton]
    omega

/-- Linking the last version of a method to one more leaves the chains of the
other methods alone, and makes its own longer. -/
theorem chain_addAgain (h : c.Records adds blocks) {a : Addition} {front : List Nat}
    {t : Nat} (hnumbers : Addition.numbers a.index adds = front ++ [t]) {b : Block}
    (hb : blocks[t]? = some b) {index : UInt32} {first : Nat}
    (hchain : Block.Chain blocks first (Addition.numbers index adds)) :
    Block.Chain
      (List.set (blocks ++ [⟨a.image, none⟩]) t
        { b with next := some blocks.length })
      first (Addition.numbers index (adds ++ [a])) := by
  have ht := (List.getElem?_eq_some_iff.mp hb).1
  have hmem : t ∈ Addition.numbers a.index adds := by
    rw [hnumbers]
    exact List.mem_append_right _ List.mem_cons_self
  have hother : ∀ j, j < blocks.length → j ≠ t →
      (List.set (blocks ++ [⟨a.image, none⟩]) t
        { b with next := some blocks.length })[j]? = blocks[j]? := by
    intro j hj hne
    rw [List.getElem?_set_ne hne.symm, List.getElem?_append_left hj]
  have hlt := hchain.lt_length
  by_cases hsame : a.index = index
  · subst hsame
    rw [Addition.numbers_concat_self adds rfl, hnumbers, List.append_assoc]
    rw [hnumbers] at hchain hlt
    have hdistinct := Addition.nodup_numbers a.index adds
    rw [hnumbers, List.nodup_append] at hdistinct
    apply hchain.snoc
    · intro j hj
      apply hother j (hlt j (List.mem_append_left _ hj))
      intro heq
      exact hdistinct.2.2 j hj t List.mem_cons_self heq
    · rw [List.getElem?_set_self]
      rw [List.length_append]
      exact Nat.lt_add_right _ ht
    · exact congrArg some h.length_eq
    · rw [← h.length_eq, List.getElem?_set_ne (Nat.ne_of_lt ht)]
      exact List.getElem?_concat_length
    · rfl
  · rw [Addition.numbers_concat_ne adds hsame]
    apply hchain.congr
    intro j hj
    apply hother j (hlt j hj)
    intro heq
    rcases Addition.of_mem_numbers hj with ⟨d, hd, hindex⟩
    rcases Addition.of_mem_numbers hmem with ⟨e, he, hindex'⟩
    rw [heq, he] at hd
    cases hd
    exact hsame (hindex'.symm.trans hindex)

theorem addAgain (h : c.Records adds blocks) {a d : Addition} {offset : UInt32}
    (hd : d ∈ adds) (hindex : d.index = a.index) (hname : d.name = a.name)
    (himage : a.image.Sound)
    (hadd : c.addVersion a.index a.name (a.image.bytes (-1)) =
      .ok (c', offset)) :
    ∃ blocks', c'.Records (adds ++ [a]) blocks' := by
  rcases h.leads d hd with ⟨place, first, hhas, hhead, hchain⟩
  have hlt := h.index_lt d hd
  have hne := Addition.numbers_ne_nil hd
  rw [hindex] at hhas hchain hlt hne
  rw [hname] at hhas
  rcases List.eq_nil_or_concat' (Addition.numbers a.index adds) with
    hnil | ⟨front, t, hnumbers⟩
  · exact absurd hnil hne
  rw [hnumbers] at hchain
  rcases addVersion_present h.tidy h.consists hlt hhas hhead hchain himage hadd
    with ⟨htable, b, hb, hconsists⟩
  have hlast : (blocks ++ [⟨a.image, none⟩])[t]? = some b :=
    (List.getElem?_append_left (List.getElem?_eq_some_iff.mp hb).1).trans hb
  refine ⟨_, hconsists, ?_, ?_, ?_, ?_, ?_, ?_⟩
  · rw [Block.map_image_set hlast]
    exact h.images_concat a
  · rw [htable]
    exact h.tidy
  · rw [htable]
    have hleads : ∀ e ∈ adds, ∃ place first, c.table.Has e.name e.index place ∧
        c.table.codeOffset? place = some (UInt32.ofNat (Block.start
          (List.set (blocks ++ [⟨a.image, none⟩]) t
            { b with next := some blocks.length }) first)) ∧
        Block.Chain (List.set (blocks ++ [⟨a.image, none⟩]) t
          { b with next := some blocks.length })
          first (Addition.numbers e.index (adds ++ [a])) := by
      intro e he
      rcases h.leads e he with ⟨p, k, hhas', hhead', hchain'⟩
      refine ⟨p, k, hhas', ?_, h.chain_addAgain hnumbers hb hchain'⟩
      rw [hhead', Block.start_set hlast,
        Block.start_append _ _ (Nat.le_of_lt hchain'.first_lt)]
    intro e he
    rcases List.mem_append.mp he with hold | hnew
    · exact hleads e hold
    · cases List.mem_singleton.mp hnew
      have hsame := hleads d hd
      rwa [hname, hindex] at hsame
  · intro e he
    rcases List.mem_append.mp he with hold | hnew
    · exact h.index_lt e hold
    · cases List.mem_singleton.mp hnew
      exact hlt
  · rw [htable]
    intro p hp
    rcases h.listed p hp with ⟨e, he, hlisted⟩
    exact ⟨e, List.mem_append_left _ he, hlisted⟩
  · rw [htable, List.length_append]
    exact Nat.le_trans h.length_le (by simp)

theorem addVersion (h : c.Records adds blocks) {a : Addition} {offset : UInt32}
    (hindex : a.index.toNat < 2 ^ 31)
    (hname : ∀ b ∈ adds, b.index = a.index → b.name = a.name)
    (hbuckets : c.table.bucketCount ≤ 10 ^ 8) (himage : a.image.Sound)
    (hadd : c.addVersion a.index a.name (a.image.bytes (-1)) =
      .ok (c', offset)) :
    ∃ blocks', c'.Records (adds ++ [a]) blocks' := by
  by_cases hold : ∃ d ∈ adds, d.index = a.index
  · rcases hold with ⟨d, hd, hsame⟩
    exact h.addAgain hd hsame (hname d hd hsame) himage hadd
  · have hnew : ∀ b ∈ adds, b.index ≠ a.index :=
      fun b hb hsame => hold ⟨b, hb, hsame⟩
    exact ⟨_, h.addFirst hindex hnew hbuckets himage hadd⟩

/-!
## Reading
-/

theorem yields (h : c.Records adds blocks) {index : UInt32} {first : Nat}
    (hchain : Block.Chain blocks first (Addition.numbers index adds)) :
    c.code.Yields (UInt32.ofNat (Block.start blocks first))
      ((Addition.toMethod index adds).map (·.image)) := by
  rcases h.consists.chain_eq hchain with ⟨blobs, hblobs, hall⟩
  refine ⟨blobs, CodeSpace.chain_eq_ok_iff.mp hblobs, ?_⟩
  unfold Addition.numbers at hall
  rw [← Addition.map_fst_numbered, List.map_map, List.forall₂_map_left_iff]
  rw [List.forall₂_map_left_iff] at hall
  have hnumbered : ∀ x ∈ Addition.numbered index adds, adds[x.2]? = some x.1 :=
    fun x hx => (Addition.of_mem_numbered hx).1
  clear hblobs
  generalize Addition.numbered index adds = xs at hall hnumbered ⊢
  induction hall with
  | nil => exact .nil
  | @cons x b xs blobs hx _ ih =>
      refine .cons ?_ (ih fun y hy => hnumbered y (List.mem_cons_of_mem _ hy))
      unfold Block.blob? at hx
      rw [Option.map_eq_some_iff] at hx
      rcases hx with ⟨block, hblock, rfl⟩
      rw [h.image_eq hblock (hnumbered x List.mem_cons_self)]
      exact ⟨_, rfl⟩

theorem exists_place (h : c.Records adds blocks) {a : Addition} (ha : a ∈ adds) :
    ∃ place head, c.table.Has a.name a.index place ∧
      c.table.codeOffset? place = some head ∧
      c.code.Yields head ((Addition.toMethod a.index adds).map (·.image)) := by
  rcases h.leads a ha with ⟨place, first, hhas, hhead, hchain⟩
  exact ⟨place, _, hhas, hhead, h.yields hchain⟩

theorem exists_addition (h : c.Records adds blocks) {p : Nat}
    (hp : (c.table.entryAt p).isEmpty = false) :
    ∃ a ∈ adds, c.table.metaIndex p = a.index := by
  rcases h.listed p hp with ⟨a, ha, hlisted⟩
  refine ⟨a, ha, ?_⟩
  unfold LookupTable.metaIndex
  rw [hlisted, UInt32.toUInt32_toInt32]

theorem exists_head (h : c.Records adds blocks) {p : Nat}
    (hp : p < c.table.entries.length) {a : Addition} (ha : a ∈ adds)
    (hindex : c.table.metaIndex p = a.index) :
    ∃ head, c.table.codeOffset? p = some head ∧
      c.code.Yields head ((Addition.toMethod a.index adds).map (·.image)) := by
  rcases h.exists_place ha with ⟨place, head, hhas, hhead, hyields⟩
  have hsame : (c.table.entryAt p).metaIndex = a.index.toInt32 := by
    rw [← hindex]
    exact (Int32.toInt32_toUInt32 _).symm
  rw [h.tidy.eq_of_has hhas (h.index_lt a ha) hp hsame]
  exact ⟨head, hhead, hyields⟩

theorem exists_candidates (h : c.Records adds blocks) (name : String) :
    ∃ places : List Nat,
      (∀ compare, c.table.find name compare =
        .ok (c.table.outcome compare false places)) ∧
      (∀ p ∈ places, p < c.table.entries.length ∧
        ∃ a ∈ adds, c.table.metaIndex p = a.index) ∧
      ∀ a ∈ adds, a.name = name →
        ∃ p ∈ places, c.table.metaIndex p = a.index := by
  rcases h.tidy.leads _ (h.tidy.bucket_lt (LookupTable.nameHash name)) with
    ⟨places, hleads⟩
  have hchain := h.tidy.chain_eq hleads
  have hlt := hleads.path.lt_length
  generalize c.table.bucket (LookupTable.nameHash name) :: places = places
    at hchain hlt
  refine ⟨c.table.candidates (LookupTable.nameHash name) places, ?_, ?_, ?_⟩
  · intro compare
    unfold LookupTable.find
    rw [hchain]
    exact c.table.search_eq_outcome _ _ _ _
  · intro p hp
    rcases LookupTable.mem_candidates.mp hp with ⟨hmem, hfull, -⟩
    exact ⟨hlt p hmem, h.exists_addition hfull⟩
  · intro a ha hname
    rcases h.exists_place ha with ⟨place, _, hhas, -, -⟩
    rw [hname] at hhas
    have hmem := hhas.in_chain
    rw [hchain, List.mem_map] at hmem
    rcases hmem with ⟨p, hp, heq⟩
    cases heq
    refine ⟨place, LookupTable.mem_candidates.mpr ⟨hp, ?_, hhas.hash_eq⟩, ?_⟩
    · exact LookupTable.isEmpty_of_metaIndex hhas.metaIndex_eq (h.index_lt a ha)
    · unfold LookupTable.metaIndex
      rw [hhas.metaIndex_eq, UInt32.toUInt32_toInt32]

theorem find_cases (h : c.Records adds blocks) {space : MetaSpace}
    (hnamed : ∀ a ∈ adds, ∃ k, space.keys[a.index.toNat]? = some k ∧
      a.name = k.name.display)
    (key : MetaKey) :
    (∃ a ∈ adds, space.keys[a.index.toNat]? = some key ∧
      ∃ head, c.find space key = .ok (.success, some head) ∧
        c.code.Yields head ((Addition.toMethod a.index adds).map (·.image))) ∨
    ((∀ a ∈ adds, space.keys[a.index.toNat]? ≠ some key) ∧
      ((∃ a ∈ adds, ∃ k, space.keys[a.index.toNat]? = some k ∧
          k.name = key.name) ∧
        c.find space key = .ok (.foundWithName, none) ∨
      (∀ a ∈ adds, ∀ k, space.keys[a.index.toNat]? = some k →
          k.name ≠ key.name) ∧
        c.find space key = .ok (.notInCache, none))) := by
  rcases h.exists_candidates key.name.display with
    ⟨places, hfind, hmember, hall⟩
  have hmet : ∀ a ∈ adds, ∀ k, space.keys[a.index.toNat]? = some k →
      k.name = key.name → ∃ p ∈ places, c.table.metaIndex p = a.index := by
    intro a ha k hk hname
    rcases hnamed a ha with ⟨k', hk', hdisplay⟩
    rw [hk] at hk'
    cases hk'
    rw [hname] at hdisplay
    exact hall a ha hdisplay
  unfold find
  rw [hfind, LookupTable.outcome]
  cases hexact : places.find? fun p =>
      compareKey space key (c.table.metaIndex p) == .exact with
  | some p =>
      left
      have hmem := List.mem_of_find?_eq_some hexact
      have hmatch := beq_iff_eq.mp
        (List.find?_some (p := fun p =>
          compareKey space key (c.table.metaIndex p) == .exact) hexact)
      rcases hmember p hmem with ⟨hlt, a, ha, hindex⟩
      rcases h.exists_head hlt ha hindex with ⟨head, hhead, hyields⟩
      rw [hindex] at hmatch
      refine ⟨a, ha, compareKey_eq_exact_iff.mp hmatch, head, ?_, hyields⟩
      dsimp only [bind, Except.bind]
      rw [hhead]
      rfl
  | none =>
      right
      rw [List.find?_eq_none] at hexact
      have hno : ∀ a ∈ adds, space.keys[a.index.toNat]? ≠ some key := by
        intro a ha hk
        rcases hmet a ha key hk rfl with ⟨p, hp, hindex⟩
        apply hexact p hp
        rw [hindex, beq_iff_eq]
        exact compareKey_eq_exact_iff.mpr hk
      refine ⟨hno, ?_⟩
      cases hany : places.any fun p =>
          compareKey space key (c.table.metaIndex p) == .nameOnly with
      | true =>
          left
          rw [List.any_eq_true] at hany
          rcases hany with ⟨p, hp, hmatch⟩
          rcases hmember p hp with ⟨-, a, ha, hindex⟩
          rw [hindex, beq_iff_eq, compareKey_eq_nameOnly_iff] at hmatch
          rcases hmatch with ⟨k, hk, -, hname⟩
          exact ⟨⟨a, ha, k, hk, hname⟩, rfl⟩
      | false =>
          right
          refine ⟨?_, rfl⟩
          intro a ha k hk hname
          rcases hmet a ha k hk hname with ⟨p, hp, hindex⟩
          rw [List.any_eq_false] at hany
          apply hany p hp
          have hne : k ≠ key := by
            intro heq
            rw [heq] at hk
            exact hno a ha hk
          rw [hindex, beq_iff_eq, compareKey_eq_nameOnly_iff]
          exact ⟨k, hk, hne, hname⟩

theorem mem_methods {place : Nat} {head : UInt32}
    (hfull : (c.table.entryAt place).isEmpty = false)
    (hplace : place < c.table.entries.length)
    (hhead : c.table.codeOffset? place = some head) :
    (c.table.metaIndex place, head) ∈ c.methods := by
  unfold methods
  rw [List.mem_filterMap]
  refine ⟨(place, c.table.entryAt place),
    LookupTable.mem_occupied.mpr ⟨hplace, hfull, rfl⟩, ?_⟩
  dsimp only
  rw [hhead]
  rfl

end Records

end Container

end CodeCache
