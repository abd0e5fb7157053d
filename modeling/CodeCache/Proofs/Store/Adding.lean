import CodeCache.Proofs.Store.Blocks
import CodeCache.Proofs.Store.Building
import CodeCache.Proofs.Store.Tables

/-!
# Adding versions to a container

The first version of a method gets an entry in the table, which leads to a chain
of its own. Every other version is put at the end of the chain that the entry
leads to.
-/

namespace CodeCache

namespace LookupTable

variable {t t' : LookupTable}

theorem entry_of_insert {index : UInt32} {name : String} {place : Nat}
    (h : t.insert index name = .ok (t', place)) {e : TableEntry}
    (he : e ∈ t'.entries) :
    (e.metaIndex = index.toInt32 ∧ e.codeOffset = -1) ∨
      ∃ e₀ ∈ t.entries, e.metaIndex = e₀.metaIndex ∧
        e.codeOffset = e₀.codeOffset := by
  rcases insert_cases h with
    ⟨-, -, rfl⟩ | ⟨hfull, ⟨-, rfl⟩ | ⟨-, -, rfl⟩⟩
  · rcases List.mem_or_eq_of_mem_set he with hold | hnew
    · exact Or.inr ⟨e, hold, rfl, rfl⟩
    · rw [hnew]
      exact Or.inl ⟨rfl, rfl⟩
  · exact Or.inr ⟨e, he, rfl, rfl⟩
  · rcases List.mem_or_eq_of_mem_set he with hold | hnew
    · rcases List.mem_append.mp hold with hmem | hlast
      · exact Or.inr ⟨e, hmem, rfl, rfl⟩
      · rw [List.mem_singleton.mp hlast]
        exact Or.inl ⟨rfl, rfl⟩
    · rcases Nat.lt_or_ge (t.bucket (nameHash name)) t.entries.length with
        hlt | hge
      · rw [hnew]
        exact Or.inr ⟨_, entryAt_mem hlt, rfl, rfl⟩
      · rw [entryAt_of_length_le hge] at hfull
        exact absurd hfull (by decide)

theorem length_of_insert {index : UInt32} {name : String} {place : Nat}
    (h : t.insert index name = .ok (t', place)) :
    t'.bucketCount = t.bucketCount ∧
      t'.entries.length ≤ t.entries.length + 1 := by
  rcases insert_cases h with
    ⟨-, -, rfl⟩ | ⟨-, ⟨-, rfl⟩ | ⟨-, -, rfl⟩⟩
  · refine ⟨rfl, ?_⟩
    rw [length_setEntry]
    exact Nat.le_succ _
  · exact ⟨rfl, Nat.le_succ _⟩
  · exact ⟨rfl, Nat.le_of_eq (t.length_linkBehind _ _ _)⟩

theorem of_codeOffset? {place : Nat} {head : UInt32}
    (h : t.codeOffset? place = some head) :
    ∃ e ∈ t.entries, 0 ≤ e.codeOffset ∧ e.codeOffset.toUInt32 = head := by
  rcases codeOffset?_eq_some_iff.mp h with ⟨hcode, hhead⟩
  rcases Nat.lt_or_ge place t.entries.length with hlt | hge
  · exact ⟨_, entryAt_mem hlt, hcode, hhead⟩
  · rw [entryAt_of_length_le hge] at hcode
    exact absurd hcode (by decide)

end LookupTable

namespace Container

/-- The code of the container is made of blocks, its table leads to blocks only,
and there are no more entries behind the buckets than blocks. -/
structure Stocks (c : Container) (blocks : List Block) : Prop where
  consists : c.code.ConsistsOf blocks
  starts : ∀ e ∈ c.table.entries, 0 ≤ e.codeOffset →
    ∃ i, i < blocks.length ∧
      e.codeOffset.toUInt32 = UInt32.ofNat (Block.start blocks i)
  length_le : c.table.entries.length ≤ c.table.bucketCount + blocks.length

variable {c c' : Container} {blocks : List Block}

theorem stocks_sized (fingerprint : Fingerprint) (expected : Nat) :
    (sized fingerprint expected).Stocks [] := by
  refine ⟨CodeSpace.consistsOf_nil, ?_, Nat.le_of_eq List.length_replicate⟩
  intro e he hcode
  rw [List.eq_of_mem_replicate he] at hcode
  exact absurd hcode (by decide)

theorem addVersion_absent (htidy : c.table.Tidy)
    (hcode : c.code.ConsistsOf blocks) {index offset : UInt32} {name : String}
    (hindex : index.toNat < 2 ^ 31)
    (habsent : ∀ p, p < c.table.entries.length →
      (c.table.entryAt p).metaIndex ≠ index.toInt32)
    (hroom : LookupTable.headerSize +
      (c.table.entries.length + 1) * TableEntry.byteSize < 2 ^ 31)
    {image : Blob.Image} (himage : image.Sound)
    (hadd : c.addVersion index name (image.bytes (-1)) = .ok (c', offset)) :
    ∃ place, LookupTable.Gains c.table c'.table name index place
        (UInt32.ofNat (Block.start blocks blocks.length)) ∧
      c'.code.ConsistsOf (blocks ++ [⟨image, none⟩]) := by
  rcases @LookupTable.Tidy.insert_gains _ htidy name index hindex habsent
    hroom with ⟨table, place, hinsert, hnone, hgains⟩
  rcases addVersion_cases hadd with ⟨table', place', hinsert', hcases⟩
  rw [hinsert] at hinsert'
  cases hinsert'
  rcases hcases with ⟨code, -, happend, rfl⟩ | ⟨head, code, hhead, _, _⟩
  · rcases hcode.appendVersion_none himage happend with ⟨rfl, hconsists⟩
    refine ⟨place, hgains _ ?_, hconsists⟩
    rw [hcode.toNat_start, ← hcode.size_eq]
    exact hcode.size_lt
  · rw [hnone] at hhead
    cases hhead

theorem addVersion_present (htidy : c.table.Tidy)
    (hcode : c.code.ConsistsOf blocks) {index offset : UInt32} {name : String}
    (hindex : index.toNat < 2 ^ 31) {place first t : Nat} {js : List Nat}
    (hhas : c.table.Has name index place)
    (hhead : c.table.codeOffset? place =
      some (UInt32.ofNat (Block.start blocks first)))
    (hchain : Block.Chain blocks first (js ++ [t]))
    {image : Blob.Image} (himage : image.Sound)
    (hadd : c.addVersion index name (image.bytes (-1)) = .ok (c', offset)) :
    c'.table = c.table ∧ ∃ b, blocks[t]? = some b ∧
      c'.code.ConsistsOf (List.set (blocks ++ [⟨image, none⟩]) t
        { b with next := some blocks.length }) := by
  have hinsert := htidy.insert_has hhas hindex
  rcases addVersion_cases hadd with ⟨table', place', hinsert', hcases⟩
  rw [hinsert] at hinsert'
  cases hinsert'
  rcases hcases with
    ⟨code, hnone, _, _⟩ | ⟨head, code, hsome, happend, rfl⟩
  · rw [hhead] at hnone
    cases hnone
  · rw [hhead] at hsome
    cases hsome
    exact ⟨rfl, (hcode.appendVersion_some himage hchain happend).2⟩

theorem size_of_addVersion {index offset : UInt32} {name : String} {blob : Bytes}
    (hadd : c.addVersion index name blob = .ok (c', offset)) :
    c'.fingerprint = c.fingerprint ∧
      c.code.size + blob.length ≤ c'.code.size ∧ c'.code.size < 2 ^ 31 := by
  have hsize : ∀ {head : Option UInt32} {code : CodeSpace},
      c.code.appendVersion head blob = .ok (code, offset) →
      c.code.size + blob.length ≤ code.size ∧ code.size < 2 ^ 31 := by
    intro head code happend
    rcases CodeSpace.size_of_appendVersion happend with ⟨hgrown, hlt⟩
    have hspace := le_alignUp c.code.size
    have hblob := le_alignUp blob.length
    exact ⟨by omega, hlt⟩
  rcases addVersion_cases hadd with ⟨table, place, _, hcases⟩
  rcases hcases with ⟨code, _, happend, rfl⟩ | ⟨head, code, _, happend, rfl⟩
  · exact ⟨rfl, hsize happend⟩
  · exact ⟨rfl, hsize happend⟩

theorem bucketCount_of_addVersion {index offset : UInt32} {name : String}
    {blob : Bytes} (hadd : c.addVersion index name blob = .ok (c', offset)) :
    c'.table.bucketCount = c.table.bucketCount := by
  rcases addVersion_cases hadd with ⟨table, place, hinsert, hcases⟩
  have hbuckets := (LookupTable.length_of_insert hinsert).1
  rcases hcases with ⟨code, _, _, rfl⟩ | ⟨head, code, _, _, rfl⟩
  · exact hbuckets
  · exact hbuckets

theorem metaIndex_of_addVersion {index offset : UInt32} {name : String}
    {blob : Bytes} (hadd : c.addVersion index name blob = .ok (c', offset))
    {e : TableEntry} (he : e ∈ c'.table.entries) :
    e.metaIndex = index.toInt32 ∨
      ∃ e₀ ∈ c.table.entries, e.metaIndex = e₀.metaIndex := by
  rcases addVersion_cases hadd with ⟨table, place, hinsert, hcases⟩
  have hinserted : ∀ e ∈ table.entries, e.metaIndex = index.toInt32 ∨
      ∃ e₀ ∈ c.table.entries, e.metaIndex = e₀.metaIndex := by
    intro e he
    rcases LookupTable.entry_of_insert hinsert he with ⟨hnew, -⟩ |
      ⟨e₀, he₀, hold, -⟩
    · exact Or.inl hnew
    · exact Or.inr ⟨e₀, he₀, hold⟩
  rcases hcases with ⟨code, _, _, rfl⟩ | ⟨head, code, _, _, rfl⟩
  · change e ∈ table.entries.set place _ at he
    rcases Nat.lt_or_ge place table.entries.length with hlt | hge
    · have hat := hinserted _ (LookupTable.entryAt_mem hlt)
      rcases List.mem_or_eq_of_mem_set he with hold | rfl
      · exact hinserted e hold
      · exact hat
    · rw [List.set_eq_of_length_le hge] at he
      exact hinserted e he
  · exact hinserted e he

theorem of_mem_methods {entry : UInt32 × UInt32} (h : entry ∈ c.methods) :
    ∃ place, place < c.table.entries.length ∧
      (c.table.entryAt place).isEmpty = false ∧
      0 ≤ (c.table.entryAt place).codeOffset ∧
      entry = ((c.table.entryAt place).metaIndex.toUInt32,
        (c.table.entryAt place).codeOffset.toUInt32) := by
  unfold methods at h
  rw [List.mem_filterMap] at h
  rcases h with ⟨⟨place, e⟩, hoccupied, hcode⟩
  rw [Option.map_eq_some_iff] at hcode
  rcases hcode with ⟨head, hhead, rfl⟩
  rcases LookupTable.mem_occupied.mp hoccupied with ⟨hp, hfull, rfl⟩
  rcases LookupTable.codeOffset?_eq_some_iff.mp hhead with ⟨hpos, rfl⟩
  exact ⟨place, hp, hfull, hpos, rfl⟩

theorem Stocks.addVersion (h : c.Stocks blocks) {image : Blob.Image}
    (himage : image.Sound) {index offset : UInt32} {name : String}
    (hadd : c.addVersion index name (image.bytes (-1)) = .ok (c', offset)) :
    ∃ blocks', c'.Stocks blocks' ∧
      blocks'.map (·.image) = blocks.map (·.image) ++ [image] := by
  rcases addVersion_cases hadd with ⟨table, place, hinsert, hcases⟩
  rcases LookupTable.length_of_insert hinsert with ⟨hbuckets, hgrown⟩
  have hstarts : ∀ e ∈ table.entries, 0 ≤ e.codeOffset →
      ∃ i, i < blocks.length ∧
        e.codeOffset.toUInt32 = UInt32.ofNat (Block.start blocks i) := by
    intro e he hcode
    rcases LookupTable.entry_of_insert hinsert he with
      ⟨-, hnone⟩ | ⟨e₀, he₀, -, heq⟩
    · rw [hnone] at hcode
      exact absurd hcode (by decide)
    · rw [heq] at hcode ⊢
      exact h.starts e₀ he₀ hcode
  have hlength : table.entries.length ≤
      table.bucketCount + (blocks.length + 1) := by
    have hle := h.length_le
    omega
  rcases hcases with
    ⟨code, hnone, happend, rfl⟩ | ⟨head, code, hhead, happend, rfl⟩
  · rcases h.consists.appendVersion_none himage happend with ⟨rfl, hconsists⟩
    refine ⟨_, ⟨hconsists, ?_, ?_⟩, List.map_append⟩
    · intro e he hcode
      rcases List.mem_or_eq_of_mem_set he with hold | rfl
      · rcases hstarts e hold hcode with ⟨i, hi, heq⟩
        refine ⟨i, ?_, ?_⟩
        · rw [List.length_append]
          exact Nat.lt_add_right _ hi
        · rw [Block.start_append _ _ (Nat.le_of_lt hi)]
          exact heq
      · refine ⟨blocks.length, ?_, ?_⟩
        · rw [List.length_append]
          exact Nat.lt_add_one _
        · rw [Block.start_append _ _ (Nat.le_refl _)]
          exact UInt32.toUInt32_toInt32 _
    · rw [List.length_append]
      show (table.entries.set _ _).length ≤ _
      rw [List.length_set]
      exact hlength
  · rcases LookupTable.of_codeOffset? hhead with ⟨e, he, hcode, rfl⟩
    rcases hstarts e he hcode with ⟨i, hi, heq⟩
    rw [heq] at happend
    rcases h.consists.exists_chain hi with ⟨js, hchain⟩
    rcases List.eq_nil_or_concat' js with rfl | ⟨front, t, rfl⟩
    · cases hchain
    · rcases h.consists.appendVersion_some himage hchain happend with
        ⟨rfl, b, hb, hconsists⟩
      have hcount : (List.set (blocks ++ [⟨image, none⟩]) t
          { b with next := some blocks.length }).length =
            blocks.length + 1 := by
        rw [List.length_set, List.length_append, List.length_singleton]
      have hlast : (blocks ++ [⟨image, none⟩])[t]? = some b :=
        (List.getElem?_append_left (List.getElem?_eq_some_iff.mp hb).1).trans hb
      refine ⟨_, ⟨hconsists, ?_, ?_⟩,
        (Block.map_image_set hlast _).trans List.map_append⟩
      · intro e he hcode
        rcases hstarts e he hcode with ⟨j, hj, heq⟩
        refine ⟨j, ?_, ?_⟩
        · rw [hcount]
          exact Nat.lt_succ_of_lt hj
        · rw [Block.start_set hlast, Block.start_append _ _ (Nat.le_of_lt hj)]
          exact heq
      · rw [hcount]
        exact hlength

theorem size_lt_of_addVersion {content : Emit.Content} {index offset : UInt32}
    {name : String}
    (hadd : c.addVersion index name (content.bytes (-1)) = .ok (c', offset)) :
    content.size < 2 ^ 32 := by
  rcases (size_of_addVersion hadd).2 with ⟨hgrown, hlt⟩
  rw [content.length_bytes] at hgrown
  omega

/-- A container for a fingerprint, made with some buckets, to which at least
`count` versions were added, all of this kind. -/
structure Stocked (kind : Blob.Image → Prop) (fingerprint : Fingerprint)
    (buckets count : Nat) (c : Container) : Prop where
  fingerprint_eq : c.fingerprint = fingerprint
  bucketCount_eq : c.table.bucketCount = buckets
  wellFormed : c.WellFormed
  stocks : ∃ blocks, c.Stocks blocks ∧ count ≤ blocks.length ∧
    ∀ b ∈ blocks, kind b.image

namespace Stocked

variable {kind : Blob.Image → Prop} {fingerprint : Fingerprint}
  {buckets count : Nat}

theorem of_sized (kind : Blob.Image → Prop) (fingerprint : Fingerprint)
    (expected : Nat) :
    Stocked kind fingerprint (max expected LookupTable.minBuckets) 0
      (sized fingerprint expected) where
  fingerprint_eq := rfl
  bucketCount_eq := rfl
  wellFormed := wellFormed_sized fingerprint expected
  stocks := ⟨[], stocks_sized fingerprint expected, Nat.le_refl _,
    fun _ hb => absurd hb List.not_mem_nil⟩

theorem addVersion (h : c.Stocked kind fingerprint buckets count)
    {image : Blob.Image} (himage : image.Sound) (hkind : kind image)
    {index offset : UInt32} {name : String}
    (hadd : c.addVersion index name (image.bytes (-1)) = .ok (c', offset)) :
    c'.Stocked kind fingerprint buckets (count + 1) := by
  rcases h.stocks with ⟨blocks, hblocks, hcount, hall⟩
  rcases hblocks.addVersion himage hadd with ⟨blocks', hblocks', himages⟩
  refine ⟨?_, ?_, h.wellFormed.of_addVersion hadd, blocks', hblocks', ?_, ?_⟩
  · exact (size_of_addVersion hadd).1.trans h.fingerprint_eq
  · exact (bucketCount_of_addVersion hadd).trans h.bucketCount_eq
  · have hlength := congrArg List.length himages
    rw [List.length_append, List.length_map, List.length_map,
      List.length_singleton] at hlength
    omega
  · intro b hb
    have hmem : b.image ∈ blocks'.map (·.image) := List.mem_map_of_mem hb
    rw [himages, List.mem_append, List.mem_map, List.mem_singleton] at hmem
    rcases hmem with ⟨b₀, hb₀, heq⟩ | heq
    · rw [← heq]
      exact hall b₀ hb₀
    · rw [heq]
      exact hkind

theorem mono (h : c.Stocked kind fingerprint buckets count) {fewer : Nat}
    (hle : fewer ≤ count) :
    c.Stocked kind fingerprint buckets fewer := by
  rcases h.stocks with ⟨blocks, hblocks, hcount, hall⟩
  exact ⟨h.fingerprint_eq, h.bucketCount_eq, h.wellFormed, blocks, hblocks,
    Nat.le_trans hle hcount, hall⟩

theorem count_lt (h : c.Stocked kind fingerprint buckets count) :
    count * BlobHeader.byteSize < 2 ^ 31 := by
  rcases h.stocks with ⟨blocks, hblocks, hcount, -⟩
  have hroom := hblocks.consists.length_le
  exact Nat.lt_of_le_of_lt (Nat.le_trans (Nat.mul_le_mul_right _ hcount) hroom)
    hblocks.consists.size_lt

theorem versions_eq (h : c.Stocked kind fingerprint buckets count)
    {e : TableEntry} (he : e ∈ c.table.entries) (hcode : 0 ≤ e.codeOffset) :
    ∃ blobs : List Blob, c.code.versions e.codeOffset.toUInt32 = blobs.map .ok ∧
      ∀ b ∈ blobs, ∃ image next, kind image ∧
        b = Blob.Image.blob image next b.offset := by
  rcases h.stocks with ⟨blocks, hblocks, -, hall⟩
  rcases hblocks.starts e he hcode with ⟨i, hi, heq⟩
  rcases hblocks.consists.exists_chain hi with ⟨js, hchain⟩
  rcases hblocks.consists.chain_eq hchain with ⟨blobs, hblobs, hnumbers⟩
  rw [heq]
  refine ⟨blobs, CodeSpace.chain_eq_ok_iff.mp hblobs, ?_⟩
  intro b hb
  rcases exists_of_mem_right hnumbers hb with ⟨j, -, hj⟩
  unfold Block.blob? at hj
  rw [Option.map_eq_some_iff] at hj
  rcases hj with ⟨block, hblock, rfl⟩
  exact ⟨block.image, _, hall block (List.mem_of_getElem? hblock), rfl⟩

theorem storable (h : c.Stocked kind fingerprint buckets count)
    (hbuckets : buckets ≤ count + LookupTable.minBuckets)
    (hflags : fingerprint.flags.length < 2 ^ 28) :
    c.Storable := by
  rcases h.stocks with ⟨blocks, hblocks, hcount, -⟩
  have hlength := hblocks.length_le
  have hroom := hblocks.consists.length_le
  have hlt := hblocks.consists.size_lt
  have htable := alignUp_lt c.table.encodedSize
  have hprint := alignUp_lt c.fingerprint.encodedSize
  rw [h.bucketCount_eq] at hlength
  refine ⟨h.wellFormed.shaped, ?_, by omega⟩
  unfold BlobHeader.byteSize at hroom
  unfold LookupTable.minBuckets at hbuckets
  unfold LookupTable.encodedSize LookupTable.headerSize TableEntry.byteSize
    at htable
  unfold Fingerprint.encodedSize Fingerprint.headerSize at hprint
  rw [h.fingerprint_eq] at hprint
  unfold codeStart headerSize LookupTable.encodedSize LookupTable.headerSize
    TableEntry.byteSize Fingerprint.encodedSize Fingerprint.headerSize
  rw [h.fingerprint_eq]
  omega

end Stocked

end Container

end CodeCache
