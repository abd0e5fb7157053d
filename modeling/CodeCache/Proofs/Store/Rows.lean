import CodeCache.Proofs.Store.Adding
import CodeCache.Proofs.Store.Building

/-!
# Containers filled method by method

When all versions of a method are added before those of the next, the code space
is one run of blocks after the other, and the table leads from each method to
the start of its run.
-/

namespace CodeCache

namespace Block

def run : Nat → List Blob.Image → List Block
  | _, [] => []
  | _, [i] => [⟨i, none⟩]
  | n, i :: j :: is => ⟨i, some (n + 1)⟩ :: run (n + 1) (j :: is)

theorem run_cons (n : Nat) (i : Blob.Image) {is : List Blob.Image}
    (h : is ≠ []) :
    run n (i :: is) = ⟨i, some (n + 1)⟩ :: run (n + 1) is := by
  cases is with
  | nil => exact absurd rfl h
  | cons j is => rfl

theorem map_image_run (n : Nat) (is : List Blob.Image) :
    (run n is).map (·.image) = is := by
  induction is generalizing n with
  | nil => rfl
  | cons i is ih =>
      cases is with
      | nil => rfl
      | cons j is => rw [run_cons n i (List.cons_ne_nil j is), List.map_cons, ih]

theorem length_run (n : Nat) (is : List Blob.Image) :
    (run n is).length = is.length := by
  have h := congrArg List.length (map_image_run n is)
  rwa [List.length_map] at h

theorem append_run_cons (pre : List Block) (i : Blob.Image)
    {is : List Blob.Image} (h : is ≠ []) :
    pre ++ run pre.length (i :: is) =
      (pre ++ [⟨i, some (pre.length + 1)⟩]) ++
        run (pre ++ [⟨i, some (pre.length + 1)⟩] : List Block).length is := by
  rw [run_cons _ _ h, List.append_assoc, List.length_append,
    List.length_singleton]
  rfl

theorem set_run (pre : List Block) (is : List Blob.Image) (i j : Blob.Image) :
    List.set (pre ++ run pre.length (is ++ [i]) ++ [⟨j, none⟩])
        (pre.length + is.length)
        ⟨i, some (pre.length + (is.length + 1))⟩ =
      pre ++ run pre.length (is ++ [i] ++ [j]) := by
  induction is generalizing pre with
  | nil =>
      rw [List.append_assoc, List.set_append_right _ _ (Nat.le_add_right _ _),
        Nat.add_sub_cancel_left]
      rfl
  | cons a is ih =>
      have hnext := ih (pre ++ [⟨a, some (pre.length + 1)⟩])
      rw [List.cons_append, List.cons_append, List.length_cons,
        append_run_cons pre a (List.concat_ne_nil i is),
        append_run_cons pre a (List.concat_ne_nil j _), ← hnext]
      congr 1
      · rw [List.length_append, List.length_singleton]
        omega
      · rw [List.length_append, List.length_singleton]
        congr 2
        omega

theorem chain_run (pre : List Block) {is : List Blob.Image} (h : is ≠ [])
    (post : List Block) :
    Chain (pre ++ run pre.length is ++ post) pre.length
      (List.range' pre.length is.length) := by
  induction is generalizing pre with
  | nil => exact absurd rfl h
  | cons i is ih =>
      cases is with
      | nil =>
          have hat : (pre ++ [⟨i, none⟩] ++ post)[pre.length]? =
              some ⟨i, none⟩ := by
            rw [List.append_assoc, List.getElem?_append_right (Nat.le_refl _),
              Nat.sub_self]
            rfl
          exact .last hat rfl
      | cons j is =>
          have hrest := ih (pre ++ [⟨i, some (pre.length + 1)⟩])
            (List.cons_ne_nil j is)
          rw [← append_run_cons pre i (List.cons_ne_nil j is),
            List.length_append, List.length_singleton] at hrest
          have hat : (pre ++ run pre.length (i :: j :: is) ++ post)[pre.length]? =
              some ⟨i, some (pre.length + 1)⟩ := by
            rw [List.append_assoc, List.getElem?_append_right (Nat.le_refl _),
              Nat.sub_self]
            rfl
          exact .cons hat rfl hrest

end Block

structure Row where
  index : UInt32
  name : String
  images : List Blob.Image

namespace Row

def put (blocks : List Block) (r : Row) : List Block :=
  blocks ++ Block.run blocks.length r.images

def layOut (rows : List Row) : List Block :=
  rows.foldl put []

theorem layOut_concat (rows : List Row) (r : Row) :
    layOut (rows ++ [r]) = put (layOut rows) r :=
  List.foldl_concat put [] r rows

theorem foldl_put (rows : List Row) (blocks : List Block) :
    ∃ post, rows.foldl put blocks = blocks ++ post := by
  induction rows generalizing blocks with
  | nil => exact ⟨[], (List.append_nil blocks).symm⟩
  | cons r rows ih =>
      rcases ih (put blocks r) with ⟨post, hpost⟩
      refine ⟨Block.run blocks.length r.images ++ post, ?_⟩
      rw [List.foldl_cons, hpost, put, List.append_assoc]

theorem layOut_split (before : List Row) (r : Row) (after : List Row) :
    ∃ post, layOut (before ++ r :: after) =
      layOut before ++ Block.run (layOut before).length r.images ++ post := by
  rcases foldl_put after (put (layOut before) r) with ⟨post, hpost⟩
  refine ⟨post, ?_⟩
  rw [layOut, List.foldl_append, List.foldl_cons]
  exact hpost

end Row

theorem CodeSpace.ConsistsOf.appendRun {space space' : CodeSpace}
    {rows : List Row} {index offset : UInt32} {name : String}
    {images : List Blob.Image}
    (h : space.ConsistsOf (Row.layOut (rows ++ [⟨index, name, images⟩])))
    {image : Blob.Image} (himage : image.Sound) (hne : images ≠ [])
    (happend : space.appendVersion (some (UInt32.ofNat
      (Block.start (Row.layOut rows) (Row.layOut rows).length)))
        (image.bytes (-1)) = .ok (space', offset)) :
    space'.ConsistsOf
      (Row.layOut (rows ++ [⟨index, name, images ++ [image]⟩])) := by
  rw [Row.layOut_concat, Row.put] at h ⊢
  generalize Row.layOut rows = pre at h happend ⊢
  dsimp only at h ⊢
  have hchain := Block.chain_run pre hne []
  rw [List.append_nil] at hchain
  rw [← Block.start_append pre (Block.run pre.length images)
    (Nat.le_refl _)] at happend
  rcases List.eq_nil_or_concat' images with rfl | ⟨front, last, rfl⟩
  · exact absurd rfl hne
  rw [List.length_append, List.length_singleton, List.range'_1_concat] at hchain
  rcases h.appendVersion_some himage hchain happend with ⟨_, b, hb, hconsists⟩
  have hlast : b = ⟨last, b.next⟩ := by
    rw [List.getElem?_append_right (Nat.le_add_right _ _),
      Nat.add_sub_cancel_left] at hb
    have hmap := congrArg (Option.map (·.image)) hb
    rw [← List.getElem?_map, Block.map_image_run, List.getElem?_concat_length]
      at hmap
    rcases b with ⟨image, next⟩
    cases hmap
    rfl
  rw [hlast, List.length_append, Block.length_run, List.length_append,
    List.length_singleton, Block.set_run] at hconsists
  exact hconsists

/-!
## Filling a container
-/

namespace LookupTable

theorem entryAt_sized (expected p : Nat) : (sized expected).entryAt p = {} := by
  rcases Nat.lt_or_ge p (sized expected).entries.length with hlt | hge
  · exact List.eq_of_mem_replicate (entryAt_mem hlt)
  · exact entryAt_of_length_le hge

theorem tidy_sized {expected : Nat}
    (h : headerSize + max expected minBuckets * TableEntry.byteSize < 2 ^ 31) :
    (sized expected).Tidy := by
  have hlength : (sized expected).entries.length = max expected minBuckets :=
    List.length_replicate
  constructor
  · exact shaped_sized expected
  · unfold Addressable
    rw [hlength]
    exact h
  · intro head hhead
    refine ⟨[], ?_, List.nodup_nil, fun p hp => absurd hp List.not_mem_nil⟩
    refine .last ?_ ?_
    · rw [hlength]
      exact hhead
    · rw [entryAt_sized]
  · intro p q _ _ hfull
    rw [entryAt_sized] at hfull
    exact absurd hfull (by decide)
  · intro p _
    rw [entryAt_sized]

theorem eq_of_toInt32_eq {i j : UInt32} (h : i.toInt32 = j.toInt32) : i = j :=
  congrArg Int32.toUInt32 h

theorem absent_of_listed {t : LookupTable} {α : Type} {f : α → UInt32} {as : List α}
    (hlisted : ∀ p, (t.entryAt p).isEmpty = false →
      ∃ a ∈ as, (t.entryAt p).metaIndex = (f a).toInt32)
    {index : UInt32} (hindex : index.toNat < 2 ^ 31) (hnew : ∀ a ∈ as, f a ≠ index) :
    ∀ p, p < t.entries.length → (t.entryAt p).metaIndex ≠ index.toInt32 := by
  intro p _ hsame
  rcases hlisted p (isEmpty_of_metaIndex hsame hindex) with ⟨a, ha, hmeta⟩
  exact hnew a ha (eq_of_toInt32_eq (hmeta.symm.trans hsame))

end LookupTable

namespace Container

structure Arranged (c : Container) (rows : List Row) : Prop where
  consists : c.code.ConsistsOf (Row.layOut rows)
  tidy : c.table.Tidy
  stands : ∀ before r after, rows = before ++ r :: after →
    ∃ place, c.table.Has r.name r.index place ∧
      c.table.codeOffset? place = some (UInt32.ofNat
        (Block.start (Row.layOut before) (Row.layOut before).length))
  images_ne_nil : ∀ r ∈ rows, r.images ≠ []
  index_lt : ∀ r ∈ rows, r.index.toNat < 2 ^ 31
  listed : ∀ p, (c.table.entryAt p).isEmpty = false →
    ∃ r ∈ rows, (c.table.entryAt p).metaIndex = r.index.toInt32
  length_le : c.table.entries.length ≤ c.table.bucketCount + rows.length

namespace Arranged

variable {c c' : Container} {rows : List Row}

theorem of_sized (fingerprint : Fingerprint) {expected : Nat}
    (h : LookupTable.headerSize +
      max expected LookupTable.minBuckets * TableEntry.byteSize < 2 ^ 31) :
    (sized fingerprint expected).Arranged [] where
  consists := CodeSpace.consistsOf_nil
  tidy := LookupTable.tidy_sized h
  stands before r after hsplit := by
    cases before <;> cases hsplit
  images_ne_nil r hr := absurd hr List.not_mem_nil
  index_lt r hr := absurd hr List.not_mem_nil
  listed p hp := by
    change ((LookupTable.sized expected).entryAt p).isEmpty = false at hp
    rw [LookupTable.entryAt_sized] at hp
    exact absurd hp (by decide)
  length_le := Nat.le_of_eq List.length_replicate

theorem stands_concat {table : LookupTable} {r : Row}
    (hold : ∀ before r after, rows = before ++ r :: after →
      ∃ place, table.Has r.name r.index place ∧
        table.codeOffset? place = some (UInt32.ofNat
          (Block.start (Row.layOut before) (Row.layOut before).length)))
    {place : Nat} (hhas : table.Has r.name r.index place)
    (hhead : table.codeOffset? place = some (UInt32.ofNat
      (Block.start (Row.layOut rows) (Row.layOut rows).length))) :
    ∀ before s after, rows ++ [r] = before ++ s :: after →
      ∃ place, table.Has s.name s.index place ∧
        table.codeOffset? place = some (UInt32.ofNat
          (Block.start (Row.layOut before) (Row.layOut before).length)) := by
  intro before s after hsplit
  rcases List.eq_nil_or_concat' after with rfl | ⟨front, last, rfl⟩
  · rcases List.append_inj' hsplit rfl with ⟨rfl, hsame⟩
    cases hsame
    exact ⟨place, hhas, hhead⟩
  · rw [← List.cons_append, ← List.append_assoc] at hsplit
    rcases List.append_inj' hsplit rfl with ⟨rfl, -⟩
    exact hold before s front rfl

theorem stands_of_concat {r : Row} (h : c.Arranged (rows ++ [r])) :
    ∀ before s after, rows = before ++ s :: after →
      ∃ place, c.table.Has s.name s.index place ∧
        c.table.codeOffset? place = some (UInt32.ofNat
          (Block.start (Row.layOut before) (Row.layOut before).length)) := by
  intro before s after hsplit
  refine h.stands before s (after ++ [r]) ?_
  rw [hsplit, List.append_assoc, List.cons_append]

theorem addFirst (h : c.Arranged rows) {index offset : UInt32} {name : String}
    (hindex : index.toNat < 2 ^ 31) (hnew : ∀ r ∈ rows, r.index ≠ index)
    (hroom : LookupTable.headerSize +
      (c.table.bucketCount + rows.length + 1) * TableEntry.byteSize < 2 ^ 31)
    {image : Blob.Image} (himage : image.Sound)
    (hadd : c.addVersion index name (image.bytes (-1)) = .ok (c', offset)) :
    c'.Arranged (rows ++ [⟨index, name, [image]⟩]) ∧
      c'.table.bucketCount = c.table.bucketCount := by
  have habsent := LookupTable.absent_of_listed h.listed hindex hnew
  have hfits : LookupTable.headerSize +
      (c.table.entries.length + 1) * TableEntry.byteSize < 2 ^ 31 :=
    Nat.lt_of_le_of_lt (Nat.add_le_add_left
      (Nat.mul_le_mul_right _ (Nat.succ_le_succ h.length_le)) _) hroom
  rcases addVersion_absent h.tidy h.consists hindex habsent hfits himage hadd with
    ⟨place, hgains, hconsists⟩
  refine ⟨?_, hgains.bucketCount_eq⟩
  constructor
  · rw [Row.layOut_concat]
    exact hconsists
  · exact hgains.tidy
  · refine stands_concat ?_ hgains.has hgains.codeOffset?_eq
    intro before r after hsplit
    have hr : r ∈ rows := by
      rw [hsplit]
      exact List.mem_append_right _ List.mem_cons_self
    rcases h.stands before r after hsplit with ⟨p, hold, hhead⟩
    rcases hgains.kept _ _ p (h.index_lt r hr) hold with ⟨hhas, hsame⟩
    exact ⟨p, hhas, hsame.trans hhead⟩
  · intro r hr
    rcases List.mem_append.mp hr with hold | hlast
    · exact h.images_ne_nil r hold
    · rw [List.mem_singleton.mp hlast]
      exact List.cons_ne_nil _ _
  · intro r hr
    rcases List.mem_append.mp hr with hold | hlast
    · exact h.index_lt r hold
    · rw [List.mem_singleton.mp hlast]
      exact hindex
  · intro p hp
    rcases hgains.old_or_new p hp with hsame | ⟨hold, hsame⟩
    · exact ⟨_, List.mem_append_right _ List.mem_cons_self, hsame⟩
    · rcases h.listed p hold with ⟨r, hr, hlisted⟩
      exact ⟨r, List.mem_append_left _ hr, hsame.trans hlisted⟩
  · have hgrown := hgains.le_length
    have hlength := h.length_le
    rw [hgains.bucketCount_eq, List.length_append, List.length_singleton]
    omega

theorem addAgain {index offset : UInt32} {name : String}
    {images : List Blob.Image}
    (h : c.Arranged (rows ++ [⟨index, name, images⟩]))
    {image : Blob.Image} (himage : image.Sound)
    (hadd : c.addVersion index name (image.bytes (-1)) = .ok (c', offset)) :
    c'.Arranged (rows ++ [⟨index, name, images ++ [image]⟩]) ∧
      c'.table.bucketCount = c.table.bucketCount := by
  have hr : (⟨index, name, images⟩ : Row) ∈
      rows ++ [⟨index, name, images⟩] :=
    List.mem_append_right _ List.mem_cons_self
  rcases h.stands rows ⟨index, name, images⟩ [] rfl with ⟨place, hhas, hat⟩
  have hinsert := h.tidy.insert_has hhas (h.index_lt _ hr)
  rcases addVersion_cases hadd with ⟨table', place', hinsert', hcases⟩
  rw [hinsert] at hinsert'
  cases hinsert'
  rcases hcases with
    ⟨code, hnone, _, _⟩ | ⟨head, code, hhead, happend, rfl⟩
  · rw [hat] at hnone
    cases hnone
  · rw [hat] at hhead
    cases hhead
    have hconsists := h.consists.appendRun himage (h.images_ne_nil _ hr) happend
    refine ⟨?_, rfl⟩
    constructor
    · exact hconsists
    · exact h.tidy
    · exact stands_concat h.stands_of_concat hhas hat
    · intro r hr
      rcases List.mem_append.mp hr with hold | hlast
      · exact h.images_ne_nil r (List.mem_append_left _ hold)
      · rw [List.mem_singleton.mp hlast]
        exact List.concat_ne_nil image images
    · intro r hr'
      rcases List.mem_append.mp hr' with hold | hlast
      · exact h.index_lt r (List.mem_append_left _ hold)
      · rw [List.mem_singleton.mp hlast]
        exact h.index_lt ⟨index, name, images⟩ hr
    · intro p hp
      rcases h.listed p hp with ⟨r, hmem, hlisted⟩
      rcases List.mem_append.mp hmem with hold | hlast
      · exact ⟨r, List.mem_append_left _ hold, hlisted⟩
      · rw [List.mem_singleton.mp hlast] at hlisted
        exact ⟨_, List.mem_append_right _ List.mem_cons_self, hlisted⟩
    · have hlength := h.length_le
      rw [List.length_append, List.length_singleton] at hlength ⊢
      exact hlength

/-!
## Reading
-/

theorem chain_eq (h : c.Arranged rows) {r : Row} (hr : r ∈ rows) :
    ∃ place head blobs, c.table.Has r.name r.index place ∧
      c.table.codeOffset? place = some head ∧
      c.code.chain head = .ok blobs ∧
      List.Forall₂ (fun image b => ∃ next offset,
        b = Blob.Image.blob image next offset) r.images blobs := by
  rcases List.append_of_mem hr with ⟨before, after, hsplit⟩
  rcases h.stands before r after hsplit with ⟨place, hhas, hhead⟩
  rcases Row.layOut_split before r after with ⟨post, hlayOut⟩
  rw [← hsplit] at hlayOut
  have hchain := Block.chain_run (Row.layOut before) (h.images_ne_nil r hr)
    post
  rw [← hlayOut] at hchain
  rcases h.consists.chain_eq hchain with ⟨blobs, hblobs, hall⟩
  have hstart : Block.start (Row.layOut rows) (Row.layOut before).length =
      Block.start (Row.layOut before) (Row.layOut before).length := by
    rw [hlayOut, List.append_assoc]
    exact Block.start_append _ _ (Nat.le_refl _)
  rw [hstart] at hblobs
  refine ⟨place, _, blobs, hhas, hhead, hblobs, ?_⟩
  rw [List.forall₂_iff_get] at hall ⊢
  rcases hall with ⟨hlength, hat⟩
  rw [List.length_range'] at hlength
  refine ⟨hlength, ?_⟩
  intro i hi hi'
  have hblob := hat i (by rwa [List.length_range']) hi'
  rw [List.get_eq_getElem, List.get_eq_getElem, List.getElem_range', Nat.one_mul,
    Block.blob?, Option.map_eq_some_iff] at hblob
  rcases hblob with ⟨block, hblock, heq⟩
  have himage : some block.image = r.images[i]? := by
    rw [hlayOut, List.append_assoc,
      List.getElem?_append_right (Nat.le_add_right _ _), Nat.add_sub_cancel_left,
      List.getElem?_append_left (by rwa [Block.length_run])] at hblock
    have hmap := congrArg (Option.map (·.image)) hblock
    rw [← List.getElem?_map, Block.map_image_run] at hmap
    exact hmap.symm
  rw [List.getElem?_eq_getElem hi, Option.some_inj] at himage
  rw [List.get_eq_getElem, List.get_eq_getElem, ← himage]
  exact ⟨_, _, heq.symm⟩

theorem find_eq (h : c.Arranged rows) {r : Row} (hr : r ∈ rows)
    {space : MetaSpace} {key : MetaKey} (hname : r.name = key.name.display)
    (hkey : space.keys[r.index.toNat]? = some key)
    (hdistinct : space.keys.Nodup) {place : Nat} {head : UInt32}
    (hhas : c.table.Has r.name r.index place)
    (hhead : c.table.codeOffset? place = some head) :
    c.find space key = .ok (.success, some head) := by
  have hexact : compareKey space key r.index = .exact :=
    compareKey_eq_exact_iff.mpr hkey
  have honly : ∀ i, compareKey space key i = .exact → i = r.index := by
    intro i hi
    have hat := compareKey_eq_exact_iff.mp hi
    have hlt := (List.getElem?_eq_some_iff.mp hat).1
    have hsame := hat.trans hkey.symm
    exact UInt32.toNat_inj.mp ((List.getElem?_inj hlt hdistinct).mp hsame)
  have hfind := h.tidy.find_eq hhas (h.index_lt r hr) hexact honly
  rw [hname] at hfind
  exact find_of_found hfind hhead

theorem mem_methods (h : c.Arranged rows) {entry : UInt32 × UInt32}
    (hentry : entry ∈ c.methods) :
    ∃ r ∈ rows, entry.1 = r.index := by
  rcases of_mem_methods hentry with ⟨place, -, hfull, -, rfl⟩
  rcases h.listed place hfull with ⟨r, hr, hlisted⟩
  refine ⟨r, hr, ?_⟩
  show (c.table.entryAt place).metaIndex.toUInt32 = r.index
  rw [hlisted, UInt32.toUInt32_toInt32]

end Arranged

end Container

end CodeCache
