import CodeCache.Merge.Basic
import CodeCache.Proofs.Blob.Contents
import CodeCache.Proofs.Blob.Matching
import CodeCache.Proofs.Metadata.Loading

/-!
# Copies of blobs

A copy of a blob is made from the same method. Its records differ in their
indices only, and stand for the same keys.
-/

namespace CodeCache

namespace Merge

variable {space merged merged' : MetaSpace} {map map' : Reindexing}
  {keys keys' : List MetaKey} {P : MetaKey → Prop}

/-!
## New indices
-/

def Renumbers (keys keys' : List MetaKey) (map : Reindexing) : Prop :=
  ∀ i j, map.lookup i = some j →
    ∃ key, keys[i.toNat]? = some key ∧ KeyAt keys' j key

theorem Renumbers.mono {more : List MetaKey} (h : Renumbers keys keys' map)
    (hmore : keys' <+: more) :
    Renumbers keys more map := by
  intro i j hij
  rcases h i j hij with ⟨key, hkey, hat⟩
  exact ⟨key, hkey, hat.mono hmore⟩

theorem renumbers_nil (keys keys' : List MetaKey) : Renumbers keys keys' [] := by
  intro i j hij
  cases hij

theorem of_reindex {indices : List UInt32} (hspace : ∀ key ∈ space.keys, P key)
    (hmerged : merged.KeyedBy P)
    (h : reindex space map merged indices = .ok (map', merged')) :
    merged'.KeyedBy P ∧ merged.keys <+: merged'.keys ∧
      (Renumbers space.keys merged.keys map →
        Renumbers space.keys merged'.keys map') := by
  induction indices generalizing map merged with
  | nil =>
      cases h
      exact ⟨hmerged, List.prefix_refl _, id⟩
  | cons index indices ih =>
      unfold reindex at h
      cases hknown : map.lookup index with
      | some new =>
          rw [hknown] at h
          exact ih hmerged h
      | none =>
          rw [hknown] at h
          rcases of_bind_eq_ok h with ⟨key, hkey, h⟩
          have hat := MetaSpace.key_eq_ok_iff.mp hkey
          have hP := hspace key (List.mem_of_getElem? hat)
          rcases ih (hmerged.internKey hP) h with ⟨hkeyed, hkeys, hmap⟩
          have hgrown := MetaSpace.keys_prefix_internKey merged key
          refine ⟨hkeyed, hgrown.trans hkeys, ?_⟩
          intro hold
          refine hmap ?_
          intro i j hij
          rw [List.lookup_cons] at hij
          split at hij
          · rename_i hsame
            cases hij
            rw [beq_iff_eq.mp hsame]
            exact ⟨key, hat, MetaSpace.keyAt_internKey merged key⟩
          · exact hold.mono hgrown i j hij

theorem of_newIndex {i j : UInt32} (h : newIndex map i = .ok j) :
    map.lookup i = some j := by
  unfold newIndex at h
  split at h
  · rename_i hlookup
    cases h
    exact hlookup
  · cases h

theorem Renumbers.matches (h : Renumbers keys keys' map)
    (hsize : keys'.length ≤ 2 ^ 32) {r r' : TagRecord}
    (hrun : r.mapIndexM (newIndex map) = .ok r') :
    r.Matches keys keys' r' := by
  have hindex : ∀ {i j}, newIndex map i = .ok j →
      ∃ key, keys[i.toNat]? = some key ∧ keys'[j.toNat]? = some key := by
    intro i j hij
    rcases h i j (of_newIndex hij) with ⟨key, hkey, hat⟩
    exact ⟨key, hkey, hat.getElem?_eq hsize⟩
  cases r with
  | klass loader i needed =>
      rcases of_bind_eq_ok hrun with ⟨j, hij, hdone⟩
      cases hdone
      rcases hindex hij with ⟨key, hi, hj⟩
      exact .klass hi hj
  | mirror loader i needed =>
      rcases of_bind_eq_ok hrun with ⟨j, hij, hdone⟩
      cases hdone
      rcases hindex hij with ⟨key, hi, hj⟩
      exact .mirror hi hj
  | method loader i =>
      rcases of_bind_eq_ok hrun with ⟨j, hij, hdone⟩
      cases hdone
      rcases hindex hij with ⟨key, hi, hj⟩
      exact .method hi hj
  | _ =>
      cases hrun
      exact .plain rfl

/-!
## One stream
-/

theorem encodedSize_of_mapIndexM {f : UInt32 → Except Error UInt32}
    {r r' : TagRecord} (h : r.mapIndexM f = .ok r') :
    r'.encodedSize = r.encodedSize := by
  cases r with
  | klass | mirror | method =>
      rcases of_bind_eq_ok h with ⟨j, _, hdone⟩
      cases hdone
      rfl
  | _ =>
      cases h
      rfl

theorem length_encode_of_mapIndexM {f : UInt32 → Except Error UInt32}
    {old new : List TagRecord}
    (h : List.Forall₂ (fun r r' => r.mapIndexM f = .ok r') old new) :
    (TagStream.encode new).length = (TagStream.encode old).length := by
  unfold TagStream.encode
  rw [List.length_append, List.length_append, Nat.add_right_cancel_iff]
  induction h with
  | nil => rfl
  | cons hrecord _ ih =>
      rw [List.flatMap_cons, List.flatMap_cons, List.length_append,
        List.length_append, ih, TagRecord.length_encode, TagRecord.length_encode,
        encodedSize_of_mapIndexM hrecord]

/-- Reindexing a section puts the new stream in the place of the old one. `put`
is the content by its stream. -/
theorem of_reindexPart {put : List TagRecord → Emit.Content}
    {before after : List Bytes} {old : List TagRecord}
    (hparts : ∀ new, (put new).parts = before ++ TagStream.encode new :: after)
    (hmethod : ∀ new, (put new).method = (put old).method)
    (hindex : ∀ new, (put new).index = (put old).index)
    (hsize : (put old).size < 2 ^ 32) (hfinish : ∀ r ∈ old, r ≠ .finish)
    {s : Section} (hs : s = Emit.sectionAfter (put old).method before
      (TagStream.encode old)) {next : Int32} {bytes : Bytes}
    (h : reindexPart map ((put old).bytes next) s = .ok bytes) :
    ∃ new, List.Forall₂ (fun r r' => r.mapIndexM (newIndex map) = .ok r')
        old new ∧
      (put new).parts.map List.length = (put old).parts.map List.length ∧
      bytes = (put new).bytes next := by
  have hplaced : Emit.Placed ((put old).bytes next) s
      (TagStream.encode old) := by
    rw [hs]
    exact Emit.placed_of_split (BlobHeader.length_encode _) hsize (hparts old)
  have hshort : (TagStream.encode old).length < 2 ^ 32 := by
    have hfits := hplaced.stands.fits
    rw [(put old).length_bytes] at hfits
    omega
  have hholds : TagStream.Holds { bytes := TagStream.encode old } old :=
    TagStream.holds_encode (fun r hr => TagStream.isShort_of_mem hshort hr)
      hfinish
  have hwindow := hplaced.stands.window_eq
  rw [← hplaced.length_eq] at hwindow
  unfold reindexPart at h
  dsimp only at h
  rw [hwindow] at h
  rcases of_bind_eq_ok h with ⟨stream, hstream, h⟩
  rcases hholds.reindex hstream with ⟨new, rfl, hall⟩
  have hlength := length_encode_of_mapIndexM hall
  rw [if_neg (by rw [hplaced.length_eq, hlength]; exact Nat.lt_irrefl _), hs,
    Emit.start_sectionAfter hsize (hparts old)] at h
  cases h
  refine ⟨new, hall, ?_, ?_⟩
  · rw [hparts, hparts, List.map_append, List.map_append, List.map_cons,
      List.map_cons, hlength]
  · exact Emit.Content.bytes_replace (hmethod new) (hindex new) (hparts old)
      (hparts new) hlength next

/-!
## Whole blobs
-/

end Merge

namespace Emit

structure Content.Matches (keys keys' : List MetaKey) (c c' : Content) :
    Prop where
  method_eq : c'.method = c.method
  metas : List.Forall₂ (TagRecord.Matches keys keys') c.metas c'.metas
  oops : List.Forall₂ (TagRecord.Matches keys keys') c.oops c'.oops
  sites : List.Forall₂ (TagRecord.Matches keys keys') c.sites c'.sites

end Emit

namespace Merge

structure Copied (map : Reindexing) (c c' : Emit.Content) : Prop where
  method_eq : c'.method = c.method
  metas : List.Forall₂ (fun r r' => r.mapIndexM (newIndex map) = .ok r')
    c.metas c'.metas
  oops : List.Forall₂ (fun r r' => r.mapIndexM (newIndex map) = .ok r')
    c.oops c'.oops
  sites : List.Forall₂ (fun r r' => r.mapIndexM (newIndex map) = .ok r')
    c.sites c'.sites

theorem Copied.matches {c c' : Emit.Content} (h : Copied map c c')
    (hmap : Renumbers keys keys' map) (hsize : keys'.length ≤ 2 ^ 32) :
    c.Matches keys keys' c' where
  method_eq := h.method_eq
  metas := h.metas.imp fun _ _ => hmap.matches hsize
  oops := h.oops.imp fun _ _ => hmap.matches hsize
  sites := h.sites.imp fun _ _ => hmap.matches hsize

theorem ne_finish_of_mapIndexM {f : UInt32 → Except Error UInt32}
    {r r' : TagRecord} (h : r.mapIndexM f = .ok r') (hr : r ≠ .finish) :
    r' ≠ .finish := by
  cases r with
  | finish => exact absurd rfl hr
  | klass | mirror | method =>
      rcases of_bind_eq_ok h with ⟨j, _, hdone⟩
      cases hdone
      exact TagRecord.noConfusion
  | _ =>
      cases h
      exact TagRecord.noConfusion

theorem Copied.sound {c c' : Emit.Content} (h : Copied map c c')
    (hc : c.Sound) :
    c'.Sound := by
  constructor
  · rw [h.method_eq, ← h.metas.length_eq, hc.metas_length]
  · rw [h.method_eq, ← h.oops.length_eq, hc.oops_length]
  · have hall : ∀ {old new : List TagRecord},
        List.Forall₂ (fun r r' => r.mapIndexM (newIndex map) = .ok r') old new →
        (∀ r ∈ old, r ∈ c.metas ++ c.oops ++ c.sites) →
        ∀ r ∈ new, r ≠ .finish := by
      intro old new hold hmem r hr
      rcases exists_of_mem_right hold hr with ⟨s, hs, hmap⟩
      exact ne_finish_of_mapIndexM hmap (hc.ne_finish s (hmem s hs))
    intro r hr
    rcases List.mem_append.mp hr with hr | hr
    · rcases List.mem_append.mp hr with hr | hr
      · exact hall h.metas
          (fun s hs => List.mem_append_left _ (List.mem_append_left _ hs)) r hr
      · exact hall h.oops
          (fun s hs => List.mem_append_left _ (List.mem_append_right _ hs)) r hr
    · exact hall h.sites (fun s hs => List.mem_append_right _ hs) r hr

theorem of_reindexParts {c : Emit.Content} (hc : c.Sound)
    (hsize : c.size < 2 ^ 32) {bytes : Bytes}
    (h : [(c.header (-1)).tagMeta, (c.header (-1)).tagOop,
      (c.header (-1)).tagReloc].foldlM (reindexPart map) (c.bytes (-1)) =
        .ok bytes) :
    ∃ c', Copied map c c' ∧ c'.index = c.index ∧ bytes = c'.bytes (-1) := by
  rcases of_bind_eq_ok h with ⟨bytes₁, h₁, h⟩
  rcases of_bind_eq_ok h with ⟨bytes₂, h₂, h⟩
  rcases of_bind_eq_ok h with ⟨bytes₃, h₃, hdone⟩
  cases hdone
  have hfinish := hc.ne_finish
  have hmetasFinish : ∀ r ∈ c.metas, r ≠ .finish := fun r hr =>
    hfinish r (List.mem_append_left _ (List.mem_append_left _ hr))
  have hoopsFinish : ∀ r ∈ c.oops, r ≠ .finish := fun r hr =>
    hfinish r (List.mem_append_left _ (List.mem_append_right _ hr))
  have hsitesFinish : ∀ r ∈ c.sites, r ≠ .finish := fun r hr =>
    hfinish r (List.mem_append_right _ hr)
  have hsection : ∀ {parts : List Bytes} (n : Nat) (part : Bytes),
      parts.map List.length = c.parts.map List.length →
      Emit.sectionAfter c.method (c.parts.take n) part =
        Emit.sectionAfter c.method (parts.take n) part := by
    intro parts n part hparts
    refine (Emit.Content.sectionAfter_congr c.method ?_ rfl).symm
    rw [List.map_take, List.map_take, hparts]
  rcases @of_reindexPart map (fun metas => { c with metas }) (c.parts.take 3)
    (c.parts.drop 4) c.metas (fun _ => rfl) (fun _ => rfl) (fun _ => rfl) hsize
    hmetasFinish _ rfl _ _ h₁ with ⟨metas, hmetas, hparts₁, rfl⟩
  have hsize₁ : Emit.Content.size { c with metas } < 2 ^ 32 := by
    rw [@Emit.Content.size_congr c { c with metas } rfl hparts₁]
    exact hsize
  rcases @of_reindexPart map (fun oops => { c with metas, oops })
    (Emit.Content.parts { c with metas } |>.take 4) (c.parts.drop 5) c.oops
    (fun _ => rfl) (fun _ => rfl) (fun _ => rfl) hsize₁ hoopsFinish _
    (hsection 4 _ hparts₁) _ _ h₂ with ⟨oops, hoops, hparts₂, rfl⟩
  have hsize₂ : Emit.Content.size { c with metas, oops } < 2 ^ 32 := by
    rw [@Emit.Content.size_congr c { c with metas, oops } rfl
      (hparts₂.trans hparts₁)]
    exact hsize
  rcases @of_reindexPart map (fun sites => { c with metas, oops, sites })
    (Emit.Content.parts { c with metas, oops } |>.take 5) (c.parts.drop 6)
    c.sites (fun _ => rfl) (fun _ => rfl) (fun _ => rfl) hsize₂ hsitesFinish _
    (hsection 5 _ (hparts₂.trans hparts₁)) _ _ h₃ with ⟨sites, hsites, -, rfl⟩
  exact ⟨{ c with metas, oops, sites }, ⟨rfl, hmetas, hoops, hsites⟩, rfl, rfl⟩

theorem of_copyBlob {c : Emit.Content} (hc : c.Sound) (hsize : c.size < 2 ^ 32)
    (hspace : ∀ key ∈ space.keys, P key) (hmerged : merged.KeyedBy P)
    {next : Int32} {offset index : UInt32} {bytes : Bytes}
    (h : copyBlob space index (c.blob next offset) merged =
      .ok (bytes, merged')) :
    merged'.KeyedBy P ∧ merged.keys <+: merged'.keys ∧
      ∃ c', c'.Sound ∧ c'.index = index ∧ bytes = c'.bytes (-1) ∧
        ∀ more, merged'.keys <+: more → more.length ≤ 2 ^ 32 →
          c.Matches space.keys more c' := by
  unfold copyBlob at h
  rcases of_bind_eq_ok h with ⟨indices, _, h⟩
  rcases of_bind_eq_ok h with ⟨⟨map, grown⟩, hreindex, h⟩
  rcases of_bind_eq_ok h with ⟨copied, hcopied, hdone⟩
  cases hdone
  rcases of_reindex hspace hmerged hreindex with ⟨hkeyed, hkeys, hmap⟩
  have hrenumbers := hmap (renumbers_nil _ _)
  dsimp only [Emit.Content.blob] at hcopied
  rw [Emit.Content.bytes_setNext, Emit.Content.bytes_setIndex] at hcopied
  have hsound : Emit.Content.Sound { c with index } :=
    ⟨hc.metas_length, hc.oops_length, hc.ne_finish⟩
  rcases @of_reindexParts map { c with index } hsound hsize bytes hcopied with
    ⟨c', hcopy, hindex, rfl⟩
  refine ⟨hkeyed, hkeys, c', hcopy.sound hsound, hindex, rfl, ?_⟩
  intro more hmore hlength
  have hmatches := hcopy.matches (hrenumbers.mono hmore) hlength
  exact ⟨hmatches.method_eq, hmatches.metas, hmatches.oops, hmatches.sites⟩

end Merge

end CodeCache
