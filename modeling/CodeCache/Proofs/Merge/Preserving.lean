import CodeCache.Proofs.Blob.Equivalence
import CodeCache.Proofs.Merge.Copying
import CodeCache.Proofs.Merge.Output

/-!
# Merges keep what code means

The container of a group holds a chain for every method that was kept: copies of
the selected blobs, in their order. Whoever revives a copy gets the code that
reviving the blob in its own file would give, or fails in the same way.
-/

namespace CodeCache

/-!
## Blobs that mean the same
-/

namespace Blob

def resolved (ctx : ReviveContext) (space : MetaSpace) (b : Blob) :
    Except Error Resolved :=
  match b.resolve ctx space with
  | .ok resolved _ => .ok resolved
  | .error e _ => .error e

def rebuilt (ctx : ReviveContext) (space : MetaSpace) (b : Blob) :
    Except Error CompiledMethod :=
  b.resolved ctx space >>= fun resolved => b.revive ctx resolved

/-- A blob over a metaspace comes to the same, for every host and method, as
another one over another metaspace, and assumes the same. -/
structure MeansSame (b : Blob) (space : MetaSpace) (b' : Blob)
    (space' : MetaSpace) : Prop where
  resolved_alike : ∀ ctx : ReviveContext,
    SameOutcome Eq (b.resolved ctx space) (b'.resolved ctx space')
  rebuilt_alike : ∀ ctx : ReviveContext,
    SameOutcome Eq (b.rebuilt ctx space) (b'.rebuilt ctx space')
  dependencies_eq : b'.dependencies = b.dependencies
  speculations_eq : b'.speculations = b.speculations

end Blob

theorem Emit.Content.meansSame {c copy : Content} {space space' : MetaSpace}
    (hmatches : c.Matches space.keys space'.keys copy) (hc : c.Sound)
    (hsize : c.size < 2 ^ 32) (hcopy : copy.Sound) (hsize' : copy.size < 2 ^ 32)
    (hfresh : space.Fresh) (hfresh' : space'.Fresh) (next next' : Int32)
    (offset offset' : UInt32) :
    (c.blob next offset).MeansSame space (copy.blob next' offset') space' := by
  have hstores := hc.stores hsize next offset
  have hstores' := hcopy.stores hsize' next' offset'
  rw [hmatches.method_eq] at hstores'
  have hresolved : ∀ ctx : ReviveContext, SameOutcome Eq
      ((c.blob next offset).resolved ctx space)
      ((copy.blob next' offset').resolved ctx space') := by
    intro ctx
    have halike := @Blob.resolve_alike space.keys space'.keys ctx _ _ _ _ _ _ _ _
      _ hstores hstores' hmatches.metas hmatches.oops hmatches.sites
      hc.metas_length hc.oops_length space space'
      ⟨MetaSpace.leads_of_fresh ctx.host hfresh,
        MetaSpace.leads_of_fresh ctx.host hfresh'⟩
    unfold steps at halike
    unfold Blob.resolved
    cases hrun : (c.blob next offset).resolve ctx space with
    | ok r s =>
        rw [hrun] at halike
        cases hrun' : (copy.blob next' offset').resolve ctx space' with
        | ok r' s' =>
            rw [hrun'] at halike
            cases halike with
            | ok h => exact .ok h.1
        | error e' s' =>
            rw [hrun'] at halike
            cases halike
    | error e s =>
        rw [hrun] at halike
        cases hrun' : (copy.blob next' offset').resolve ctx space' with
        | ok r' s' =>
            rw [hrun'] at halike
            cases halike
        | error e' s' =>
            rw [hrun'] at halike
            cases halike with
            | error h => exact .error h
  refine ⟨hresolved, ?_, ?_, ?_⟩
  · intro ctx
    refine (hresolved ctx).of_bind ?_
    rintro r _ rfl
    exact Blob.revive_alike hstores hstores' hmatches.sites ctx r
  · rw [hstores.dependencies_eq, hstores'.dependencies_eq]
  · rw [hstores.speculations_eq, hstores'.speculations_eq]

namespace Merge

variable {inputs : List Input} {o : Options} {g : Group}

/-!
## Inputs
-/

/-- A loaded file with blobs of methods only. No fingerprint takes gigabytes. -/
structure Input.Sound (input : Input) : Prop where
  stocked : ∀ c ∈ input.file.containers, ∃ fingerprint buckets count,
    c.Stocked Blob.Image.OfMethod fingerprint buckets count
  flags_lt : ∀ c ∈ input.file.containers,
    c.fingerprint.flags.length < 2 ^ 28
  fresh : input.file.space.Fresh
  clean : ∀ key ∈ input.file.space.keys, key.name.NulFree

theorem stands_of_visited (hinputs : ∀ input ∈ inputs, Input.Sound input)
    {key : MetaKey} {place : BlobPlace} (h : Visited inputs g key place) :
    ∃ content space, Stands inputs place content space := by
  rcases h with ⟨member, -, input, hinput, c, hc, entry, hentry, -, b, hb, rfl⟩
  rcases (hinputs input (List.mem_of_getElem? hinput)).stocked c
    (List.mem_of_getElem? hc) with ⟨fingerprint, buckets, count, hstocked⟩
  rcases Container.of_mem_methods hentry with ⟨at_, hplace, -, hcode, rfl⟩
  rcases hstocked.versions_eq (LookupTable.entryAt_mem hplace) hcode with
    ⟨blobs, hblobs, hall⟩
  have hparse := CodeSpace.blob_of_mem_versions hb
  rw [hblobs, List.mem_map] at hb
  rcases hb with ⟨b', hb', hsame⟩
  cases hsame
  rcases hall b hb' with ⟨image, next, ⟨content, hsound, hsize, rfl⟩, hblob⟩
  rw [content.blob_image] at hblob
  refine ⟨content, input.file.space, ⟨next, b.offset, ?_⟩, hsound, hsize⟩
  unfold blobAt
  rw [hinput]
  dsimp only [Option.bind_some]
  rw [hc, Option.map_some]
  dsimp only
  rw [hparse, ← hblob]
  rfl

theorem allCopyable_keep (hinputs : ∀ input ∈ inputs, Input.Sound input)
    (hsize : Numberable inputs) :
    AllCopyable inputs (keep o inputs g) := by
  refine ⟨fun k hk => ?_, nodup_keep o inputs g⟩
  exact ⟨hasKey_of_mem_keep hk, places_ne_nil_of_mem_keep hk, fun p hp =>
    stands_of_visited hinputs (visited_of_mem_keep hsize hk p hp)⟩

/-!
## Containers of the output
-/

/-- The container of a group, over a metaspace, holds a chain for the method: one
copy for each selected version, in the order of the selection. -/
structure KeepsMethod (inputs : List Input) (g : Group) (space : MetaSpace)
    (container : Container) (k : Kept) : Prop where
  ranked : k.versions.versions.Pairwise MethodVersions.Before
  visited : ∀ place ∈ k.places, Visited inputs g k.key place
  chain : ∃ head blobs,
    container.find space k.key = .ok (.success, some head) ∧
    container.code.chain head = .ok blobs ∧
    List.Forall₂ (fun place b =>
        space.key b.header.methodIndex = .ok k.key ∧
        ∃ original source, blobAt inputs place = .ok (original, source) ∧
          original.MeansSame source b space)
      k.places blobs

/-- The container of a group, over a metaspace, has the fingerprint of the group,
and holds every method that was kept, and no other one. -/
structure Keeps (o : Options) (inputs : List Input) (space : MetaSpace)
    (g : Group) (container : Container) : Prop where
  identical : ∀ member ∈ g.members, ∃ input source,
    inputs[member.1]? = some input ∧
    input.file.containers[member.2]? = some source ∧
    container.fingerprint.identical source.fingerprint = true
  offered : ∀ key, Offered inputs g key → ∃ k ∈ keep o inputs g, k.key = key
  methods : ∀ k ∈ keep o inputs g, KeepsMethod inputs g space container k
  only : ∀ entry ∈ container.methods, ∃ k ∈ keep o inputs g,
    space.key entry.1 = .ok k.key

theorem keeps_of_filled (hinputs : ∀ input ∈ inputs, Input.Sound input)
    (hsize : Numberable inputs) (hgroup : Group.Of (containersOf inputs) g)
    {space : MetaSpace} (hfresh : space.Fresh) (hdistinct : space.keys.Nodup)
    {container : Container}
    (h : Filled inputs space.keys (g, keep o inputs g) container) :
    Keeps o inputs space g container := by
  rcases h.rows with ⟨rows, harranged, hrows⟩
  refine ⟨?_, fun _ => exists_mem_keep o hsize, ?_, ?_⟩
  · intro member hmember
    rcases hgroup.members member hmember with ⟨c, hc, hidentical⟩
    rcases mem_containersOf hc with ⟨input, hinput, hsource⟩
    refine ⟨input, c, hinput, hsource, ?_⟩
    rw [h.fingerprint_eq]
    exact hidentical
  · intro k hk
    rcases proper_of_mem_keep hk with ⟨_, -, -, hranked⟩
    refine ⟨hranked, visited_of_mem_keep hsize hk, ?_⟩
    rcases exists_of_mem_left hrows hk with ⟨r, hr, hrow⟩
    rcases harranged.chain_eq hr with ⟨place, head, blobs, hhas, hhead, hchain,
      hblobs⟩
    refine ⟨head, blobs, harranged.find_eq hr hrow.name_eq hrow.key_at hdistinct
      hhas hhead, hchain, ?_⟩
    refine forall₂_trans hrow.copies hblobs ?_
    rintro place image b ⟨c, source, copy, hstands, hmatches, hsound, hlt, hindex,
      rfl⟩ ⟨next, offset, rfl⟩
    rcases hstands.found with ⟨next', offset', hfound⟩
    rw [copy.blob_image]
    refine ⟨?_, _, source, hfound, ?_⟩
    · refine MetaSpace.key_eq_ok_iff.mpr ?_
      show space.keys[copy.index.toNat]? = _
      rw [hindex]
      exact hrow.key_at
    · rcases of_blobAt hfound with ⟨input, code, hinput, rfl, -⟩
      exact Emit.Content.meansSame hmatches hstands.sound hstands.size_lt hsound
        hlt (hinputs input hinput).fresh hfresh _ _ _ _
  · intro entry hentry
    rcases harranged.mem_methods hentry with ⟨r, hr, hindex⟩
    rcases exists_of_mem_right hrows hr with ⟨k, hk, hrow⟩
    refine ⟨k, hk, MetaSpace.key_eq_ok_iff.mpr ?_⟩
    rw [hindex]
    exact hrow.key_at

/-!
## The whole output
-/

variable {f : CacheFile} {report : MergeReport} {output identity : String}
  {paths : List String}

theorem keeps_of_build (hinputs : ∀ input ∈ inputs, Input.Sound input)
    (hsize : Numberable inputs)
    (h : build o output paths inputs identity = .ok (f, report)) :
    f.space.KeyedBy (HasKey inputs) ∧
      ∀ space : MetaSpace, space.Fresh → space.keys = f.space.keys →
        List.Forall₂ (Keeps o inputs space)
          (keptGroups o inputs.length (groups inputs)) f.containers := by
  have hcopyable : ∀ g ∈ (keptGroups o inputs.length (groups inputs)).map
      (fun g => (g, keep o inputs g)), AllCopyable inputs g.2 := by
    intro g hg
    rcases List.mem_map.mp hg with ⟨group, -, rfl⟩
    exact allCopyable_keep hinputs hsize
  rcases copyGroups_filled hcopyable (MetaSpace.keyedBy_empty _)
    (of_build h).2.2 with ⟨hkeyed, -, hfilled⟩
  refine ⟨hkeyed, fun space hfresh hkeys => ?_⟩
  have hall := hfilled _ (List.prefix_refl _) (hsize.keys_lt hkeyed)
  rw [List.forall₂_map_left_iff] at hall
  refine ((List.forall₂_and_left _ _).mpr
    ⟨fun g hg => of_mem_keptGroups hg, hall⟩).imp ?_
  rintro g container ⟨hgroup, hfill⟩
  rw [← hkeys] at hfill
  exact keeps_of_filled hinputs hsize hgroup hfresh (hkeys ▸ hkeyed.distinct)
    hfill

theorem storable_of_build (hinputs : ∀ input ∈ inputs, Input.Sound input)
    (hsize : Numberable inputs)
    (h : build o output paths inputs identity = .ok (f, report))
    (hidentity : NulFree identity) (hsmall : f.encodedSize < 2 ^ 32)
    (hsome : 0 < report.keptGroups)
    (hfew : report.keptGroups ≤ FileHeader.maxContainers) :
    f.WellFormed ∧ f.Storable := by
  rcases of_build h with ⟨hbuild, hcount, -⟩
  rcases keeps_of_build hinputs hsize h with ⟨hkeyed, hkeeps⟩
  have hall := hkeeps _ (MetaSpace.fresh_ofKeys _) (MetaSpace.keys_ofKeys _)
  rw [hcount, hall.length_eq] at hsome hfew
  constructor
  · refine ⟨hkeyed.distinct, fun c hc => ?_⟩
    rcases stocked_of_build h c hc with ⟨_, -, _, -, _, _, -, hstocked⟩
    exact hstocked.wellFormed
  · refine CacheFile.storable_of_small hsmall (hbuild ▸ hidentity) ?_
      (List.length_pos_iff.mp hsome) hfew ?_
    · intro key hkey
      rcases hkeyed.all key hkey with ⟨input, hinput, hmem⟩
      exact (hinputs input hinput).clean key hmem
    · intro c hc entry hentry
      rcases exists_of_mem_right hall hc with ⟨g, -, hkept⟩
      rcases hkept.only entry hentry with ⟨k, -, hkey⟩
      have hat := MetaSpace.key_eq_ok_iff.mp hkey
      rw [MetaSpace.keys_ofKeys] at hat
      rw [← f.space.length_keys]
      exact (List.getElem?_eq_some_iff.mp hat).1

end Merge

end CodeCache
