import CodeCache.Proofs.Blob.RoundTrip
import CodeCache.Proofs.Cache.Tallying
import CodeCache.Proofs.Store.Fingerprints

/-!
# The versions in a saved file

The log of a save and its container grow together: each version of the log is
the next addition to the container, under an index at which its key stands. A
process of the same build and settings that loads the file therefore finds for
every key what the save kept of it, and nothing under any other key.
-/

namespace CodeCache

/-- The blob holds the code of the method, its relocations and what it assumes. -/
def Blob.IsOf (b : Blob) (nm : CompiledMethod) : Prop :=
  ∃ metas oops sites, b.Stores nm metas oops sites

structure Addition.IsOf (keys : List MetaKey) (v : MetaKey × CompiledMethod)
    (a : Addition) : Prop where
  key_at : KeyAt keys a.index v.1
  name_eq : a.name = v.1.name.display
  written : ∃ content : Emit.Content, content.Sound ∧ content.size < 2 ^ 32 ∧
    content.method = v.2 ∧ a.image = content.image

namespace Addition.IsOf

variable {keys : List MetaKey} {v w : MetaKey × CompiledMethod}
  {a b : Addition}

theorem mono {more : List MetaKey} (h : a.IsOf keys v) (hmore : keys <+: more) :
    a.IsOf more v := by
  constructor
  · exact h.key_at.mono hmore
  · exact h.name_eq
  · exact h.written

theorem index_lt (h : a.IsOf keys v) (hsize : keys.length ≤ 2 ^ 31) :
    a.index.toNat < 2 ^ 31 := by
  have hkey := h.key_at.getElem?_eq (by omega)
  rw [List.getElem?_eq_some_iff] at hkey
  exact Nat.lt_of_lt_of_le hkey.1 hsize

theorem index_eq_iff (h : a.IsOf keys v) (h' : b.IsOf keys w)
    (hdistinct : keys.Nodup) (hsize : keys.length ≤ 2 ^ 31) :
    a.index = b.index ↔ v.1 = w.1 := by
  have hkey := h.key_at.getElem?_eq (by omega)
  have hkey' := h'.key_at.getElem?_eq (by omega)
  constructor
  · intro hsame
    rw [hsame, hkey'] at hkey
    exact (Option.some_inj.mp hkey).symm
  · intro hsame
    have hlt := (List.getElem?_eq_some_iff.mp hkey).1
    apply UInt32.toNat.inj
    apply (List.getElem?_inj hlt hdistinct).mp
    rw [hkey, hkey', hsame]

theorem isOf_blob (h : a.IsOf keys v) (next : Int32) (offset : UInt32) :
    (a.image.blob next offset).IsOf v.2 := by
  rcases h.written with ⟨content, hsound, hsize, hmethod, himage⟩
  rw [himage, content.blob_image, ← hmethod]
  exact ⟨_, _, _, hsound.stores hsize next offset⟩

end Addition.IsOf

/-!
## The container that a save fills
-/

namespace Saving

variable {host : Host} {o : Options} {s s' : Saving}
  {methods : List CompiledMethod} {nm : CompiledMethod} {log : Log}

/-- The container of the file holds the versions of the log, in order. Before
the first of them there is no container. -/
def Holds (s : Saving) (log : Log) : Prop :=
  ∃ adds, List.Forall₂ (Addition.IsOf s.file.space.keys) log adds ∧
    (s.file.containers = [] ∧ adds = [] ∨
      ∃ c blocks, s.file.containers = [c] ∧ c.Records adds blocks)

theorem Holds.mono (h : s.Holds log)
    (hmore : s.file.space.keys <+: s'.file.space.keys)
    (hsame : s'.file.containers = s.file.containers) :
    s'.Holds log := by
  rcases h with ⟨adds, hall, hcontainers⟩
  rw [← hsame] at hcontainers
  exact ⟨adds, hall.imp fun _ _ ha => ha.mono hmore, hcontainers⟩

theorem name_of_keyAt {space : MetaSpace} {index : UInt32} {key : MetaKey}
    (h : KeyAt space.keys index key) (hsize : space.keys.length ≤ 2 ^ 32) :
    space.name index = key.name.display := by
  have hkey := MetaSpace.key_eq_ok_iff.mpr (h.getElem?_eq hsize)
  unfold MetaSpace.key at hkey
  unfold MetaSpace.name
  cases hentry : space.entry? index with
  | none =>
      rw [hentry] at hkey
      cases hkey
  | some entry =>
      rw [hentry] at hkey
      cases hkey
      rfl

theorem Holds.addBlob (h : s.Holds log)
    (hs : SavedTo (.capture host.settings) s.report.versions s.file.containers)
    {key : MetaKey} {content : Emit.Content} {blob : EmittedBlob}
    (hdistinct : s.file.space.keys.Nodup)
    (hsize : s.file.space.keys.length ≤ 2 ^ 31)
    (hkey : KeyAt s.file.space.keys blob.methodIndex key)
    (hsound : content.Sound) (hbytes : blob.bytes = content.bytes (-1))
    (hadd : Saving.addBlob (.capture host.settings) key blob s = .ok s') :
    s'.Holds (log ++ [(key, content.method)]) := by
  rcases addBlob_cases hs hadd with
    ⟨c, c', offset, hcontainer, hstocked, hversion, hfile, -⟩
  rcases h with ⟨adds, hall, hcontainers⟩
  have hrecords : ∃ blocks, c.Records adds blocks := by
    rcases hcontainer with ⟨hnone, rfl⟩ | hone
    · rcases hcontainers with ⟨-, rfl⟩ | ⟨c₀, _, hone, -⟩
      · exact ⟨[], Container.Records.of_sized _ (by decide)⟩
      · rw [hnone] at hone
        cases hone
    · rcases hcontainers with ⟨hnone, -⟩ | ⟨c₀, blocks, hone', hrecords⟩
      · rw [hnone] at hone
        cases hone
      · rw [hone] at hone'
        cases hone'
        exact ⟨blocks, hrecords⟩
  rcases hrecords with ⟨blocks, hrecords⟩
  rw [hbytes] at hversion
  have hlt := Container.size_lt_of_addVersion hversion
  rw [name_of_keyAt hkey (by omega), ← content.bytes_image] at hversion
  have hnew : Addition.IsOf s.file.space.keys (key, content.method)
      ⟨blob.methodIndex, key.name.display, content.image⟩ :=
    ⟨hkey, rfl, content, hsound, hlt, rfl, rfl⟩
  have hname : ∀ a ∈ adds, a.index = blob.methodIndex →
      a.name = key.name.display := by
    intro a ha hsame
    rcases exists_of_mem_right hall ha with ⟨v, -, hv⟩
    rw [hv.name_eq, (hv.index_eq_iff hnew hdistinct hsize).mp hsame]
  have hbuckets : c.table.bucketCount ≤ 10 ^ 8 := by
    rw [hstocked.bucketCount_eq]
    decide
  rcases hrecords.addVersion (hnew.index_lt hsize) hname hbuckets
    (Emit.Content.sound_image hlt) hversion with ⟨blocks', hrecords'⟩
  refine ⟨_, ?_, Or.inr ⟨c', blocks', ?_, hrecords'⟩⟩
  · rw [hfile]
    exact List.rel_append hall (.cons hnew .nil)
  · rw [hfile]

/-- Behind a part of the methods, the counts and the container agree with a log
of it. Past 2^31 keys, indices would no longer tell methods apart. -/
structure Tracks (host : Host) (o : Options) (methods : List CompiledMethod)
    (s : Saving) : Prop where
  orderly : s.Orderly host
  logged : ∃ log, Tallies host o methods log s ∧
    (s.file.space.keys.length ≤ 2 ^ 31 → s.Holds log)

theorem Tracks.addMethod (hclean : host.HasCleanNames)
    (hlimit : 1 ≤ o.maxVersions) (h : Tracks host o methods s)
    (hadd : addMethod host o (.capture host.settings) s nm = .ok s') :
    Tracks host o (methods ++ [nm]) s' := by
  have horderly := h.orderly.addMethod hclean hadd
  rcases h.logged with ⟨log, htallies, hholds⟩
  have hencodes := @CompiledMethod.emit_encodes host nm _
    h.orderly.tidy.toCoherent
  have hinterns := fun keys => @CompiledMethod.emit_interns host keys nm
    s.file.space h.orderly.tidy.toCoherent
  refine ⟨horderly, ?_⟩
  rcases addMethod_cases hadd with
    ⟨rfl, hreason⟩ | ⟨e, space, hemit, rfl⟩ |
    ⟨key, blob, space, hemit, heligible, hkey, hroom, hblob⟩
  · refine ⟨log, htallies.skip ?_ rfl rfl, hholds⟩
    intro key hversion
    unfold isVersionOf at hversion
    rw [Bool.and_eq_true, Bool.and_eq_true, beq_iff_eq] at hversion
    rcases hreason with hnot | ⟨e, hnone⟩ | ⟨key', hkey', hfull⟩
    · rw [hnot] at hversion
      cases hversion.1.1
    · rw [hnone] at hversion
      cases hversion.2
    · rw [hkey'] at hversion
      cases hversion.2
      exact (htallies.isFull_iff hlimit _).mp hfull
  · have hinterns := hinterns []
    rw [hemit] at hencodes hinterns
    have hgrow := hinterns.2
    refine ⟨log, htallies.skip ?_ rfl rfl, ?_⟩
    · intro key hversion
      unfold isVersionOf at hversion
      rw [hencodes] at hversion
      simp at hversion
    · intro hsize
      exact (hholds (hgrow.length_le.trans hsize)).mono hgrow rfl
  · have hinterns := hinterns space.keys
    rw [hemit] at hencodes hinterns
    rcases hinterns with ⟨hcoherent, hgrow, hdescribes⟩
    rcases hdescribes (List.prefix_refl _) with ⟨metas, oops, sites, hdescribes⟩
    rcases hdescribes.exists_content with
      ⟨content, hsound, hmethod, -, -, -, hnamed, hbytes⟩
    rcases hnamed with ⟨key', hkey', hat⟩
    rw [hkey] at hkey'
    cases hkey'
    rcases addBlob_cases (s := { s with file := { s.file with space } })
      h.orderly.saved hblob with
      ⟨_, _, _, _, _, _, hfile, hcount, hskipped, hversions⟩
    have hversion : isVersionOf host key nm = true := by
      unfold isVersionOf
      rw [heligible, hencodes, hkey]
      simp [Except.toOption]
    have hfew : (log.of key).length < o.maxVersions := by
      by_contra hmany
      have hfull := (htallies.isFull_iff hlimit key).mpr (Nat.not_lt.mp hmany)
      rw [hroom] at hfull
      cases hfull
    refine ⟨log ++ [(key, nm)],
      htallies.add hversion hfew hversions hcount hskipped, ?_⟩
    intro hsize
    have hkeys : s'.file.space.keys = space.keys := by
      rw [hfile]
    rw [hkeys] at hsize
    have hbefore : Holds { s with file := { s.file with space } } log :=
      (hholds (hgrow.length_le.trans hsize)).mono hgrow rfl
    rw [← hmethod]
    exact hbefore.addBlob h.orderly.saved hcoherent.distinct hsize hat hsound hbytes
      hblob

theorem tracks_of_foldlM (hclean : host.HasCleanNames)
    (hlimit : 1 ≤ o.maxVersions) {stats : Statistics}
    (h : methods.foldlM (addMethod host o (.capture host.settings))
      { file := { buildIdentity := host.buildIdentity }, stats } = .ok s) :
    Tracks host o methods s := by
  have hstart : Tracks host o []
      { file := { buildIdentity := host.buildIdentity }, stats } := by
    refine ⟨orderly_start host stats, [], Tallies.start host o _ stats, ?_⟩
    intro _
    exact ⟨[], .nil, Or.inl ⟨rfl, rfl⟩⟩
  rw [← List.nil_append methods]
  exact of_foldlM_concat (P := Tracks host o)
    (fun _ _ _ _ hs hstep => hs.addMethod hclean hlimit hstep) hstart h

end Saving

/-!
## Reading the versions of a key
-/

namespace Container

/-- The versions that are found for a key; none if there is no such method. -/
def chainOf (c : Container) (space : MetaSpace) (key : MetaKey) :
    Except Error (List Blob) := do
  match (← c.find space key).2 with
  | some head => c.code.chain head
  | none => return []

variable {c : Container} {space : MetaSpace} {adds : List Addition}
  {blocks : List Block} {log : Saving.Log}

theorem Records.chainOf_eq (h : c.Records adds blocks)
    (hall : List.Forall₂ (Addition.IsOf space.keys) log adds)
    (hdistinct : space.keys.Nodup) (hsize : space.keys.length ≤ 2 ^ 31)
    (key : MetaKey) :
    ∃ blobs, c.chainOf space key = .ok blobs ∧
      List.Forall₂ (fun nm b => b.IsOf nm) (log.of key) blobs := by
  have hnamed : ∀ a ∈ adds, ∃ k, space.keys[a.index.toNat]? = some k ∧
      a.name = k.name.display := by
    intro a ha
    rcases exists_of_mem_right hall ha with ⟨v, -, hv⟩
    exact ⟨v.1, hv.key_at.getElem?_eq (by omega), hv.name_eq⟩
  unfold chainOf
  rcases h.find_cases hnamed key with
    ⟨a, ha, hkey, head, hfind, blobs, hblobs, hyields⟩ | ⟨hno, hmissing⟩
  · rw [hfind]
    refine ⟨blobs, CodeSpace.chain_eq_ok_iff.mpr hblobs, ?_⟩
    rcases exists_of_mem_right hall ha with ⟨v, -, hv⟩
    have hv_key : v.1 = key := by
      have hat := hv.key_at.getElem?_eq (by omega)
      rw [hkey] at hat
      exact (Option.some_inj.mp hat).symm
    have hfilter : List.Forall₂ (Addition.IsOf space.keys)
        (log.filter fun w => w.1 == key) (Addition.toMethod a.index adds) := by
      apply List.rel_filter _ hall
      intro w b hb
      dsimp only
      rw [beq_iff_eq, beq_iff_eq, hb.index_eq_iff hv hdistinct hsize, hv_key]
    unfold Saving.Log.of
    rw [List.forall₂_map_left_iff]
    rw [List.forall₂_map_left_iff] at hyields
    apply forall₂_trans hfilter hyields
    rintro w b blob hw ⟨next, hblob⟩
    rw [hblob]
    exact hw.isOf_blob next blob.offset
  · have hnone : log.of key = [] := by
      unfold Saving.Log.of
      rw [List.map_eq_nil_iff, List.filter_eq_nil_iff]
      intro v hv hsame
      rcases exists_of_mem_left hall hv with ⟨a, ha, hva⟩
      apply hno a ha
      rw [hva.key_at.getElem?_eq (by omega), beq_iff_eq.mp hsame]
    rw [hnone]
    rcases hmissing with ⟨-, hfind⟩ | ⟨-, hfind⟩
    · rw [hfind]
      exact ⟨[], rfl, .nil⟩
    · rw [hfind]
      exact ⟨[], rfl, .nil⟩

end Container

namespace Cache

variable {host loader : Host} {files files' : FileTree}
  {methods : List CompiledMethod} {c c' : Cache} {report : SaveReport}
  {o : Options}

theorem selectContainer_of_orderly {done : Saving} (hdone : done.Orderly host)
    (hsome : 0 < done.report.versions)
    (hflags : host.settings.flags.length < 2 ^ 32) :
    ∃ container, done.file.containers = [container] ∧
      done.file.selectContainer host.settings = some 0 := by
  rcases hdone.saved.exists_stocked hsome with ⟨container, hone, hstocked⟩
  refine ⟨container, hone, ?_⟩
  unfold CacheFile.selectContainer
  rw [hone, List.findIdx?_cons, hstocked.fingerprint_eq,
    Fingerprint.accepts_capture hflags.le]
  rfl

/-- A process of the same build and settings that loads a saved file finds for
every key the first versions that may be saved and can be encoded, as many as are
kept, and the report counts what it finds. -/
theorem save_keeps_first_versions (hclean : host.HasCleanNames)
    (hidentity : NulFree host.buildIdentity)
    (hflags : host.settings.flags.length < 2 ^ 32)
    (hlimit : 1 ≤ c.options.maxVersions)
    (hsave : save host files methods c = .ok (report, files') c')
    (hsome : 0 < report.versions) (hsmall : report.bytes < 2 ^ 32)
    (hbuild : loader.buildIdentity = host.buildIdentity)
    (hsettings : loader.settings = host.settings)
    (hpath : o.file = c.options.file) (roll : Nat) :
    ∃ d file container, load loader files' (start o roll) = .ok () d ∧
      d.active? = some (file, container) ∧
      ∃ chain : MetaKey → List Blob,
        (∀ key, container.chainOf file.space key = .ok (chain key) ∧
          List.Forall₂ (fun nm b => b.IsOf nm)
            (Saving.kept host c.options.maxVersions methods key) (chain key)) ∧
        ∃ keys : List MetaKey, keys.Nodup ∧ (∀ key, key ∈ keys ↔ chain key ≠ []) ∧
          report.methods = keys.length ∧
          report.versions = (keys.map fun key => (chain key).length).sum ∧
          report.versions + report.skipped = methods.length := by
  rcases of_save hsave with
    ⟨path, hfile, ⟨-, rfl, -⟩ | ⟨-, done, bytes, hfold, hwrite, rfl⟩⟩
  · exact absurd hsome (Nat.lt_irrefl 0)
  rcases CacheFile.of_write hwrite with ⟨hat, rfl⟩
  have htracks := Saving.tracks_of_foldlM hclean hlimit hfold
  have hdone := htracks.orderly
  have houtput : outputPath o = .ok path := by
    unfold outputPath
    rw [hpath, hfile]
  have hkeys : done.file.space.keys.length ≤ 2 ^ 31 := by
    rw [CacheFile.length_encode] at hsmall
    have hlt := CacheFile.size_lt_of_small hsmall
    have hlength : done.file.space.keys.length = done.file.space.size :=
      List.length_map _
    omega
  rcases htracks.logged with ⟨log, htallies, hholds⟩
  rcases hholds hkeys with ⟨adds, hall, hcontainers⟩
  rcases selectContainer_of_orderly hdone hsome hflags with
    ⟨container, hone, hselect⟩
  rcases load_of_orderly hdone hidentity hat hsmall hsome hbuild houtput roll
    with ⟨d, file, hload, hd, hplace, hsame, hcopies⟩
  have hrecords : ∃ blocks, container.Records adds blocks := by
    rcases hcontainers with ⟨hnone, -⟩ | ⟨c₀, blocks, hone', hrecords⟩
    · rw [hnone] at hone
      cases hone
    · rw [hone] at hone'
      cases hone'
      exact ⟨blocks, hrecords⟩
  rcases hrecords with ⟨blocks, hrecords⟩
  rw [← hsame] at hall hkeys
  have hdistinct := hdone.tidy.distinct
  rw [← hsame] at hdistinct
  choose chain hchain hversions using
    hrecords.chainOf_eq hall hdistinct hkeys
  have hactive : d.active? = some (file, container) := by
    unfold CacheFile.selectContainer at hselect hplace
    rw [hcopies, hsettings, hselect] at hplace
    unfold active?
    rw [hd, hplace]
    change (file.containers[0]? >>= fun container => some (file, container)) = _
    rw [hcopies, hone]
    rfl
  have hlength : ∀ key, (log.of key).length = (chain key).length :=
    fun key => (hversions key).length_eq
  refine ⟨d, file, container, hload, hactive, chain, ?_,
    done.versions.map Prod.fst, htallies.distinct, ?_, ?_, ?_, htallies.total_eq⟩
  · intro key
    rw [← htallies.kept_eq key]
    exact ⟨hchain key, hversions key⟩
  · intro key
    rw [htallies.mem_keys_iff, ← List.length_pos_iff, ← List.length_pos_iff,
      hlength]
  · exact (List.length_map _).symm
  · simp only [← hlength]
    rw [htallies.sum_eq]
    exact htallies.versions_eq

/-!
Only one version of a method is kept, and code that is entered in a loop is none.
-/

namespace Sample

def single : Options :=
  { Options.forSave "a" with maxVersions := 1 }

end Sample

theorem save_keeps_first_versions_of_one :
    ∃ report files' c' d file container,
      save Sample.world.host {} [Sample.looping, Sample.plain, Sample.plain]
        (start Sample.single 0) = .ok (report, files') c' ∧
      load Sample.world.host files' (start (.forRestore "a") 0) = .ok () d ∧
      d.active? = some (file, container) ∧ report.skipped = 2 ∧
      ∃ key b, MetaKey.of Sample.world.host (.method Sample.plain.method) =
          .ok key ∧
        container.chainOf file.space key = .ok [b] ∧ b.IsOf Sample.plain := by
  have hdone : okWith (fun saved => decide (saved.1.skipped = 2 ∧
      saved.1.bytes < 2 ^ 32 ∧ 0 < saved.1.versions))
      (save Sample.world.host {} [Sample.looping, Sample.plain, Sample.plain]
        (start Sample.single 0)) = true := by
    decide +kernel
  have hkey : ∃ key, MetaKey.of Sample.world.host
      (.method Sample.plain.method) = .ok key ∧
      Saving.kept Sample.world.host 1
        [Sample.looping, Sample.plain, Sample.plain] key = [Sample.plain] :=
    ⟨_, rfl, by decide +kernel⟩
  rcases hkey with ⟨key, hkey, hkept⟩
  rcases of_okWith hdone with ⟨saved, c, hsave, hreport⟩
  rcases of_decide_eq_true hreport with ⟨hskipped, hsmall, hsome⟩
  rcases save_keeps_first_versions (o := .forRestore "a")
    (World.hasCleanNames Sample.world_regular) (by decide +kernel)
    (by decide) (by decide) hsave hsome hsmall rfl rfl rfl 0 with
    ⟨d, file, container, hload, hactive, chain, hchain, -⟩
  rcases hchain key with ⟨hfound, hall⟩
  change List.Forall₂ _ (Saving.kept _ 1 _ key) _ at hall
  rw [hkept] at hall
  cases hblobs : chain key with
  | nil =>
      rw [hblobs] at hall
      cases hall
  | cons b rest =>
      rw [hblobs] at hall hfound
      cases hall with
      | cons hb hrest =>
          cases hrest
          exact ⟨_, _, _, d, file, container, hsave, hload, hactive, hskipped,
            key, b, hkey, hfound, hb⟩

end Cache

end CodeCache
