import CodeCache.Proofs.Cache.Fates
import CodeCache.Proofs.Cache.SavedVersions

/-!
# Saves without what they skip

A save skips methods that it may not save, those whose key has as many versions
as are kept, and those that cannot be encoded. The first two leave no trace. A
method that cannot be encoded leaves the keys of what it named before it failed,
so that the file is the one that is written without it as long as the classes and
methods are named in the same order without it.
-/

namespace CodeCache

namespace Saving

/-!
## One method
-/

variable {host : Host} {o : Options} {fingerprint : Fingerprint}
  {before : List MetaKey} {nm : CompiledMethod} {methods : List CompiledMethod}
  {s s' t : Saving}

def Counts (before : List MetaKey) (s : Saving) : Prop :=
  ∀ key, s.versions.lookup key =
    if key ∈ before then some (before.count key) else none

theorem Counts.isFull_iff (h : Counts before s) (key : MetaKey) :
    s.isFull o key = true ↔ key ∈ before ∧ o.maxVersions ≤ before.count key := by
  unfold isFull
  rw [h key]
  split
  · rename_i hmem
    simp [hmem]
  · rename_i hmem
    simp [hmem]

theorem Counts.add (h : Counts before s) {key : MetaKey}
    (hversions : s'.versions =
      (key, s.versionsOf key + 1) :: s.versions.filter (·.1 != key)) :
    Counts (key :: before) s' := by
  intro other
  rw [hversions]
  by_cases hkey : other = key
  · have hcount : s.versionsOf key = before.count key := by
      unfold versionsOf
      rw [h key]
      split
      · rfl
      · rename_i hmem
        exact (List.count_eq_zero.mpr hmem).symm
    rw [hkey, List.lookup_cons_self, if_pos List.mem_cons_self, hcount,
      List.count_cons_self]
  · rw [Cache.lookup_replace hkey, h other, List.count_cons_of_ne (Ne.symm hkey)]
    simp only [List.mem_cons, hkey, false_or]

theorem addMethod_of_passedOver (hcounts : Counts before s)
    (h : fate host o.maxVersions before nm = .passedOver) :
    addMethod host o fingerprint s nm = .ok s.skip := by
  unfold addMethod
  cases heligible : isEligible host nm with
  | false => rfl
  | true =>
      rcases of_fate_passedOver h with hnot | ⟨e, hkey⟩ | ⟨key, hkey, hfull⟩
      · rw [heligible] at hnot
        cases hnot
      · rw [hkey]
        unfold MetaKey.of at hkey
        dsimp only at hkey
        split at hkey
        · cases hkey
          rfl
        · cases hkey
      · rw [hkey]
        dsimp only
        rw [(hcounts.isFull_iff key).mpr hfull]
        rfl

theorem addMethod_of_admits (hcounts : Counts before s) {key : MetaKey}
    (h : Admits host o.maxVersions before nm key) :
    addMethod host o fingerprint s nm =
      match nm.emit host s.file.space with
      | .error e space => skipAfter { s with file := { s.file with space } } e
      | .ok blob space =>
          addBlob fingerprint key blob
            { s with file := { s.file with space } } := by
  have hroom : s.isFull o key = false := by
    rw [← Bool.not_eq_true, hcounts.isFull_iff]
    exact h.room
  unfold addMethod CacheFile.inSpace
  rw [h.eligible, h.key_of]
  dsimp only
  rw [hroom]
  cases nm.emit host s.file.space <;> rfl

/-!
## Both saves side by side
-/

/-- Two saves that differ in what they skipped and in the keys they interned, and
in nothing else that is written. -/
structure Abreast (s t : Saving) : Prop where
  path_eq : t.file.path = s.file.path
  identity_eq : t.file.buildIdentity = s.file.buildIdentity
  containers_eq : t.file.containers = s.file.containers
  versions_eq : t.versions = s.versions
  report_eq : t.report = { s.report with skipped := 0 }

theorem Abreast.skip (h : Abreast s t) : Abreast s.skip t := by
  constructor
  · exact h.path_eq
  · exact h.identity_eq
  · exact h.containers_eq
  · exact h.versions_eq
  · exact h.report_eq

theorem Abreast.inSpaces (h : Abreast s t) (space space' : MetaSpace) :
    Abreast { s with file := { s.file with space } }
      { t with file := { t.file with space := space' } } := by
  constructor
  · exact h.path_eq
  · exact h.identity_eq
  · exact h.containers_eq
  · exact h.versions_eq
  · exact h.report_eq

theorem Abreast.addBlob (h : Abreast s t) {key : MetaKey} {blob : EmittedBlob}
    (hname : t.file.space.name blob.methodIndex =
      s.file.space.name blob.methodIndex)
    (hadd : addBlob fingerprint key blob s = .ok s') :
    ∃ t', addBlob fingerprint key blob t = .ok t' ∧ Abreast s' t' := by
  have hfor : ∃ containers place,
      s.file.containerFor fingerprint = ({ s.file with containers }, place) ∧
      t.file.containerFor fingerprint = ({ t.file with containers }, place) := by
    unfold CacheFile.containerFor
    rw [h.containers_eq]
    cases s.file.containers.findIdx? fun c =>
        c.fingerprint.identical fingerprint with
    | none => exact ⟨_, _, rfl, rfl⟩
    | some i =>
        refine ⟨s.file.containers, i, rfl, ?_⟩
        rw [← h.containers_eq]
  rcases hfor with ⟨containers, place, hs, ht⟩
  have hcount : t.versionsOf key = s.versionsOf key := by
    unfold versionsOf
    rw [h.versions_eq]
  unfold Saving.addBlob at hadd ⊢
  rw [hs] at hadd
  rw [ht]
  dsimp only at hadd ⊢
  rcases of_bind_eq_ok hadd with ⟨⟨file, offset⟩, hversion, hdone⟩
  rcases CacheFile.addVersion_eq_ok_iff.mp hversion with
    ⟨c, c', hplace, hcontainer, rfl⟩
  cases hdone
  have htwin := (CacheFile.addVersion_eq_ok_iff
    (f := { t.file with containers })).mpr ⟨c, c', hplace, hcontainer, rfl⟩
  rw [hname, hcount, h.versions_eq, htwin]
  refine ⟨_, rfl, h.path_eq, h.identity_eq, rfl, rfl, ?_⟩
  dsimp only
  rw [h.report_eq]

structure Behind (host : Host) (before : List MetaKey) (s : Saving) : Prop where
  counts : Counts before s
  coherent : s.file.space.Coherent host

theorem behind_start (host : Host) (stats : Statistics) :
    Behind host []
      { file := { buildIdentity := host.buildIdentity }, stats := stats } :=
  ⟨fun _ => rfl, MetaSpace.coherent_empty host⟩

theorem of_addBlob {key : MetaKey} {blob : EmittedBlob}
    (h : addBlob fingerprint key blob s = .ok s') :
    s'.file.space = s.file.space ∧
      s'.versions =
        (key, s.versionsOf key + 1) :: s.versions.filter (·.1 != key) ∧
      s'.report.skipped = s.report.skipped := by
  have hfor : (s.file.containerFor fingerprint).1.space = s.file.space := by
    unfold CacheFile.containerFor
    split <;> rfl
  unfold addBlob at h
  dsimp only at h
  rcases of_bind_eq_ok h with ⟨⟨file, offset⟩, hversion, hdone⟩
  cases hdone
  refine ⟨?_, rfl, rfl⟩
  rcases CacheFile.addVersion_eq_ok_iff.mp hversion with ⟨c, c', -, -, rfl⟩
  exact hfor

namespace Behind

theorem skip (hs : Behind host before s) : Behind host before s.skip :=
  ⟨hs.counts, hs.coherent⟩

theorem addMethod_unencodable (hs : Behind host before s)
    (hfate : fate host o.maxVersions before nm = .unencodable)
    (h : addMethod host o fingerprint s nm = .ok s') :
    Behind host before s' ∧
      s'.file.space.keys =
        MetaKey.addAllTo s.file.space.keys (nm.namedKeys host) ∧
      s'.report.skipped = s.report.skipped + 1 ∧
      ∀ t, Abreast s t → Abreast s' t := by
  rcases of_fate_unencodable hfate with ⟨⟨key, hadmits⟩, hnot⟩
  rcases CompiledMethod.emit_eq_error hnot hs.coherent with
    ⟨e, space, hemit, hcoherent, hkeys⟩
  rw [addMethod_of_admits hs.counts hadmits, hemit] at h
  rw [eq_of_skipAfter h]
  refine ⟨⟨hs.counts, hcoherent⟩, hkeys, rfl, ?_⟩
  intro t ht
  exact (ht.inSpaces space t.file.space).skip

theorem addMethod_saved (hs : Behind host before s) {key : MetaKey}
    (hfate : fate host o.maxVersions before nm = .saved key)
    (h : addMethod host o fingerprint s nm = .ok s') :
    Behind host (key :: before) s' ∧
      s'.file.space.keys =
        MetaKey.addAllTo s.file.space.keys (nm.namedKeys host) ∧
      s'.report.skipped = s.report.skipped := by
  rcases of_fate_saved hfate with ⟨hadmits, hencodable⟩
  rcases CompiledMethod.emit_eq_ok hencodable hs.coherent with
    ⟨blob, space, hemit, hcoherent, hkeys⟩
  rw [addMethod_of_admits hs.counts hadmits, hemit] at h
  rcases of_addBlob h with ⟨hspace, hversions, hskipped⟩
  refine ⟨⟨?_, ?_⟩, ?_, hskipped⟩
  · exact Counts.add (s := { s with file := { s.file with space } }) hs.counts
      hversions
  · rw [hspace]
    exact hcoherent
  · rw [hspace]
    exact hkeys

theorem addMethod_abreast (hs : Behind host before s) {key : MetaKey}
    (hfate : fate host o.maxVersions before nm = .saved key)
    (h : addMethod host o fingerprint s nm = .ok s') (ht : Behind host before t)
    (habreast : Abreast s t) {final : List MetaKey} (hdistinct : final.Nodup)
    (hend : MetaKey.addAllTo s.file.space.keys (nm.namedKeys host) <+: final)
    (hend' : MetaKey.addAllTo t.file.space.keys (nm.namedKeys host) <+: final) :
    ∃ t', addMethod host o fingerprint t nm = .ok t' ∧ Abreast s' t' := by
  rcases of_fate_saved hfate with ⟨hadmits, hencodable⟩
  rcases CompiledMethod.emit_eq_ok hencodable hs.coherent with
    ⟨blob, space, hemit, hcoherent, hkeys⟩
  rcases CompiledMethod.emit_eq_ok hencodable ht.coherent with
    ⟨blob', space', hemit', hcoherent', hkeys'⟩
  rw [← hkeys] at hend
  rw [← hkeys'] at hend'
  rcases CompiledMethod.emit_same hs.coherent ht.coherent hemit hemit' hdistinct
    hend hend' with ⟨rfl, hname⟩
  rw [addMethod_of_admits hs.counts hadmits, hemit] at h
  rw [addMethod_of_admits ht.counts hadmits, hemit']
  exact (habreast.inSpaces space space').addBlob hname h

end Behind

theorem keys_of_foldlM {done : Saving} (hs : Behind host before s)
    (h : methods.foldlM (addMethod host o fingerprint) s = .ok done) :
    done.file.space.keys = namedBy host s.file.space.keys
      (emittedFrom host o.maxVersions before methods) := by
  induction methods generalizing before s with
  | nil =>
      cases h
      rfl
  | cons nm methods ih =>
      rw [List.foldlM_cons] at h
      rcases of_bind_eq_ok h with ⟨s', hadd, hrest⟩
      rw [emittedFrom]
      cases hfate : fate host o.maxVersions before nm with
      | passedOver =>
          rw [addMethod_of_passedOver hs.counts hfate] at hadd
          cases hadd
          have hkeys := ih hs.skip hrest
          exact hkeys
      | unencodable =>
          rcases hs.addMethod_unencodable hfate hadd with ⟨hs', hkeys, -, -⟩
          rw [ih hs' hrest, hkeys]
          rfl
      | saved key =>
          rcases hs.addMethod_saved hfate hadd with ⟨hs', hkeys, -⟩
          rw [ih hs' hrest, hkeys]
          rfl

theorem skipped_of_foldlM {done : Saving} (hs : Behind host before s)
    (h : methods.foldlM (addMethod host o fingerprint) s = .ok done) :
    done.report.skipped +
        (survivorsFrom host o.maxVersions before methods).length =
      s.report.skipped + methods.length := by
  induction methods generalizing before s with
  | nil =>
      cases h
      rfl
  | cons nm methods ih =>
      rw [List.foldlM_cons] at h
      rcases of_bind_eq_ok h with ⟨s', hadd, hrest⟩
      rw [survivorsFrom, List.length_cons]
      cases hfate : fate host o.maxVersions before nm with
      | passedOver =>
          rw [addMethod_of_passedOver hs.counts hfate] at hadd
          cases hadd
          have hcount := ih hs.skip hrest
          change _ = s.report.skipped + 1 + methods.length at hcount
          dsimp only
          omega
      | unencodable =>
          rcases hs.addMethod_unencodable hfate hadd with ⟨hs', -, hskipped, -⟩
          have hcount := ih hs' hrest
          dsimp only
          omega
      | saved key =>
          rcases hs.addMethod_saved hfate hadd with ⟨hs', -, hskipped⟩
          have hcount := ih hs' hrest
          dsimp only
          rw [List.length_cons]
          omega

theorem foldlM_survivors {done : Saving} (hs : Behind host before s)
    (ht : Behind host before t) (habreast : Abreast s t)
    (h : methods.foldlM (addMethod host o fingerprint) s = .ok done)
    (hsame : namedBy host t.file.space.keys
        (survivorsFrom host o.maxVersions before methods) =
      namedBy host s.file.space.keys
        (emittedFrom host o.maxVersions before methods)) :
    ∃ done', (survivorsFrom host o.maxVersions before methods).foldlM
        (addMethod host o fingerprint) t = .ok done' ∧ Abreast done done' := by
  induction methods generalizing before s t with
  | nil =>
      cases h
      exact ⟨t, rfl, habreast⟩
  | cons nm methods ih =>
      rw [List.foldlM_cons] at h
      rcases of_bind_eq_ok h with ⟨s', hadd, hrest⟩
      rw [survivorsFrom, emittedFrom] at hsame
      rw [survivorsFrom]
      cases hfate : fate host o.maxVersions before nm with
      | passedOver =>
          rw [hfate] at hsame
          rw [addMethod_of_passedOver hs.counts hfate] at hadd
          cases hadd
          exact ih hs.skip ht habreast.skip hrest hsame
      | unencodable =>
          rw [hfate] at hsame
          rcases hs.addMethod_unencodable hfate hadd with ⟨hs', hkeys, -, hskip⟩
          refine ih hs' ht (hskip t habreast) hrest ?_
          rw [hkeys]
          exact hsame
      | saved key =>
          rw [hfate] at hsame
          dsimp only at hsame ⊢
          rcases hs.addMethod_saved hfate hadd with ⟨hs', hkeys, -⟩
          have hend := prefix_namedBy host
            (MetaKey.addAllTo s.file.space.keys (nm.namedKeys host))
            (emittedFrom host o.maxVersions (key :: before) methods)
          have hend' := prefix_namedBy host
            (MetaKey.addAllTo t.file.space.keys (nm.namedKeys host))
            (survivorsFrom host o.maxVersions (key :: before) methods)
          have hdistinct := nodup_namedBy host hs'.coherent.distinct
            (emittedFrom host o.maxVersions (key :: before) methods)
          rw [hkeys] at hdistinct
          rw [show namedBy host (MetaKey.addAllTo t.file.space.keys _) _ = _
            from hsame] at hend'
          rcases hs.addMethod_abreast hfate hadd ht habreast hdistinct hend hend'
            with ⟨t', hadd', habreast'⟩
          rcases ht.addMethod_saved hfate hadd' with ⟨ht', hkeys', -⟩
          rw [List.foldlM_cons, hadd']
          apply ih hs' ht' habreast' hrest
          rw [hkeys, hkeys']
          exact hsame

end Saving

/-!
## Whole saves
-/

theorem CacheFile.write_congr {f g : CacheFile}
    (hidentity : g.buildIdentity = f.buildIdentity)
    (hcontainers : g.containers = f.containers)
    (hkeys : g.space.keys = f.space.keys) (files : FileTree) (path : String)
    (limit : Nat) :
    g.write files path limit = f.write files path limit := by
  have hspace := MetaSpace.encode_congr hkeys
  have hsize : g.encodedSize = f.encodedSize := by
    unfold encodedSize
    rw [hidentity, hcontainers, hspace]
  have hencode : g.encode = f.encode := by
    unfold encode
    rw [hidentity, hcontainers, hspace]
  unfold write
  rw [hsize, hencode]

namespace Cache

variable {host : Host} {files files' : FileTree}
  {methods others : List CompiledMethod} {c c' : Cache} {report : SaveReport}

theorem save_enabled (h : save host files methods c = .ok (report, files') c') :
    c.options.save = true := by
  unfold save at h
  rw [run_get_bind] at h
  cases hsave : c.options.save with
  | true => rfl
  | false =>
      rw [hsave] at h
      cases h

section

variable {path : String} (hsave : c.options.save = true)
  (hpath : c.options.file = some path)
include hsave hpath

theorem save_unsampled (hsampled : c.isSampled = false) :
    save host files methods c = .ok ({}, files) c := by
  have houtput : outputPath c.options = .ok path := by
    unfold outputPath
    rw [hpath]
  unfold save
  rw [run_get_bind, if_neg (by simp [hsave])]
  dsimp only
  rw [run_ofExcept_bind houtput, hsampled]
  rfl

theorem save_eq_ok (hsampled : c.isSampled = true) {done : Saving} {bytes : Nat}
    (hfold : methods.foldlM (Saving.addMethod host c.options
        (.capture host.settings))
      { file := { buildIdentity := host.buildIdentity }, stats := c.stats } =
        .ok done)
    (hwrite : done.file.write files path c.options.maxFileSize =
      .ok (files', bytes)) :
    ∃ c', save host files methods c = .ok
      ({ done.report with methods := done.versions.length, bytes }, files')
      c' := by
  have houtput : outputPath c.options = .ok path := by
    unfold outputPath
    rw [hpath]
  unfold save
  rw [run_get_bind, if_neg (by simp [hsave])]
  dsimp only
  rw [run_ofExcept_bind houtput, if_neg (by simp [hsampled]),
    run_ofExcept_bind hfold, run_modify_bind, run_ofExcept_bind hwrite]
  exact ⟨_, rfl⟩

end

/-- Without what it skips, a save does the same, if the classes and methods are
named in the same order. -/
theorem save_survivors
    (hsave : save host files methods c = .ok (report, files') c')
    (hsame : Saving.namedBy host []
        (Saving.emitted host c.options.maxVersions methods) =
      Saving.namedBy host []
        (Saving.survivors host c.options.maxVersions methods)) :
    ∃ c'', save host files
        (Saving.survivors host c.options.maxVersions methods) c =
      .ok ({ report with skipped := 0 }, files') c'' := by
  have henabled := save_enabled hsave
  rcases of_save hsave with ⟨path, hpath, ⟨hnot, rfl, rfl⟩ |
    ⟨hsampled, done, bytes, hfold, hwrite, rfl⟩⟩
  · exact ⟨c, save_unsampled henabled hpath hnot⟩
  · have hstart := Saving.behind_start host c.stats
    rcases Saving.foldlM_survivors hstart hstart ⟨rfl, rfl, rfl, rfl, rfl⟩ hfold
      hsame.symm with ⟨done', hfold', habreast⟩
    have hkeys : done'.file.space.keys = done.file.space.keys := by
      rw [Saving.keys_of_foldlM hstart hfold, Saving.keys_of_foldlM hstart hfold',
        Saving.emittedFrom_survivorsFrom]
      exact hsame.symm
    rw [← CacheFile.write_congr habreast.identity_eq habreast.containers_eq
      hkeys] at hwrite
    rcases save_eq_ok henabled hpath hsampled hfold' hwrite with ⟨c'', hdone⟩
    rw [habreast.report_eq, habreast.versions_eq] at hdone
    exact ⟨c'', hdone⟩

theorem save_survivors_of_encodable
    (hall : ∀ nm ∈ methods, nm.isEncodable host = true)
    (hsave : save host files methods c = .ok (report, files') c') :
    ∃ c'', save host files
        (Saving.survivors host c.options.maxVersions methods) c =
      .ok ({ report with skipped := 0 }, files') c'' := by
  apply save_survivors hsave
  unfold Saving.emitted
  rw [Saving.emittedFrom_of_encodable hall]
  rfl

theorem namedBy_of_save_eq (hclean : host.HasCleanNames)
    (hidentity : NulFree host.buildIdentity) (hsampled : c.isSampled = true)
    (hsave : save host files methods c = .ok (report, files') c')
    (hsmall : report.bytes < 2 ^ 32) {report' : SaveReport} {c'' : Cache}
    (hsave' : save host files others c = .ok (report', files') c'') :
    Saving.namedBy host [] (Saving.emitted host c.options.maxVersions methods) =
      Saving.namedBy host []
        (Saving.emitted host c.options.maxVersions others) := by
  rcases of_save hsave with ⟨path, hpath, ⟨hnot, -⟩ |
    ⟨-, done, bytes, hfold, hwrite, rfl⟩⟩
  · rw [hsampled] at hnot
    cases hnot
  rcases of_save hsave' with ⟨path', hpath', ⟨hnot, -⟩ |
    ⟨-, done', bytes', hfold', hwrite', rfl⟩⟩
  · rw [hsampled] at hnot
    cases hnot
  rw [hpath] at hpath'
  cases hpath'
  rcases CacheFile.of_write hwrite with ⟨hat, rfl⟩
  rcases CacheFile.of_write hwrite' with ⟨hat', -⟩
  have hencode : done'.file.encode = done.file.encode := by
    rw [hat] at hat'
    exact (FileNode.file.inj (Option.some.inj hat')).symm
  have hdone : done.Orderly host :=
    of_foldlM_eq_ok (fun _ _ _ _ hs hstep => hs.addMethod hclean hstep)
      (Saving.orderly_start host c.stats) hfold
  have hdone' : done'.Orderly host :=
    of_foldlM_eq_ok (fun _ _ _ _ hs hstep => hs.addMethod hclean hstep)
      (Saving.orderly_start host c.stats) hfold'
  have hkeys := CacheFile.keys_of_encode_eq hencode
    (hdone'.identity_eq.trans hdone.identity_eq.symm)
    (hdone.identity_eq ▸ hidentity) hdone.tidy.clean hdone'.tidy.clean
    hdone.tidy.distinct hdone'.tidy.distinct
    (CacheFile.length_encode done.file ▸ hsmall)
  have hstart := Saving.behind_start host c.stats
  rw [Saving.keys_of_foldlM hstart hfold,
    Saving.keys_of_foldlM hstart hfold'] at hkeys
  exact hkeys.symm

/-- Without the methods that it skips, a save writes the same and reports the same
of what it wrote, if the classes and methods are named in the same order without
those that cannot be encoded. Only then are files below four gigabytes the
same. -/
theorem save_without_skipped
    (hsave : save host files methods c = .ok (report, files') c') :
    (Saving.survivors host c.options.maxVersions methods).Sublist methods ∧
    (c.isSampled = true → report.skipped +
      (Saving.survivors host c.options.maxVersions methods).length =
        methods.length) ∧
    (Saving.namedBy host []
        (Saving.emitted host c.options.maxVersions methods) =
      Saving.namedBy host []
        (Saving.survivors host c.options.maxVersions methods) →
      ∃ c'', save host files
          (Saving.survivors host c.options.maxVersions methods) c =
        .ok ({ report with skipped := 0 }, files') c'') ∧
    (c.isSampled = true → host.HasCleanNames → NulFree host.buildIdentity →
      report.bytes < 2 ^ 32 → ∀ report' c'',
      save host files (Saving.survivors host c.options.maxVersions methods) c =
        .ok (report', files') c'' →
      Saving.namedBy host []
          (Saving.emitted host c.options.maxVersions methods) =
        Saving.namedBy host []
          (Saving.survivors host c.options.maxVersions methods)) := by
  refine ⟨Saving.survivorsFrom_sublist _ _ _ _, ?_, save_survivors hsave, ?_⟩
  · intro hsampled
    rcases of_save hsave with ⟨_, _, ⟨hnot, -⟩ |
      ⟨-, done, _, hfold, -, rfl⟩⟩
    · rw [hsampled] at hnot
      cases hnot
    · have hcount := Saving.skipped_of_foldlM
        (Saving.behind_start host c.stats) hfold
      rw [Nat.zero_add] at hcount
      exact hcount
  · intro hsampled hclean hidentity hsmall report' c'' hsave'
    rw [namedBy_of_save_eq hclean hidentity hsampled hsave hsmall hsave']
    unfold Saving.emitted Saving.survivors
    rw [Saving.emittedFrom_survivorsFrom]

/-!
A method with an object that has no name cannot be encoded. The key of the method
stays behind; it changes the file unless the methods that are saved need it too.
-/

namespace Sample

def wider : World :=
  (world.defineMethod ⟨0⟩ "g" "()V").1

def other : CompiledMethod :=
  Assembler.nops (Assembler.start wider.host ⟨1⟩) 8

def unnameable (nm : CompiledMethod) : CompiledMethod :=
  { nm with oops := [some (.unnamed 77)] }

end Sample

theorem save_without_unnameable_version :
    ∃ report files' c' c'',
      save Sample.wider.host {} [Sample.other, Sample.unnameable Sample.other]
        (start (.forSave "a") 0) = .ok (report, files') c' ∧
      report.skipped = 1 ∧
      save Sample.wider.host {} [Sample.other] (start (.forSave "a") 0) =
        .ok ({ report with skipped := 0 }, files') c'' := by
  have hdone : okWith (fun saved => decide (saved.1.skipped = 1))
      (save Sample.wider.host {}
        [Sample.other, Sample.unnameable Sample.other]
        (start (.forSave "a") 0)) = true := by
    decide +kernel
  have hsurvivors : Saving.survivors Sample.wider.host
      (Options.forSave "a").maxVersions
      [Sample.other, Sample.unnameable Sample.other] = [Sample.other] := by
    decide +kernel
  rcases of_okWith hdone with ⟨saved, c, hsave, hskipped⟩
  rcases (save_without_skipped hsave).2.2.1 (by decide +kernel) with
    ⟨c'', hsame⟩
  change save _ _ (Saving.survivors _ (Options.forSave "a").maxVersions _) _ = _
    at hsame
  rw [hsurvivors] at hsame
  exact ⟨_, _, _, c'', hsave, of_decide_eq_true hskipped, hsame⟩

theorem save_differs_without_unnameable :
    ∃ report report' files₁ files₂ c₁ c₂,
      save Sample.wider.host {} [Sample.unnameable Sample.other, Sample.plain]
        (start (.forSave "a") 0) = .ok (report, files₁) c₁ ∧
      report.skipped = 1 ∧
      Saving.survivors Sample.wider.host (Options.forSave "a").maxVersions
        [Sample.unnameable Sample.other, Sample.plain] = [Sample.plain] ∧
      save Sample.wider.host {} [Sample.plain] (start (.forSave "a") 0) =
        .ok (report', files₂) c₂ ∧
      files₁.at? "a" ≠ files₂.at? "a" := by
  have hdone : okWith (fun saved => decide (saved.1.skipped = 1) &&
      okWith (fun alone => decide (saved.2.at? "a" ≠ alone.2.at? "a"))
        (save Sample.wider.host {} [Sample.plain] (start (.forSave "a") 0)))
      (save Sample.wider.host {}
        [Sample.unnameable Sample.other, Sample.plain]
        (start (.forSave "a") 0)) = true := by
    decide +kernel
  rcases of_okWith hdone with ⟨saved, c₁, hsave, hreport⟩
  rcases Bool.and_eq_true_iff.mp hreport with ⟨hskipped, halone⟩
  rcases of_okWith halone with ⟨alone, c₂, hsave', hdiffers⟩
  exact ⟨_, _, _, _, _, _, hsave, of_decide_eq_true hskipped,
    by decide +kernel, hsave', of_decide_eq_true hdiffers⟩

end Cache

end CodeCache
