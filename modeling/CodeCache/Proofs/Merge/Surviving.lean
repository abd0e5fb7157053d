import CodeCache.Proofs.Merge.Output
import CodeCache.Proofs.Merge.Rewriting
import CodeCache.Proofs.Merge.Skipping
import CodeCache.Proofs.Store.Interleaving

/-!
# Merges that do not fail

Every blob that is kept was counted before it is copied. Where counted blobs can
be copied, no step of a merge reports corruption, whatever else stands in the
inputs.
-/

namespace CodeCache

/-- Work that answers something with the property, or fails for another reason
than malformed contents. -/
def Tolerates {α : Type} (result : Except Error α) (P : α → Prop) : Prop :=
  match result with
  | .ok a => P a
  | .error e => ∀ fault, e ≠ .corruption fault

namespace Tolerates

variable {α β : Type} {result : Except Error α} {P Q : α → Prop}

theorem of_bind {next : α → Except Error β} {R : β → Prop}
    (h : Tolerates result P) (hnext : ∀ a, P a → Tolerates (next a) R) :
    Tolerates (result >>= next) R := by
  cases result with
  | ok a => exact hnext a h
  | error e => exact h

theorem of_ok (h : Tolerates result P) (hQ : ∀ a, result = .ok a → Q a) :
    Tolerates result Q := by
  cases result with
  | ok a => exact hQ a rfl
  | error e => exact h

theorem ne_corruption (h : Tolerates result P) (fault : Corruption) :
    result ≠ .error (.corruption fault) := by
  rintro rfl
  exact h fault rfl

end Tolerates

theorem CodeSpace.append_tolerates (space : CodeSpace) (blob : Bytes) :
    Tolerates (space.append blob) (fun _ => True) := by
  unfold append
  dsimp only
  split
  · intro fault h
    cases h
  · trivial

theorem Container.Records.addVersion_tolerates {c : Container}
    {adds : List Addition} {blocks : List Block} (h : c.Records adds blocks)
    {a : Addition} (hindex : a.index.toNat < 2 ^ 31)
    (hname : ∀ b ∈ adds, b.index = a.index → b.name = a.name)
    (hbuckets : c.table.bucketCount ≤ 10 ^ 8) (blob : Bytes) :
    Tolerates (c.addVersion a.index a.name blob) (fun _ => True) := by
  have hadd : ∀ {table : LookupTable} {place : Nat} {tail : Option UInt32},
      c.table.insert a.index a.name = .ok (table, place) →
      (table.codeOffset? place).mapM c.code.lastVersion = .ok tail →
      Tolerates (c.addVersion a.index a.name blob) (fun _ => True) := by
    intro table place tail hinsert htail
    unfold Container.addVersion CodeSpace.appendVersion
    rw [hinsert]
    change Tolerates (((table.codeOffset? place).mapM c.code.lastVersion >>= _) >>= _) _
    rw [htail]
    apply Tolerates.of_bind (P := fun _ => True)
    · apply (c.code.append_tolerates blob).of_bind
      intro appended _
      cases tail <;> trivial
    · intro appended _
      trivial
  by_cases hold : ∃ d ∈ adds, d.index = a.index
  · rcases hold with ⟨d, hd, hsame⟩
    rcases h.leads d hd with ⟨place, first, hhas, hhead, hchain⟩
    rw [hsame, hname d hd hsame] at hhas
    rcases List.eq_nil_or_concat' (Addition.numbers d.index adds) with
      hnil | ⟨front, t, hnumbers⟩
    · exact absurd hnil (Addition.numbers_ne_nil hd)
    · rw [hnumbers] at hchain
      have htail : (c.table.codeOffset? place).mapM c.code.lastVersion =
          .ok (some (UInt32.ofNat (Block.start blocks t))) := by
        rw [hhead]
        change (c.code.lastVersion _ >>= fun a => pure (some a)) = _
        rw [h.consists.lastVersion_eq hchain]
        rfl
      exact hadd (h.tidy.insert_has hhas hindex) htail
  · have hnew : ∀ b ∈ adds, b.index ≠ a.index :=
      fun b hb hsame => hold ⟨b, hb, hsame⟩
    have habsent := LookupTable.absent_of_listed h.listed hindex hnew
    rcases h.tidy.insert_gains hindex habsent (h.room hbuckets) with
      ⟨table, place, hinsert, hnone, -⟩
    apply @hadd _ _ none hinsert
    rw [hnone]
    rfl

namespace Merge

variable {inputs : List Input} {o : Options} {c c' : Container}
  {merged merged' : MetaSpace} {adds : List Addition} {blocks : List Block}

/-!
## Filling containers
-/

theorem keys_of_copyBlob {P : MetaKey → Prop} {space : MetaSpace} {b : Blob}
    {index : UInt32} {bytes : Bytes} (hspace : ∀ key ∈ space.keys, P key)
    (hmerged : merged.KeyedBy P)
    (h : copyBlob space index b merged = .ok (bytes, merged')) :
    merged'.KeyedBy P ∧ merged.keys <+: merged'.keys := by
  unfold copyBlob at h
  rcases of_bind_eq_ok h with ⟨indices, _, h₁⟩
  rcases of_bind_eq_ok h₁ with ⟨⟨map, grown⟩, hreindex, h₂⟩
  rcases of_bind_eq_ok h₂ with ⟨copied, _, hdone⟩
  cases hdone
  rcases of_reindex hspace hmerged hreindex with ⟨hkeyed, hkeys, -⟩
  exact ⟨hkeyed, hkeys⟩

def Copies (inputs : List Input) (place : BlobPlace) : Prop :=
  ∃ b space, blobAt inputs place = .ok (b, space) ∧
    ∀ index merged, ∃ bytes merged',
      copyBlob space index b merged = .ok (bytes, merged')

structure Filling (inputs : List Input) (c : Container) (merged : MetaSpace)
    (adds : List Addition) (blocks : List Block) : Prop where
  records : c.Records adds blocks
  named : ∀ a ∈ adds, ∃ key, KeyAt merged.keys a.index key ∧
    a.name = key.name.display
  keyed : merged.KeyedBy (HasKey inputs)
  buckets : c.table.bucketCount ≤ 10 ^ 8

namespace Filling

theorem mono (h : Filling inputs c merged adds blocks)
    (hkeyed : merged'.KeyedBy (HasKey inputs))
    (hkeys : merged.keys <+: merged'.keys) :
    Filling inputs c merged' adds blocks := by
  constructor
  · exact h.records
  · intro a ha
    rcases h.named a ha with ⟨key, hat, hname⟩
    exact ⟨key, hat.mono hkeys, hname⟩
  · exact hkeyed
  · exact h.buckets

section

variable (hsize : Numberable inputs)

include hsize

theorem name_eq (h : Filling inputs c merged adds blocks) {index : UInt32}
    {key : MetaKey} (hat : KeyAt merged.keys index key) :
    ∀ a ∈ adds, a.index = index → a.name = key.name.display := by
  intro a ha hsame
  rcases h.named a ha with ⟨key', hat', hname⟩
  have hlt := hsize.keys_lt h.keyed
  have hkey := hat.getElem?_eq (by omega)
  have hkey' := hat'.getElem?_eq (by omega)
  rw [hsame, hkey, Option.some_inj] at hkey'
  rw [hname, hkey']

theorem index_lt (h : Filling inputs c merged adds blocks) {index : UInt32}
    {key : MetaKey} (hat : KeyAt merged.keys index key) :
    index.toNat < 2 ^ 31 := by
  have hlt := hsize.keys_lt h.keyed
  have hkey := hat.getElem?_eq (by omega)
  exact Nat.lt_trans (List.getElem?_eq_some_iff.mp hkey).1 hlt

theorem addCopy (h : Filling inputs c merged adds blocks) {index : UInt32}
    {key : MetaKey} (hat : KeyAt merged.keys index key) {image : Blob.Image}
    (himage : image.Sound) :
    Tolerates (c.addVersion index key.name.display (image.bytes (-1)))
      (fun added => ∃ adds' blocks', Filling inputs added.1 merged adds' blocks') := by
  have hindex := h.index_lt hsize hat
  have hname := h.name_eq hsize hat
  apply (@Container.Records.addVersion_tolerates _ _ _ h.records
    ⟨index, key.name.display, image⟩ hindex hname h.buckets _).of_ok
  rintro ⟨c', offset⟩ hadd
  rcases @Container.Records.addVersion _ _ _ _ h.records
    ⟨index, key.name.display, image⟩ offset hindex hname h.buckets himage hadd
    with ⟨blocks', hrecords⟩
  refine ⟨_, blocks', hrecords, ?_, h.keyed, ?_⟩
  · intro a ha
    rcases List.mem_append.mp ha with hold | hnew
    · exact h.named a hold
    · rw [List.mem_singleton.mp hnew]
      exact ⟨key, hat, rfl⟩
  · rw [Container.bucketCount_of_addVersion hadd]
    exact h.buckets

theorem addCopies (h : Filling inputs c merged adds blocks) {index : UInt32}
    {key : MetaKey} (hat : KeyAt merged.keys index key) {places : List BlobPlace}
    (hplaces : ∀ p ∈ places, Copies inputs p) :
    Tolerates (copyVersions inputs index key.name.display (c, merged) places)
      (fun out => ∃ adds' blocks', Filling inputs out.1 out.2 adds' blocks') := by
  induction places generalizing c merged adds blocks with
  | nil => exact ⟨adds, blocks, h⟩
  | cons place places ih =>
      rcases hplaces place List.mem_cons_self with ⟨b, space, hblob, hcopies⟩
      rcases of_blobAt hblob with ⟨input, code, hinput, rfl, hcode⟩
      rcases hcopies index merged with ⟨bytes, grown, hcopy⟩
      rcases image_of_copyBlob hcode hcopy with ⟨image, himage, rfl⟩
      rcases keys_of_copyBlob (fun key hkey => ⟨input, hinput, hkey⟩) h.keyed hcopy
        with ⟨hkeyed, hkeys⟩
      have hat' := hat.mono hkeys
      unfold copyVersions
      rw [hblob]
      change Tolerates (copyBlob input.file.space index b merged >>= _) _
      rw [hcopy]
      apply ((h.mono hkeyed hkeys).addCopy hsize hat' himage).of_bind
      rintro ⟨added, offset⟩ ⟨adds', blocks', hadded⟩
      exact ih hadded hat' fun p hp => hplaces p (List.mem_cons_of_mem place hp)

theorem addMethods (h : Filling inputs c merged adds blocks) {ks : List Kept}
    (hks : ∀ k ∈ ks, HasKey inputs k.key ∧ ∀ p ∈ k.places, Copies inputs p) :
    Tolerates (copyMethods inputs (c, merged) ks)
      (fun out => out.2.KeyedBy (HasKey inputs)) := by
  induction ks generalizing c merged adds blocks with
  | nil => exact h.keyed
  | cons k ks ih =>
      rcases hks k List.mem_cons_self with ⟨hkey, hplaces⟩
      have hinterned := h.mono (h.keyed.internKey hkey)
        (MetaSpace.keys_prefix_internKey merged k.key)
      unfold copyMethods
      apply (hinterned.addCopies hsize (MetaSpace.keyAt_internKey merged k.key)
        hplaces).of_bind
      rintro ⟨copied, grown⟩ ⟨adds', blocks', hcopied⟩
      exact ih hcopied fun k' hk' => hks k' (List.mem_cons_of_mem k hk')

end

end Filling

/-!
## The whole output
-/

structure Fillable (inputs : List Input) (ks : List Kept) : Prop where
  copies : ∀ k ∈ ks, HasKey inputs k.key ∧ ∀ p ∈ k.places, Copies inputs p
  few : ks.length ≤ 10 ^ 8

theorem copyGroups_tolerates (hsize : Numberable inputs)
    {gs : List (Group × List Kept)} (hgs : ∀ g ∈ gs, Fillable inputs g.2)
    (hmerged : merged.KeyedBy (HasKey inputs)) :
    Tolerates (copyGroups inputs merged gs) (fun _ => True) := by
  induction gs generalizing merged with
  | nil => trivial
  | cons g gs ih =>
      rcases g with ⟨g, ks⟩
      have hks := hgs _ List.mem_cons_self
      have hbuckets : max ks.length LookupTable.minBuckets ≤ 10 ^ 8 :=
        Nat.max_le.mpr ⟨hks.few, by decide⟩
      have hfilling : Filling inputs (.sized g.fingerprint ks.length) merged [] [] := by
        constructor
        · apply Container.Records.of_sized
          unfold LookupTable.headerSize TableEntry.byteSize
          omega
        · intro a ha
          cases ha
        · exact hmerged
        · exact hbuckets
      unfold copyGroups
      apply (hfilling.addMethods hsize hks.copies).of_bind
      rintro ⟨container, grown⟩ hkeyed
      apply (ih (fun g hg => hgs g (List.mem_cons_of_mem _ hg)) hkeyed).of_bind
      intro rest _
      trivial

def VersionOf (inputs : List Input) (space : MetaSpace) (b : Blob) : Prop :=
  ∃ input ∈ inputs, input.file.space = space ∧
    ∃ c ∈ input.file.containers, ∃ entry ∈ c.methods,
      .ok b ∈ c.code.versions entry.2

def versionsOf (inputs : List Input) : List (MetaSpace × Blob) :=
  inputs.flatMap fun input => input.file.containers.flatMap fun c =>
    c.methods.flatMap fun entry => (c.code.versions entry.2).filterMap fun version =>
      version.toOption.map fun b => (input.file.space, b)

theorem mem_versionsOf {space : MetaSpace} {b : Blob} :
    (space, b) ∈ versionsOf inputs ↔ VersionOf inputs space b := by
  unfold versionsOf VersionOf
  simp only [List.mem_flatMap, List.mem_filterMap, Option.map_eq_some_iff]
  constructor
  · rintro ⟨input, hinput, c, hc, entry, hentry, version, hversion, b', hb', hsame⟩
    cases hsame
    cases version with
    | error e => cases hb'
    | ok b =>
        cases hb'
        exact ⟨input, hinput, rfl, c, hc, entry, hentry, hversion⟩
  · rintro ⟨input, hinput, rfl, c, hc, entry, hentry, hversion⟩
    exact ⟨input, hinput, c, hc, entry, hentry, .ok b, hversion, b, rfl, rfl⟩

/-- Every version of the inputs that is counted has room for its tag streams. -/
def RoomyInputs (inputs : List Input) : Prop :=
  ∀ space b, VersionOf inputs space b → Accepted space b → b.Roomy

instance (inputs : List Input) : Decidable (RoomyInputs inputs) :=
  decidable_of_iff
    (∀ v ∈ versionsOf inputs, isCountable v.1 v.2 = true → v.2.Roomy) (by
      constructor
      · intro h space b hb haccepted
        apply h (space, b) (mem_versionsOf.mpr hb)
        exact isCountable_iff.mpr haccepted.countable
      · rintro h ⟨space, b⟩ hb hcountable
        apply h space b (mem_versionsOf.mp hb)
        exact ⟨0, [], isCountable_iff.mp hcountable 0 []⟩)

theorem RoomyInputs.exists_copyBlob (h : RoomyInputs inputs) {b : Blob}
    {space : MetaSpace} (hb : VersionOf inputs space b)
    (haccepted : Accepted space b) (index : UInt32) (merged : MetaSpace) :
    ∃ bytes merged', copyBlob space index b merged = .ok (bytes, merged') := by
  rcases hb with ⟨input, hinput, rfl, c, hc, entry, hentry, hmem⟩
  exact Merge.exists_copyBlob (CodeSpace.blob_of_mem_versions hmem)
    (h _ b ⟨input, hinput, rfl, c, hc, entry, hentry, hmem⟩ haccepted) haccepted
    index merged

theorem RoomyInputs.copies (h : RoomyInputs inputs) {g : Group} {key : MetaKey}
    {place : BlobPlace} (hplace : Tallied inputs g key place) :
    Copies inputs place := by
  rcases hplace with ⟨member, -, input, hinput, c, hc, entry, hentry, -, b, hb,
    haccepted, rfl⟩
  have hversion : VersionOf inputs input.file.space b :=
    ⟨input, List.mem_of_getElem? hinput, rfl, c, List.mem_of_getElem? hc, entry,
      hentry, hb⟩
  refine ⟨b, input.file.space, ?_, h.exists_copyBlob hversion haccepted⟩
  unfold blobAt
  rw [hinput]
  dsimp only [Option.bind_some]
  rw [hc, Option.map_some]
  dsimp only
  rw [CodeSpace.blob_of_mem_versions hb]
  rfl

theorem byteSize_le_of_visited {g : Group} {key : MetaKey} {place : BlobPlace}
    (h : Visited inputs g key place) :
    BlobHeader.byteSize ≤ place.size.toNat := by
  rcases h with ⟨member, -, input, -, c, -, entry, -, -, b, hb, rfl⟩
  rcases Blob.Image.exists_of_parse (CodeSpace.blob_of_mem_versions hb) with
    ⟨i, hsound, hblob⟩
  have hheader : b.header = i.linked b.header.nextVersion :=
    congrArg Blob.header hblob
  dsimp only
  rw [hheader]
  exact Nat.le_trans i.byteSize_le_size (Nat.le_of_eq hsound.size_eq.symm)

theorem length_mul_le_keptSize {kept : List (List Kept)}
    (hkept : ∀ ks ∈ kept, ∀ k ∈ ks, k.places ≠ [] ∧
      ∀ p ∈ k.places, BlobHeader.byteSize ≤ p.size.toNat)
    {ks : List Kept} (hks : ks ∈ kept) :
    ks.length * BlobHeader.byteSize ≤ keptSize kept := by
  have hall : ∀ k ∈ kept.flatten, k.places ≠ [] ∧
      ∀ p ∈ k.places, BlobHeader.byteSize ≤ p.size.toNat := by
    intro k hk
    rcases List.mem_flatten.mp hk with ⟨ks, hks, hmem⟩
    exact hkept ks hks k hmem
  have hmethods : ks.length ≤ kept.flatten.length :=
    (List.sublist_flatten_of_mem hks).length_le
  have hplaces : kept.flatten.length ≤ (kept.flatten.flatMap fun k =>
      k.places.map fun p => alignUp p.size.toNat).length := by
    rw [List.length_flatMap]
    have hone := List.card_nsmul_le_sum
      (kept.flatten.map fun k => (k.places.map fun p => alignUp p.size.toNat).length)
      1 (by
        intro n hn
        rcases List.mem_map.mp hn with ⟨k, hk, rfl⟩
        rw [List.length_map]
        exact List.length_pos_iff.mpr (hall k hk).1)
    rw [List.length_map] at hone
    exact Nat.le_trans (Nat.le_of_eq (Nat.mul_one _).symm) hone
  have hsum := List.card_nsmul_le_sum (kept.flatten.flatMap fun k =>
      k.places.map fun p => alignUp p.size.toNat) BlobHeader.byteSize (by
    intro n hn
    rcases List.mem_flatMap.mp hn with ⟨k, hk, hmem⟩
    rcases List.mem_map.mp hmem with ⟨p, hp, rfl⟩
    exact Nat.le_trans ((hall k hk).2 p hp) (le_alignUp _))
  exact Nat.le_trans (Nat.mul_le_mul_right _ (Nat.le_trans hmethods hplaces)) hsum

section

variable (hroomy : RoomyInputs inputs) (hsize : Numberable inputs)
  (hlimit : o.maxFileSize < 2 ^ 32)

include hroomy hsize hlimit

theorem build_tolerates (output : String) (paths : List String)
    (identity : String) :
    Tolerates (build o output paths inputs identity) (fun _ => True) := by
  unfold build
  dsimp only
  split
  · intro fault hfault
    cases hfault
  · rename_i hfits
    rw [Nat.not_lt] at hfits
    have hfillable : ∀ g ∈ (keptGroups o inputs.length (groups inputs)).zip
        ((keptGroups o inputs.length (groups inputs)).map (keep o inputs)),
        Fillable inputs g.2 := by
      rintro ⟨g, ks⟩ hg
      have hmem := (List.of_mem_zip hg).2
      have hplaced : ∀ ks ∈ (keptGroups o inputs.length (groups inputs)).map
          (keep o inputs), ∀ k ∈ ks, k.places ≠ [] ∧
            ∀ p ∈ k.places, BlobHeader.byteSize ≤ p.size.toNat := by
        intro ks hks k hk
        rcases List.mem_map.mp hks with ⟨g', -, rfl⟩
        exact ⟨places_ne_nil_of_mem_keep hk, fun p hp =>
          byteSize_le_of_visited (visited_of_mem_keep hsize hk p hp)⟩
      have hmany := length_mul_le_keptSize hplaced hmem
      rcases List.mem_map.mp hmem with ⟨g', -, rfl⟩
      constructor
      · intro k hk
        exact ⟨hasKey_of_mem_keep hk, fun p hp =>
          hroomy.copies (tallied_of_mem_keep hsize hk p hp)⟩
      · unfold BlobHeader.byteSize at hmany
        dsimp only
        omega
    apply (copyGroups_tolerates hsize hfillable (MetaSpace.keyedBy_empty _)).of_bind
    intro copied _
    trivial

end

theorem write_tolerates (f : CacheFile) (files : FileTree) (path : String)
    (limit : Nat) :
    Tolerates (f.write files path limit) (fun _ => True) := by
  unfold CacheFile.write
  dsimp only
  split
  · intro fault hfault
    cases hfault
  · cases files.write path f.encode with
    | some written => trivial
    | none =>
        intro fault hfault
        cases hfault

theorem run_tolerates {expected : Option String} {files : FileTree}
    {paths : List String} (hpaths : inputFiles o files = .ok paths)
    (hroomy : RoomyInputs (readInputs files o.checkBuild expected paths))
    (hsize : Numberable (readInputs files o.checkBuild expected paths))
    (hlimit : o.maxFileSize < 2 ^ 32) :
    Tolerates (run o expected files) (fun _ => True) := by
  unfold run
  cases o.file with
  | none =>
      intro fault hfault
      cases hfault
  | some output =>
      rw [hpaths]
      dsimp only [bind, Except.bind]
      cases (readInputs files o.checkBuild expected paths).head? with
      | none =>
          intro fault hfault
          cases hfault
      | some first =>
          apply (build_tolerates hroomy hsize hlimit output paths _).of_bind
          rintro ⟨file, report⟩ _
          apply (write_tolerates file files output o.maxFileSize).of_bind
          intro written _
          trivial

end Merge

end CodeCache
