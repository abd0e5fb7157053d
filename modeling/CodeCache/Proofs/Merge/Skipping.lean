import CodeCache.Proofs.Merge.Aligning
import CodeCache.Proofs.Merge.Planning

/-!
# Malformed versions

A merge passes over a blob that it cannot count. Keys that the blob mentions may
keep the numbers that they got meanwhile, but nothing that is kept depends on
them: a merge comes out as if chains held no such blobs at all.
-/

namespace CodeCache.Merge

/-!
## What a merge sees
-/

structure Listing where
  space : MetaSpace
  member : Nat × Nat
  index : UInt32
  versions : List (Except Error Blob)

def memberListings (inputs : List Input) (member : Nat × Nat) : List Listing :=
  match inputs[member.1]? with
  | none => []
  | some input =>
    match input.file.containers[member.2]? with
    | none => []
    | some c => c.methods.map fun entry =>
        { space := input.file.space, member, index := entry.1,
          versions := c.code.versions entry.2 }

def listings (inputs : List Input) (g : Group) : List Listing :=
  g.members.flatMap (memberListings inputs)

def Collected.addListing (s : Collected) (l : Listing) : Collected :=
  match l.space.key l.index with
  | .error _ => s
  | .ok key =>
    match s.numbering (number key) with
    | (.error _, s) => s
    | (.ok method, s) => s.addChain l.space l.member method l.versions

def collectListings (ls : List Listing) : Collected :=
  ls.foldl Collected.addListing {}

def Collected.select (o : Options) (s : Collected) : List Kept :=
  s.methods.filterMap fun m =>
    s.keys[m.method.toNat]?.map fun key =>
      { key, versions := m.selectBest o.mergePolicy (max o.maxVersions 1) }

theorem collect_eq (inputs : List Input) (g : Group) :
    collect inputs g = collectListings (listings inputs g) := by
  have hmember : Collected.addMember inputs = fun s member =>
      (memberListings inputs member).foldl Collected.addListing s := by
    funext s member
    unfold Collected.addMember memberListings
    cases inputs[member.1]? with
    | none => rfl
    | some input =>
        dsimp only
        cases input.file.containers[member.2]? with
        | none => rfl
        | some c =>
            dsimp only
            rw [List.foldl_map]
            rfl
  unfold collect collectListings listings
  rw [List.foldl_flatMap, hmember]

theorem keep_eq (o : Options) (inputs : List Input) (g : Group) :
    keep o inputs g = (collectListings (listings inputs g)).select o := by
  rw [← collect_eq]
  rfl

/-!
## Malformed blobs
-/

def isCountable (space : MetaSpace) (b : Blob) : Bool :=
  match normalize space 0 b [] with
  | .ok _ _ => true
  | .error _ _ => false

theorem isCountable_iff {space : MetaSpace} {b : Blob} :
    isCountable space b = true ↔ Countable space b := by
  constructor
  · intro h
    unfold isCountable at h
    split at h
    · rename_i answer keys hrun
      exact Accepted.countable ⟨0, [], answer, keys, hrun⟩
    · cases h
  · intro h
    rcases h 0 [] with ⟨answer, keys, hrun⟩
    unfold isCountable
    rw [hrun]

/-- Whether an entry of a chain is no malformed blob. What breaks the chain is
none. -/
def isSound (space : MetaSpace) : Except Error Blob → Bool
  | .ok b => isCountable space b
  | .error _ => true

def Listing.withoutMalformed (l : Listing) : Listing :=
  { l with versions := l.versions.filter (isSound l.space) }

/-!
## Collecting with and without them
-/

namespace Collected

variable {s₀ s : Collected} {space : MetaSpace} {member : Nat × Nat}
  {f : UInt32 → UInt32}

structure Mirrors (s₀ s : Collected) : Prop where
  aligned : Aligned s₀.keys s.keys
  nodup : s₀.keys.Nodup
  sorted : ∀ m ∈ s₀.methods, m.Sorted
  numbered : ∀ m ∈ s₀.methods, ∃ key, KeyAt s₀.keys m.method key
  methods_eq : ∀ f, Renames f s₀.keys s.keys →
    s.methods = s₀.methods.map (·.rename f)

theorem mirrors_empty : Mirrors {} {} := by
  constructor
  · exact aligned_nil
  · exact List.nodup_nil
  · intro m hm
    cases hm
  · intro m hm
    cases hm
  · intro f _
    rfl

theorem changeMethod_rename (hf : Function.Injective f) (method : UInt32)
    (speculations : List Speculation) (dependencies : List Dependency)
    (place : BlobPlace) {ms : List MethodVersions} (hms : ∀ m ∈ ms, m.Sorted) :
    changeMethod (f method)
        (·.add (speculations.map (·.rename f)) (dependencies.map (·.rename f)) place)
        (ms.map (·.rename f)) =
      (changeMethod method (·.add speculations dependencies place) ms).map
        (·.rename f) := by
  have hadd : ∀ m : MethodVersions, m.Sorted →
      (m.rename f).add (speculations.map (·.rename f))
          (dependencies.map (·.rename f)) place =
        (m.add speculations dependencies place).rename f :=
    fun _ hm => MethodVersions.add_rename hf hm speculations dependencies place
  induction ms with
  | nil =>
      have hnew := hadd { method } (fun _ hv => absurd hv List.not_mem_nil)
      exact congrArg (fun m => [m]) hnew
  | cons m ms ih =>
      have hmethod : (m.rename f).method = f method ↔ m.method = method :=
        hf.eq_iff
      unfold changeMethod
      rw [List.map_cons]
      dsimp only
      rw [hadd m (hms m List.mem_cons_self),
        ih fun m' hm' => hms m' (List.mem_cons_of_mem m hm')]
      by_cases hsame : m.method = method
      · rw [if_pos (hmethod.mpr hsame), if_pos hsame, List.map_cons]
      · rw [if_neg (fun h => hsame (hmethod.mp h)), if_neg hsame, List.map_cons]

theorem number_grows (base : List MetaKey) (key : MetaKey) :
    Ensures (base <+: ·) (number key) (fun _ => True) := by
  intro keys hkeys
  rcases number_eq key keys with ⟨index, keys', hrun, -, rfl | ⟨-, rfl⟩⟩
  · rw [hrun]
    exact ⟨hkeys, trivial⟩
  · rw [hrun]
    exact ⟨hkeys.trans (List.prefix_append _ _), trivial⟩

theorem number_nodup (key : MetaKey) :
    Ensures List.Nodup (number key) (fun _ => True) := by
  intro keys hkeys
  rcases number_eq key keys with ⟨index, keys', hrun, -, rfl | ⟨hnew, rfl⟩⟩
  · rw [hrun]
    exact ⟨hkeys, trivial⟩
  · rw [hrun, ← List.concat_eq_append]
    exact ⟨List.Nodup.concat hnew hkeys, trivial⟩

theorem Mirrors.addMalformed (h : s₀.Mirrors s) (hne : s.keys ≠ []) {b : Blob}
    (hb : isCountable space b = false) (method : UInt32) :
    s₀.Mirrors (s.addBlob space member method b) := by
  have hgrows := normalize_ensures
    (fun key (_ : key ∈ space.keys) => number_grows s.keys key) method b s.keys
    (List.prefix_refl _)
  unfold Collected.addBlob Collected.numbering
  cases hrun : normalize space method b s.keys with
  | ok answer keys' =>
      have hcount := Accepted.countable ⟨method, s.keys, answer, keys', hrun⟩
      rw [isCountable_iff.mpr hcount] at hb
      cases hb
  | error e keys' =>
      rw [hrun] at hgrows
      constructor
      · exact h.aligned.grow hne hgrows
      · exact h.nodup
      · exact h.sorted
      · exact h.numbered
      · intro f hf
        exact h.methods_eq f (hf.mono (List.prefix_refl _) hgrows)

theorem Mirrors.addBlob (h : s₀.Mirrors s) {key : MetaKey} {m m' : UInt32}
    (hm : KeyAt s₀.keys m key) (hm' : KeyAt s.keys m' key) {b : Blob}
    (hb : isCountable space b = true) :
    (s₀.addBlob space member m b).Mirrors (s.addBlob space member m' b) := by
  rcases isCountable_iff.mp hb m s₀.keys with ⟨answer, keys₀', hrun₀⟩
  rcases @normalize_twice _ _ _ m m' b answer hrun₀ s.keys with
    ⟨answer', keys', hrun, hmore₀, hmore, haligned, hanswer⟩
  have hnodup := (normalize_ensures
    (fun key (_ : key ∈ space.keys) => number_nodup key) m b).ok_and_post
    h.nodup hrun₀
  unfold Collected.addBlob Collected.numbering
  rw [hrun₀, hrun]
  constructor
  · exact haligned h.aligned
  · exact hnodup.1
  · intro n hn
    rcases mem_changeMethod hn with hold | ⟨n₀, hn₀, -, rfl⟩ | rfl
    · exact h.sorted n hold
    · exact (h.sorted n₀ hn₀).add _ _ _
    · apply MethodVersions.Sorted.add
      intro v hv
      cases hv
  · intro n hn
    rcases mem_changeMethod hn with hold | ⟨n₀, hn₀, -, rfl⟩ | rfl
    · rcases h.numbered n hold with ⟨k, hk⟩
      exact ⟨k, hk.mono hmore₀⟩
    · rcases h.numbered n₀ hn₀ with ⟨k, hk⟩
      exact ⟨k, hk.mono hmore₀⟩
    · exact ⟨key, hm.mono hmore₀⟩
  · intro f hf
    have hmethod := hf.key key m m' (hm.mono hmore₀) (hm'.mono hmore)
    have hsame := hanswer f hf hmethod
    dsimp only
    rw [h.methods_eq f (hf.mono hmore₀ hmore), hsame, ← hmethod]
    exact changeMethod_rename hf.injective m _ _ _ h.sorted

theorem keys_addBlob (space : MetaSpace) (member : Nat × Nat) (method : UInt32)
    (s : Collected) (b : Blob) :
    s.keys <+: (s.addBlob space member method b).keys := by
  have hgrows := normalize_ensures
    (fun key (_ : key ∈ space.keys) => number_grows s.keys key) method b s.keys
    (List.prefix_refl _)
  unfold Collected.addBlob Collected.numbering
  cases hrun : normalize space method b s.keys with
  | ok answer keys' =>
      rw [hrun] at hgrows
      exact hgrows.1
  | error e keys' =>
      rw [hrun] at hgrows
      exact hgrows

theorem Mirrors.addChain (h : s₀.Mirrors s) {key : MetaKey} {m m' : UInt32}
    (hm : KeyAt s₀.keys m key) (hm' : KeyAt s.keys m' key)
    (blobs : List (Except Error Blob)) :
    (Collected.addChain space member m s₀ (blobs.filter (isSound space))).Mirrors
      (Collected.addChain space member m' s blobs) := by
  induction blobs generalizing s₀ s with
  | nil => exact h
  | cons blob blobs ih =>
      cases blob with
      | error e => exact h
      | ok b =>
          have hgrown := hm'.mono (keys_addBlob space member m' s b)
          cases hb : isCountable space b with
          | true =>
              rw [List.filter_cons_of_pos (show isSound space (.ok b) = true from hb)]
              have hgrown₀ := hm.mono (keys_addBlob space member m s₀ b)
              exact ih (h.addBlob hm hm' hb) hgrown₀ hgrown
          | false =>
              have hleft : ¬ isSound space (.ok b) = true := by
                change ¬ isCountable space b = true
                rw [hb]
                exact Bool.false_ne_true
              rw [List.filter_cons_of_neg hleft]
              have hne := List.ne_nil_of_mem (mem_of_keyAt hm')
              exact ih (h.addMalformed hne hb m') hm hgrown

theorem Mirrors.addListing (h : s₀.Mirrors s) (l : Listing) :
    (s₀.addListing l.withoutMalformed).Mirrors (s.addListing l) := by
  unfold Collected.addListing Listing.withoutMalformed
  dsimp only
  cases l.space.key l.index with
  | error e => exact h
  | ok key =>
      rcases number_twice key s₀.keys s.keys with
        ⟨i, keys₀', j, keys', hrun₀, hrun, hat₀, hat, hmore₀, hmore, haligned⟩
      have hnodup := (number_nodup key).ok_and_post h.nodup hrun₀
      unfold Collected.numbering
      dsimp only
      rw [hrun₀, hrun]
      refine Mirrors.addChain ?_ hat₀ hat l.versions
      constructor
      · exact haligned h.aligned
      · exact hnodup.1
      · exact h.sorted
      · intro m hm
        rcases h.numbered m hm with ⟨k, hk⟩
        exact ⟨k, hk.mono hmore₀⟩
      · intro f hf
        exact h.methods_eq f (hf.mono hmore₀ hmore)

theorem mirrors_collectListings (ls : List Listing) :
    (collectListings (ls.map Listing.withoutMalformed)).Mirrors
      (collectListings ls) := by
  have hfold : ∀ s₀ s : Collected, s₀.Mirrors s →
      ((ls.map Listing.withoutMalformed).foldl addListing s₀).Mirrors
        (ls.foldl addListing s) := by
    induction ls with
    | nil => exact fun _ _ h => h
    | cons l ls ih => exact fun s₀ s h => ih _ _ (h.addListing l)
  exact hfold {} {} mirrors_empty

end Collected

/-!
## Keeping with and without them
-/

def Kept.rename (f : UInt32 → UInt32) (k : Kept) : Kept :=
  { k with versions := k.versions.rename f }

def keepSound (o : Options) (inputs : List Input) (g : Group) : List Kept :=
  (collectListings ((listings inputs g).map Listing.withoutMalformed)).select o

theorem Collected.Mirrors.select_eq {s₀ s : Collected} (h : s₀.Mirrors s)
    (hnodup : s.keys.Nodup) (hsize : s.keys.length < 2 ^ 31) (o : Options) :
    ∃ f, s.select o = (s₀.select o).map (Kept.rename f) := by
  rcases h.aligned.exists_renames h.nodup hnodup hsize with ⟨f, hf⟩
  have hle := (List.subperm_of_subset h.nodup h.aligned.subset).length_le
  refine ⟨f, ?_⟩
  unfold select
  rw [h.methods_eq f hf, List.filterMap_map, List.map_filterMap]
  apply List.filterMap_congr
  intro m hm
  rcases h.numbered m hm with ⟨key, hat₀⟩
  rcases List.mem_iff_getElem?.mp (h.aligned.subset (mem_of_keyAt hat₀)) with ⟨n, hn⟩
  have hat : KeyAt s.keys (UInt32.ofNat n) key := ⟨n, hn, rfl⟩
  have hkey₀ := hat₀.getElem?_eq (by omega)
  have hkey := hat.getElem?_eq (by omega)
  rw [← hf.key key _ _ hat₀ hat] at hkey
  have hselect := MethodVersions.selectBest_rename hf.injective o.mergePolicy
    (max o.maxVersions 1) m
  dsimp only [Function.comp_apply, MethodVersions.rename]
  rw [hkey₀, hkey]
  exact congrArg (fun versions => some ({ key, versions } : Kept)) hselect

theorem Kept.alike_rename (f : UInt32 → UInt32) (k : Kept) :
    (k.rename f).Alike k := by
  have hlength : ∀ ds : List Dependency,
      (MethodVersion.sorted (ds.map (·.rename f))).length = ds.length := by
    intro ds
    rw [(MethodVersion.perm_sorted _).length_eq, List.length_map]
  constructor
  · rfl
  · simp [places, rename, MethodVersions.rename, MethodVersion.rename]
  · simp [report, rename, MethodVersions.rename, MethodVersion.rename, hlength]

/-- Malformed blobs have no part in what is kept. -/
theorem keep_alike {inputs : List Input} (hsize : Numberable inputs) (o : Options)
    (g : Group) :
    List.Forall₂ Kept.Alike (keep o inputs g) (keepSound o inputs g) := by
  have hproper := collect_proper inputs g
  have hlt := hsize.length_lt hproper.numbered
  rw [collect_eq] at hproper hlt
  rcases (Collected.mirrors_collectListings (listings inputs g)).select_eq
    hproper.numbered.nodup hlt o with ⟨f, hf⟩
  rw [keep_eq, hf, List.forall₂_map_left_iff]
  exact List.forall₂_same.mpr fun k _ => k.alike_rename f

/-!
## Merging with and without them
-/

def soundPlan (o : Options) (inputs : List Input) : List (Group × List Kept) :=
  (keptGroups o inputs.length (groups inputs)).map fun g => (g, keepSound o inputs g)

theorem plan_alike_soundPlan {inputs : List Input} (hsize : Numberable inputs)
    (o : Options) :
    List.Forall₂ Alike (plan o inputs) (soundPlan o inputs) := by
  unfold plan soundPlan
  rw [List.forall₂_map_left_iff, List.forall₂_map_right_iff]
  exact List.forall₂_same.mpr fun g _ => ⟨rfl, keep_alike hsize o g⟩

end CodeCache.Merge
