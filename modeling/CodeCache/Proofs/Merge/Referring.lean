import CodeCache.Blob.Emit
import CodeCache.Code.Assembler
import CodeCache.Host.World
import CodeCache.Proofs.Merge.Skipping

/-!
# What dependencies refer to

A merge compares dependencies by the numbers that stand in place of slots. Keys are
numbered from zero on, and zero also stands for an argument that is implicit. So a
reference to the first key of a group is not told from an implicit one. All other
references are told apart.
-/

namespace CodeCache

open scoped List

/-!
## Lists under two functions
-/

section

variable {α β γ : Type} {f : α → β} {g : α → γ} {as bs : List α}

theorem map_eq_map_of (h : as.map f = bs.map f)
    (hfg : ∀ a ∈ as, ∀ b ∈ bs, f a = f b → g a = g b) :
    as.map g = bs.map g := by
  induction as generalizing bs with
  | nil =>
      rw [List.map_eq_nil_iff.mp h.symm]
  | cons a as ih =>
      cases bs with
      | nil => cases h
      | cons b bs =>
          injection h with hhead htail
          rw [List.map_cons, List.map_cons,
            hfg a List.mem_cons_self b List.mem_cons_self hhead,
            ih htail fun a ha b hb =>
              hfg a (List.mem_cons_of_mem _ ha) b (List.mem_cons_of_mem _ hb)]

theorem perm_map_of (h : (as.map f).Perm (bs.map f))
    (hfg : ∀ a ∈ as, ∀ b ∈ bs, f a = f b → g a = g b) :
    (as.map g).Perm (bs.map g) := by
  have hsplit : Relation.Comp (· = List.map f ·) (· ~ ·) (as.map f) bs :=
    (List.eq_map_comp_perm f).symm ▸ h
  rcases hsplit with ⟨bs', hmap, hperm⟩
  rw [map_eq_map_of hmap fun a ha b hb => hfg a ha b (hperm.subset hb)]
  exact hperm.map g

end

/-!
## References
-/

inductive Referent where
  | implicit
  | empty
  | key (key : MetaKey)
  deriving DecidableEq, Repr

namespace Referent

def ofRecord (space : MetaSpace) (method : MetaKey) : TagRecord → Except Error Referent
  | .selfMethod => return key method
  | .nonOop => return empty
  | .klass _ index _ => return key (← space.key index)
  | .method _ index => return key (← space.key index)
  | record => throw (.corruption (.metadataPosition record))

def ofArg (slots : List Referent) (arg : UInt32) : Except Error Referent :=
  if arg = 0 then .ok implicit
  else
    match slots[arg.toNat - 1]? with
    | some referent => .ok referent
    | none => .error (.corruption (.dependencyIndex arg slots.length))

/-- What is left of a referent among numbers: the first key counts as implicit. -/
def blur (keys : List MetaKey) : Referent → Referent
  | implicit => implicit
  | empty => empty
  | key k => if keys.head? = some k then implicit else key k

end Referent

/-- A dependency with what its arguments refer to. -/
structure Requirement where
  kind : DependencyKind
  args : List Referent
  deriving DecidableEq, Repr

namespace Requirement

def ofDependency (slots : List Referent) (d : Dependency) :
    Except Error Requirement := do
  return { kind := d.kind, args := ← d.args.mapM (Referent.ofArg slots) }

def blur (keys : List MetaKey) (q : Requirement) : Requirement :=
  { q with args := q.args.map (Referent.blur keys) }

/-- An argument of the first is implicit where the second, of the same kind, refers
to the first key. -/
def Confused (keys : List MetaKey) (q r : Requirement) : Prop :=
  q.kind = r.kind ∧ ∃ p ∈ q.args.zip r.args,
    p.1 = .implicit ∧ ∃ k ∈ keys.head?, p.2 = .key k

instance (keys : List MetaKey) (q r : Requirement) : Decidable (Confused keys q r) :=
  inferInstanceAs (Decidable (_ ∧ _))

end Requirement

def Blob.requirements (space : MetaSpace) (method : MetaKey) (b : Blob) :
    Except Error (List Requirement) := do
  let records ← TagStream.decode b.tagMeta
  let slots ← records.mapM (Referent.ofRecord space method)
  (← b.dependencies).mapM (Requirement.ofDependency slots)

/-!
## Numbers of references
-/

section

variable {keys keys' : List MetaKey} {space : MetaSpace} {method : MetaKey}
  {m n n' : UInt32}

namespace Referent

variable {r r' : Referent} {slots : List UInt32} {referents : List Referent}

def At (keys : List MetaKey) (n : UInt32) : Referent → Prop
  | implicit => n = 0
  | empty => n = Merge.emptySlot
  | key k => KeyAt keys n k

theorem At.mono (h : r.At keys n) (hmore : keys <+: keys') : r.At keys' n := by
  cases r with
  | implicit | empty => exact h
  | key k => exact KeyAt.mono h hmore

def code (keys : List MetaKey) : Referent → Nat
  | implicit => 0
  | empty => 2 ^ 32 - 1
  | key k => keys.idxOf k

def number (keys : List MetaKey) (r : Referent) : UInt32 :=
  UInt32.ofNat (r.code keys)

def Known (keys : List MetaKey) : Referent → Prop
  | implicit | empty => True
  | key k => k ∈ keys

theorem At.known (h : r.At keys n) : r.Known keys := by
  cases r with
  | implicit | empty => trivial
  | key k => exact Merge.mem_of_keyAt h

theorem At.eq_number (h : r.At keys n) (hnodup : keys.Nodup) : n = r.number keys := by
  cases r with
  | implicit | empty => exact h
  | key k =>
      rcases h with ⟨i, hi, rfl⟩
      rcases List.getElem?_eq_some_iff.mp hi with ⟨hlt, rfl⟩
      show UInt32.ofNat i = UInt32.ofNat (keys.idxOf keys[i])
      rw [hnodup.idxOf_getElem]

theorem head?_eq_some_iff {k : MetaKey} (hk : k ∈ keys) :
    keys.head? = some k ↔ keys.idxOf k = 0 := by
  cases keys with
  | nil => cases hk
  | cons first rest =>
      rw [List.head?_cons, Option.some_inj]
      by_cases hsame : first = k
      · rw [hsame, List.idxOf_cons_self]
        exact iff_of_true rfl rfl
      · rw [List.idxOf_cons_ne rest hsame]
        exact iff_of_false hsame (Nat.succ_ne_zero _)

/-- References have the same number if they are the same but for the first key. -/
theorem code_eq_iff (hsize : keys.length < 2 ^ 32) (hr : r.Known keys)
    (hr' : r'.Known keys) :
    r.code keys = r'.code keys ↔ r.blur keys = r'.blur keys := by
  have hfirst : ∀ k ∈ keys, (keys.head? = some k ↔ keys.idxOf k = 0) :=
    fun k hk => head?_eq_some_iff hk
  have hlast : ∀ k ∈ keys, keys.idxOf k < 2 ^ 32 - 1 := by
    intro k hk
    have hlt := List.idxOf_lt_length_of_mem hk
    omega
  have hsame : ∀ k ∈ keys, ∀ l, keys.idxOf k = keys.idxOf l ↔ k = l :=
    fun k hk l => List.idxOf_inj hk
  cases r with
  | implicit =>
      cases r' with
      | implicit | empty => simp [code, blur]
      | key k => grind [code, blur, Known]
  | empty =>
      cases r' with
      | implicit | empty => simp [code, blur]
      | key k => grind [code, blur, Known]
  | key k =>
      cases r' with
      | implicit | empty | key l => grind [code, blur, Known]

theorem number_eq_iff (hsize : keys.length < 2 ^ 32) (hr : r.Known keys)
    (hr' : r'.Known keys) :
    r.number keys = r'.number keys ↔ r.blur keys = r'.blur keys := by
  have hcode : ∀ {s : Referent}, s.Known keys → s.code keys < 2 ^ 32 := by
    intro s hs
    cases s with
    | implicit | empty => simp [code]
    | key k => exact (List.idxOf_lt_length_of_mem hs).trans hsize
  unfold number
  rw [← UInt32.toNat_inj, UInt32.toNat_ofNat_of_lt' (hcode hr),
    UInt32.toNat_ofNat_of_lt' (hcode hr')]
  exact code_eq_iff hsize hr hr'

theorem ofArg_follows (hslots : List.Forall₂ (fun n r => r.At keys n) slots referents)
    (arg : UInt32) :
    Follows (fun n r => r.At keys n) (Dependency.remapArg slots arg)
      (ofArg referents arg) := by
  intro n h
  unfold Dependency.remapArg at h
  unfold ofArg
  split at h
  · rename_i hzero
    cases h
    rw [if_pos hzero]
    exact ⟨implicit, rfl, rfl⟩
  · rename_i hzero
    rw [if_neg hzero]
    split at h
    · rename_i new hnew
      cases h
      rcases List.getElem?_eq_some_iff.mp hnew with ⟨hlt, rfl⟩
      have hlt' := hslots.length_eq ▸ hlt
      rw [List.getElem?_eq_getElem hlt']
      exact ⟨_, rfl, hslots.get hlt hlt'⟩
    · cases h

theorem of_slotNumber {record : TagRecord}
    (h : Merge.slotNumber space m record keys = .ok n keys')
    (hm : KeyAt keys m method) :
    keys <+: keys' ∧ ∃ r, ofRecord space method record = .ok r ∧ r.At keys' n := by
  have hkey : ∀ index, (do Merge.number (← ofExcept (space.key index)) :
        Merge.Numbering UInt32) keys = .ok n keys' →
      keys <+: keys' ∧ ∃ r, (do return key (← space.key index) : Except Error Referent) =
        .ok r ∧ r.At keys' n := by
    intro index hrun
    rcases of_bind_run hrun with ⟨k, middle, hexcept, hnumber⟩
    rcases of_ofExcept_run hexcept with ⟨hk, rfl⟩
    rcases Merge.number_eq k middle with ⟨i, keys'', hrun', hat, hcases⟩
    rw [hrun'] at hnumber
    cases hnumber
    rw [hk]
    refine ⟨?_, key k, rfl, hat⟩
    rcases hcases with rfl | ⟨-, rfl⟩
    · exact List.prefix_refl _
    · exact List.prefix_append _ _
  cases record with
  | selfMethod =>
      cases h
      exact ⟨List.prefix_refl _, key method, rfl, hm⟩
  | nonOop =>
      cases h
      exact ⟨List.prefix_refl _, empty, rfl, rfl⟩
  | klass _ index _ => exact hkey index h
  | method _ index => exact hkey index h
  | _ => cases h

theorem of_slotNumbers {records : List TagRecord}
    (h : records.mapM (Merge.slotNumber space m) keys = .ok slots keys')
    (hm : KeyAt keys m method) :
    keys <+: keys' ∧ ∃ referents, records.mapM (ofRecord space method) = .ok referents ∧
      List.Forall₂ (fun n r => r.At keys' n) slots referents := by
  induction records generalizing keys slots with
  | nil =>
      cases h
      exact ⟨List.prefix_refl _, [], rfl, .nil⟩
  | cons record records ih =>
      rw [List.mapM_cons] at h
      rcases of_bind_run h with ⟨n, middle, hfirst, h⟩
      rcases of_bind_run h with ⟨rest, last, hrest, hdone⟩
      cases hdone
      rcases of_slotNumber hfirst hm with ⟨hmore, r, hr, hat⟩
      rcases ih hrest (hm.mono hmore) with ⟨hmores, referents, hreferents, hall⟩
      refine ⟨hmore.trans hmores, r :: referents, ?_, .cons (hat.mono hmores) hall⟩
      rw [List.mapM_cons, hr, hreferents]
      rfl

end Referent

namespace Requirement

variable {slots : List UInt32} {referents : List Referent} {d : Dependency}
  {q r : Requirement}

structure At (keys : List MetaKey) (d : Dependency) (q : Requirement) : Prop where
  kind : d.kind = q.kind
  args : List.Forall₂ (fun n r => Referent.At keys n r) d.args q.args

def Known (keys : List MetaKey) (q : Requirement) : Prop :=
  ∀ r ∈ q.args, r.Known keys

def number (keys : List MetaKey) (q : Requirement) : Dependency where
  kind := q.kind
  args := q.args.map (Referent.number keys)

theorem ofDependency_follows
    (hslots : List.Forall₂ (fun n r => Referent.At keys n r) slots referents)
    (d : Dependency) :
    Follows (At keys) (d.remap slots) (ofDependency referents d) := by
  unfold Dependency.remap ofDependency
  apply (Follows.of_mapM (Referent.ofArg_follows hslots) d.args).of_bind
  intro args args' hall
  exact Follows.of_pure ⟨rfl, hall⟩

theorem At.mono (h : At keys d q) (hmore : keys <+: keys') : At keys' d q :=
  ⟨h.kind, h.args.imp fun _ _ hat => hat.mono hmore⟩

theorem At.known (h : At keys d q) : q.Known keys := by
  intro r hr
  rcases exists_of_mem_right h.args hr with ⟨n, -, hat⟩
  exact hat.known

theorem At.eq_number (h : At keys d q) (hnodup : keys.Nodup) : d = q.number keys := by
  have hargs := h.args.imp fun _ _ hat => hat.eq_number hnodup
  cases d
  rw [number, ← h.kind, ← eq_map_of_forall₂ hargs.flip]

theorem number_eq_iff (hsize : keys.length < 2 ^ 32) (hq : q.Known keys)
    (hr : r.Known keys) :
    q.number keys = r.number keys ↔ q.blur keys = r.blur keys := by
  have hone := fun a ha b hb => Referent.number_eq_iff hsize (hq a ha) (hr b hb)
  unfold number blur
  rw [Dependency.mk.injEq, mk.injEq]
  refine and_congr_right fun _ => ⟨?_, ?_⟩
  · exact fun h => map_eq_map_of h fun a ha b hb => (hone a ha b hb).mp
  · exact fun h => map_eq_map_of h fun a ha b hb => (hone a ha b hb).mpr

theorem eq_of_map_blur_eq {args args' : List Referent}
    (h : args.map (Referent.blur keys) = args'.map (Referent.blur keys))
    (hleft : ∀ p ∈ args.zip args', p.1 = .implicit → ∀ k ∈ keys.head?, p.2 ≠ .key k)
    (hright : ∀ p ∈ args'.zip args, p.1 = .implicit →
      ∀ k ∈ keys.head?, p.2 ≠ .key k) :
    args = args' := by
  induction args generalizing args' with
  | nil => exact (List.map_eq_nil_iff.mp h.symm).symm
  | cons a args ih =>
      cases args' with
      | nil => cases h
      | cons a' args' =>
          injection h with hhead htail
          rw [List.zip_cons_cons, List.forall_mem_cons] at hleft hright
          have hsame : a = a' := by
            cases a <;> cases a' <;> grind [Referent.blur]
          rw [hsame, ih htail hleft.2 hright.2]

theorem eq_of_blur_eq (h : q.blur keys = r.blur keys) (hqr : ¬ Confused keys q r)
    (hrq : ¬ Confused keys r q) :
    q = r := by
  rcases q with ⟨kind, args⟩
  rcases r with ⟨kind', args'⟩
  injection h with hkind hargs
  dsimp only at hkind hargs
  subst hkind
  rw [eq_of_map_blur_eq hargs]
  · exact fun p hp hleft k hk hright => hqr ⟨rfl, p, hp, hleft, k, hk, hright⟩
  · exact fun p hp hleft k hk hright => hrq ⟨rfl, p, hp, hleft, k, hk, hright⟩

end Requirement

namespace Merge

variable {inputs : List Input} {g : Group} {b : Blob} {ds : List Dependency}

/-!
## Blobs of a group
-/

def Normalized (keys : List MetaKey) (space : MetaSpace) (method : MetaKey) (b : Blob)
    (ds : List Dependency) : Prop :=
  ∃ before m rs after, KeyAt before m method ∧
    normalize space m b before = .ok (rs, ds) after ∧ after <+: keys

def Seen (inputs : List Input) (g : Group) (space : MetaSpace) (method : MetaKey)
    (b : Blob) : Prop :=
  ∃ l ∈ listings inputs g, l.space = space ∧ space.key l.index = .ok method ∧
    .ok b ∈ l.versions ∧ Accepted space b

theorem Normalized.mono (h : Normalized keys space method b ds)
    (hmore : keys <+: keys') :
    Normalized keys' space method b ds := by
  rcases h with ⟨before, m, rs, after, hm, hrun, hafter⟩
  exact ⟨before, m, rs, after, hm, hrun, hafter.trans hmore⟩

theorem Normalized.requirements (h : Normalized keys space method b ds) :
    ∃ qs, b.requirements space method = .ok qs ∧
      List.Forall₂ (Requirement.At keys) ds qs := by
  rcases h with ⟨before, m, rs, after, hm, hrun, hafter⟩
  rcases of_normalize hrun with ⟨records, _, ds₀, slots, hreadable, hslots, -, hds⟩
  rcases Referent.of_slotNumbers hslots hm with ⟨-, referents, hreferents, hall⟩
  rcases Follows.of_mapM (Requirement.ofDependency_follows hall) ds₀ ds hds with
    ⟨qs, hqs, hat⟩
  refine ⟨qs, ?_, hat.imp fun _ _ h => h.mono hafter⟩
  unfold Blob.requirements
  rw [hreadable.records_eq, hreadable.dependencies_eq]
  change records.mapM (Referent.ofRecord space method) >>= _ = _
  rw [hreferents]
  exact hqs

namespace Collected

variable {s : Collected} {member : Nat × Nat}

theorem keys_addChain (space : MetaSpace) (member : Nat × Nat) (method : UInt32)
    (s : Collected) (blobs : List (Except Error Blob)) :
    s.keys <+: (addChain space member method s blobs).keys := by
  induction blobs generalizing s with
  | nil => exact List.prefix_refl _
  | cons blob blobs ih =>
      cases blob with
      | error e => exact List.prefix_refl _
      | ok b => exact (keys_addBlob space member method s b).trans (ih _)

theorem keys_numbering_number (s : Collected) (key : MetaKey) :
    ∃ index keys, s.numbering (number key) = (.ok index, { s with keys }) ∧
      KeyAt keys index key ∧ s.keys <+: keys := by
  rcases number_eq key s.keys with ⟨index, keys, hrun, hat, hcases⟩
  refine ⟨index, keys, ?_, hat, ?_⟩
  · unfold Collected.numbering
    rw [hrun]
  · rcases hcases with rfl | ⟨-, rfl⟩
    · exact List.prefix_refl _
    · exact List.prefix_append _ _

theorem keys_addListing (s : Collected) (l : Listing) :
    s.keys <+: (s.addListing l).keys := by
  unfold addListing
  cases l.space.key l.index with
  | error e => exact List.prefix_refl _
  | ok key =>
      rcases s.keys_numbering_number key with ⟨index, keys, hrun, -, hmore⟩
      dsimp only
      rw [hrun]
      exact hmore.trans (keys_addChain _ _ _ { s with keys } _)

theorem normalized_addBlob (hm : KeyAt s.keys m method) (hb : Accepted space b) :
    ∃ ds, Normalized (s.addBlob space member m b).keys space method b ds := by
  rcases hb.countable m s.keys with ⟨⟨rs, ds⟩, after, hrun⟩
  refine ⟨ds, s.keys, m, rs, after, hm, hrun, ?_⟩
  unfold Collected.addBlob Collected.numbering
  rw [hrun]

theorem normalized_addChain (hm : KeyAt s.keys m method) (hb : Accepted space b)
    (front : List Blob) (back : List (Except Error Blob)) :
    ∃ ds, Normalized (addChain space member m s (front.map .ok ++ .ok b :: back)).keys
      space method b ds := by
  induction front generalizing s with
  | nil =>
      rcases normalized_addBlob hm hb with ⟨ds, h⟩
      exact ⟨ds, h.mono (keys_addChain _ _ _ _ _)⟩
  | cons first front ih => exact ih (hm.mono (keys_addBlob _ _ _ _ _))

theorem normalized_addListing (s : Collected) {l : Listing} {front : List Blob}
    {back : List (Except Error Blob)} (hspace : l.space.key l.index = .ok method)
    (hversions : l.versions = front.map .ok ++ .ok b :: back)
    (hb : Accepted l.space b) :
    ∃ ds, Normalized (s.addListing l).keys l.space method b ds := by
  rcases s.keys_numbering_number method with ⟨index, keys, hrun, hat, -⟩
  unfold addListing
  rw [hspace]
  dsimp only
  rw [hrun, hversions]
  exact normalized_addChain (s := { s with keys }) hat hb front back

end Collected

theorem intact_of_mem_listings {l : Listing} (hl : l ∈ listings inputs g)
    (hb : .ok b ∈ l.versions) :
    ∃ front back, l.versions = List.map .ok front ++ .ok b :: back := by
  unfold listings at hl
  rcases List.mem_flatMap.mp hl with ⟨member, -, hl⟩
  unfold memberListings at hl
  split at hl
  · cases hl
  · split at hl
    · cases hl
    · rcases List.mem_map.mp hl with ⟨entry, -, rfl⟩
      exact CodeSpace.intact_of_mem_versions hb

theorem normalized_of_seen (h : Seen inputs g space method b) :
    ∃ ds, Normalized (collect inputs g).keys space method b ds := by
  rcases h with ⟨l, hl, rfl, hkey, hmem, hb⟩
  rcases intact_of_mem_listings hl hmem with ⟨front, back, hversions⟩
  rw [collect_eq]
  refine foldl_reaches (P := fun _ => True)
    (Q := fun s : Collected => ∃ ds, Normalized s.keys l.space method b ds)
    (fun _ _ _ _ => trivial) ?_ trivial hl
    fun s _ => s.normalized_addListing hkey hversions hb
  rintro s l' _ - ⟨ds, h⟩
  exact ⟨ds, h.mono (s.keys_addListing l')⟩

theorem Normalized.perm_iff (hnodup : keys.Nodup) (hsize : keys.length < 2 ^ 32)
    {space' : MetaSpace} {method' : MetaKey} {b' : Blob} {ds' : List Dependency}
    {qs qs' : List Requirement} (h : Normalized keys space method b ds)
    (h' : Normalized keys space' method' b' ds')
    (hqs : b.requirements space method = .ok qs)
    (hqs' : b'.requirements space' method' = .ok qs') :
    ds.Perm ds' ↔
      (qs.map (Requirement.blur keys)).Perm (qs'.map (Requirement.blur keys)) := by
  have hnumbers : ∀ {space : MetaSpace} {method : MetaKey} {b : Blob}
      {ds : List Dependency} {qs : List Requirement},
      Normalized keys space method b ds → b.requirements space method = .ok qs →
      ds = qs.map (Requirement.number keys) ∧ ∀ q ∈ qs, q.Known keys := by
    intro space method b ds qs h hqs
    rcases h.requirements with ⟨qs, hqs₀, hat⟩
    rw [hqs] at hqs₀
    cases hqs₀
    refine ⟨eq_map_of_forall₂ (hat.imp fun _ _ h => h.eq_number hnodup).flip, ?_⟩
    intro q hq
    rcases exists_of_mem_right hat hq with ⟨d, -, h⟩
    exact h.known
  rcases hnumbers h hqs with ⟨rfl, hknown⟩
  rcases hnumbers h' hqs' with ⟨rfl, hknown'⟩
  have hone := fun q hq r hr =>
    Requirement.number_eq_iff hsize (hknown q hq) (hknown' r hr)
  constructor
  · exact fun hperm => perm_map_of hperm fun q hq r hr => (hone q hq r hr).mp
  · exact fun hperm => perm_map_of hperm fun q hq r hr => (hone q hq r hr).mpr

/-- No requirement of the one is confused with one of the other. -/
def Unconfused (keys : List MetaKey) (qs rs : List Requirement) : Prop :=
  ∀ q ∈ qs, ∀ r ∈ rs, ¬ Requirement.Confused keys q r ∧ ¬ Requirement.Confused keys r q

instance (keys : List MetaKey) (qs rs : List Requirement) :
    Decidable (Unconfused keys qs rs) :=
  inferInstanceAs (Decidable (∀ q ∈ qs, _))

theorem Unconfused.perm_iff {qs rs : List Requirement} (h : Unconfused keys qs rs) :
    (qs.map (Requirement.blur keys)).Perm (rs.map (Requirement.blur keys)) ↔
      qs.Perm rs := by
  constructor
  · intro hperm
    have hid := perm_map_of (g := id) hperm fun q hq r hr hsame =>
      Requirement.eq_of_blur_eq hsame (h q hq r hr).1 (h q hq r hr).2
    rwa [List.map_id, List.map_id] at hid
  · exact fun hperm => hperm.map _

/-- Two blobs of methods of a group, whichever files they are from, have the same
dependencies in a merge if they require the same, each as often, but for references
to the first key of the group, which count as implicit. Where no argument of the one
is implicit while the other refers to this key, they do if they require the same. -/
theorem sameDependencies_iff_requirements
    (hsize : (collect inputs g).keys.length < 2 ^ 32)
    {space₁ space₂ : MetaSpace} {method₁ method₂ : MetaKey} {b₁ b₂ : Blob}
    (h₁ : Seen inputs g space₁ method₁ b₁) (h₂ : Seen inputs g space₂ method₂ b₂) :
    ∃ qs₁ qs₂, b₁.requirements space₁ method₁ = .ok qs₁ ∧
      b₂.requirements space₂ method₂ = .ok qs₂ ∧
      (∃ ds₁, Normalized (collect inputs g).keys space₁ method₁ b₁ ds₁) ∧
      (∃ ds₂, Normalized (collect inputs g).keys space₂ method₂ b₂ ds₂) ∧
      ∀ ds₁ ds₂, Normalized (collect inputs g).keys space₁ method₁ b₁ ds₁ →
        Normalized (collect inputs g).keys space₂ method₂ b₂ ds₂ →
        (MethodVersion.sameDependencies (MethodVersion.sorted ds₁)
            (MethodVersion.sorted ds₂) = true ↔
          (qs₁.map (Requirement.blur (collect inputs g).keys)).Perm
            (qs₂.map (Requirement.blur (collect inputs g).keys))) ∧
        (Unconfused (collect inputs g).keys qs₁ qs₂ →
          (MethodVersion.sameDependencies (MethodVersion.sorted ds₁)
            (MethodVersion.sorted ds₂) = true ↔ qs₁.Perm qs₂)) := by
  have hnodup := (collect_proper inputs g).numbered.nodup
  rcases normalized_of_seen h₁ with ⟨ds₁, hds₁⟩
  rcases normalized_of_seen h₂ with ⟨ds₂, hds₂⟩
  rcases hds₁.requirements with ⟨qs₁, hqs₁, -⟩
  rcases hds₂.requirements with ⟨qs₂, hqs₂, -⟩
  refine ⟨qs₁, qs₂, hqs₁, hqs₂, ⟨ds₁, hds₁⟩, ⟨ds₂, hds₂⟩, ?_⟩
  intro es₁ es₂ hes₁ hes₂
  have hperm := hes₁.perm_iff hnodup hsize hes₂ hqs₁ hqs₂
  rw [MethodVersion.sameDependencies_sorted_iff (MethodVersion.sorted_sorted es₁),
    (MethodVersion.perm_sorted es₁).congr_left, hperm]
  exact ⟨Iff.rfl, Unconfused.perm_iff⟩

end Merge

end

namespace Merge

namespace Sample

def world : World :=
  let (w, a) := (World.empty 0).defineClass { name := "A", loader := .app }
  (w.defineMethod a "f" "()V").1

def method : MetaKey where
  name := .method "A" "f" "()V"
  identity := world.host.methodIdentity ⟨0⟩
  loader := .app

def file (ds : List Dependency) : CacheFile :=
  let nm := Assembler.metadata (Assembler.start world.host ⟨0⟩) world.host
    (.method ⟨0⟩) false
  match ({ nm with dependencies := ds }).emit world.host {} with
  | .error _ _ => { buildIdentity := "" }
  | .ok blob space =>
    let f : CacheFile := { buildIdentity := "", space }
    match (f.containerFor (.capture {})).1.addVersion 0 0 "A.f()V" blob.bytes with
    | .error _ => f
    | .ok (f, _) => f

def twoFiles (ds ds' : List Dependency) : List Input :=
  [⟨"a.csa", file ds⟩, ⟨"b.csa", file ds'⟩]

def both : Group where
  fingerprint := .capture {}
  members := [(0, 0), (1, 0)]

def requires (l : Listing) (qs : List Requirement) : Bool :=
  match l.space.key l.index, l.versions with
  | .ok key, [.ok b] => key == method && isCountable l.space b &&
    match b.requirements l.space key with
    | .ok found => found == qs
    | .error _ => false
  | _, _ => false

theorem of_requires (ds ds' : List Dependency) (qs : List Requirement)
    (h : (listings (twoFiles ds ds') both).any (requires · qs) = true) :
    ∃ space b, Seen (twoFiles ds ds') both space method b ∧
      b.requirements space method = .ok qs := by
  rcases List.any_eq_true.mp h with ⟨l, hl, hqs⟩
  unfold requires at hqs
  split at hqs
  · rename_i key b hkey hversions
    rw [Bool.and_eq_true, Bool.and_eq_true, beq_iff_eq] at hqs
    rcases hqs with ⟨⟨rfl, hcount⟩, hqs⟩
    split at hqs
    · rename_i found hfound
      rw [beq_iff_eq] at hqs
      subst hqs
      refine ⟨l.space, b, ⟨l, hl, rfl, hkey, ?_, ?_⟩, hfound⟩
      · rw [hversions]
        exact List.mem_singleton_self _
      · exact ⟨0, [], isCountable_iff.mp hcount 0 []⟩
    · cases hqs
  · cases hqs

def only : Dependency :=
  { kind := .uniqueConcreteMethod, args := [0, 1] }

def evolved : Dependency :=
  { kind := .evolMethod, args := [1] }

def onlyBelowItself : Dependency :=
  { kind := .uniqueConcreteMethod, args := [1, 1] }

def requiresOnly : Requirement :=
  { kind := .uniqueConcreteMethod, args := [.implicit, .key method] }

def requiresEvolved : Requirement :=
  { kind := .evolMethod, args := [.key method] }

def requiresOnlyBelowItself : Requirement :=
  { kind := .uniqueConcreteMethod, args := [.key method, .key method] }

end Sample

section

open Sample

theorem sameDependencies_iff_requirements_of_reordered :
    ∃ space₁ b₁ space₂ b₂ ds₁ ds₂,
      b₁.requirements space₁ method = .ok [requiresOnly, requiresEvolved] ∧
      b₂.requirements space₂ method = .ok [requiresEvolved, requiresOnly] ∧
      Normalized (collect (twoFiles [only, evolved] [evolved, only]) both).keys
        space₁ method b₁ ds₁ ∧
      Normalized (collect (twoFiles [only, evolved] [evolved, only]) both).keys
        space₂ method b₂ ds₂ ∧
      MethodVersion.sameDependencies (MethodVersion.sorted ds₁)
        (MethodVersion.sorted ds₂) = true := by
  rcases of_requires [only, evolved] [evolved, only] [requiresOnly, requiresEvolved]
    (by decide +kernel) with ⟨space₁, b₁, hseen₁, hqs₁⟩
  rcases of_requires [only, evolved] [evolved, only] [requiresEvolved, requiresOnly]
    (by decide +kernel) with ⟨space₂, b₂, hseen₂, hqs₂⟩
  rcases sameDependencies_iff_requirements (by decide +kernel) hseen₁ hseen₂ with
    ⟨qs₁, qs₂, hqs₁', hqs₂', ⟨ds₁, hds₁⟩, ⟨ds₂, hds₂⟩, hsame⟩
  rw [hqs₁] at hqs₁'
  cases hqs₁'
  rw [hqs₂] at hqs₂'
  cases hqs₂'
  refine ⟨space₁, b₁, space₂, b₂, ds₁, ds₂, hqs₁, hqs₂, hds₁, hds₂, ?_⟩
  exact ((hsame ds₁ ds₂ hds₁ hds₂).2 (by decide +kernel)).mpr (.swap _ _ _)

/-- Different requirements of two blobs of a method, which is the first key of the
group, come to the same dependencies. -/
theorem sameDependencies_of_confused :
    ∃ space₁ b₁ space₂ b₂ ds₁ ds₂,
      Seen (twoFiles [only] [onlyBelowItself]) both space₁ method b₁ ∧
      Seen (twoFiles [only] [onlyBelowItself]) both space₂ method b₂ ∧
      b₁.requirements space₁ method = .ok [requiresOnly] ∧
      b₂.requirements space₂ method = .ok [requiresOnlyBelowItself] ∧
      ¬ [requiresOnly].Perm [requiresOnlyBelowItself] ∧
      Normalized (collect (twoFiles [only] [onlyBelowItself]) both).keys
        space₁ method b₁ ds₁ ∧
      Normalized (collect (twoFiles [only] [onlyBelowItself]) both).keys
        space₂ method b₂ ds₂ ∧
      MethodVersion.sameDependencies (MethodVersion.sorted ds₁)
        (MethodVersion.sorted ds₂) = true := by
  rcases of_requires [only] [onlyBelowItself] [requiresOnly] (by decide +kernel) with
    ⟨space₁, b₁, hseen₁, hqs₁⟩
  rcases of_requires [only] [onlyBelowItself] [requiresOnlyBelowItself]
    (by decide +kernel) with ⟨space₂, b₂, hseen₂, hqs₂⟩
  rcases normalized_of_seen hseen₁ with ⟨ds₁, hds₁⟩
  rcases normalized_of_seen hseen₂ with ⟨ds₂, hds₂⟩
  have hnodup := (collect_proper (twoFiles [only] [onlyBelowItself]) both).numbered.nodup
  have hperm := (hds₁.perm_iff hnodup (by decide +kernel) hds₂ hqs₁ hqs₂).mpr
    (by decide +kernel)
  refine ⟨space₁, b₁, space₂, b₂, ds₁, ds₂, hseen₁, hseen₂, hqs₁, hqs₂,
    by decide, hds₁, hds₂, ?_⟩
  rw [MethodVersion.sameDependencies_sorted_iff (MethodVersion.sorted_sorted ds₁)]
  exact (MethodVersion.perm_sorted ds₁).trans hperm

end

end Merge

end CodeCache
