import CodeCache.Host.World
import CodeCache.Proofs.Metadata.Interning
import Mathlib.Logic.Relation

/-!
# Histories of a metaspace

Entries are interned and resolved while classes and methods come and go. As long
as every change of an identity or a loader is announced before the next entry is
resolved, resolving answers what the key names now, whatever was resolved before.
-/

namespace CodeCache

/-!
## Keys and kinds
-/

namespace MetaKey

variable {host : Host} {key : MetaKey} {e : Entity}

theorem isMethod_of_of (h : MetaKey.of host e = .ok key) :
    key.name.isMethod = e.method?.isSome := by
  cases e with
  | klass k =>
      rw [of_klass h]
      rfl
  | method m =>
      rw [of_method h]
      rfl

theorem fits_of_of (h : MetaKey.of host e = .ok key) : key.fits host e = true := by
  cases e with
  | klass k =>
      rw [of_klass h]
      exact fits_iff.mpr ⟨rfl, rfl⟩
  | method m =>
      rw [of_method h]
      exact fits_iff.mpr ⟨rfl, rfl⟩

theorem isMethod_of_lookup (h : key.lookup host = some e) :
    key.name.isMethod = e.method?.isSome := by
  unfold lookup at h
  split at h
  · rename_i hname
    rw [Option.map_eq_some_iff] at h
    rcases h with ⟨k, -, rfl⟩
    rw [hname]
    rfl
  · rename_i hname
    rw [Option.bind_eq_some_iff] at h
    rcases h with ⟨k, -, hmethod⟩
    rw [Option.map_eq_some_iff] at hmethod
    rcases hmethod with ⟨m, -, rfl⟩
    rw [hname]
    rfl

theorem klass_iff_of_isMethod (h : key.name.isMethod = e.method?.isSome) :
    (∃ k, e = .klass k) ↔ ∃ name, key.name = .klass name := by
  cases e with
  | klass k =>
      cases hname : key.name with
      | klass name => exact ⟨fun _ => ⟨name, rfl⟩, fun _ => ⟨k, rfl⟩⟩
      | method holder name signature =>
          rw [hname] at h
          cases h
  | method m =>
      cases hname : key.name with
      | klass name =>
          rw [hname] at h
          cases h
      | method holder name signature =>
          constructor
          · rintro ⟨k, hk⟩
            cases hk
          · rintro ⟨name, hklass⟩
            cases hklass

end MetaKey

/-!
## One entry
-/

/-- What is true of an entry at all times. Without an entity it has no check, and
no check is from a later epoch. As long as there is room for all indices, it holds
an entity of the kind that its key names, and unless something changed that was not
announced yet, a check of the present epoch holds. -/
structure MetaEntry.Kept (host : Host) (epoch : Epoch) (pending : Bool)
    (room : Prop) (entry : MetaEntry) : Prop where
  cleared : entry.live = none → entry.checked = .never
  stamped : entry.Stamped epoch fun _ _ => True
  kind : room → ∀ e, entry.live = some e →
    entry.key.name.isMethod = e.method?.isSome
  sound : room → pending = false → entry.Sound host epoch fun _ _ => True

namespace MetaEntry

variable {host : Host} {epoch : Epoch} {pending : Bool} {room : Prop}
  {entry : MetaEntry}

theorem kept_of_key (host : Host) (epoch : Epoch) (pending : Bool) (room : Prop)
    (key : MetaKey) :
    Kept host epoch pending room { key } where
  cleared := fun _ => rfl
  stamped := (sound_of_key host epoch _ key).toStamped
  kind := by
    intro _ e he
    cases he
  sound := fun _ _ => sound_of_key host epoch _ key

theorem Kept.mono (h : entry.Kept host epoch pending room) {less : Prop}
    (hless : less → room) :
    entry.Kept host epoch pending less where
  cleared := h.cleared
  stamped := h.stamped
  kind := fun hroom => h.kind (hless hroom)
  sound := fun hroom => h.sound (hless hroom)

theorem Kept.evolve (h : entry.Kept host epoch pending room) {host' : Host}
    (hsame : ∀ e, entry.live = some e →
      host'.entityIdentity e = host.entityIdentity e ∧
        host'.entityLoader e = host.entityLoader e) :
    entry.Kept host' epoch pending room where
  cleared := h.cleared
  stamped := h.stamped
  kind := h.kind
  sound := by
    intro hroom hready
    have hsound := h.sound hroom hready
    have hheld : entry.Sound host epoch fun _ e => entry.live = some e :=
      ⟨⟨hsound.stamp_le, fun _ he => he⟩, hsound.current_fits⟩
    exact hheld.of_same (fun _ _ _ => trivial) fun _ => hsame

theorem Kept.change (h : entry.Kept host epoch pending room) (host' : Host) :
    entry.Kept host' epoch true room where
  cleared := h.cleared
  stamped := h.stamped
  kind := h.kind
  sound := by
    intro _ hready
    cases hready

theorem Kept.announce (h : entry.Kept host epoch pending room) :
    entry.Kept host epoch.advance false room where
  cleared := h.cleared
  stamped := (h.stamped.sound_advance host).toStamped
  kind := h.kind
  sound := fun _ _ => h.stamped.sound_advance host

theorem Kept.hold (h : entry.Kept host epoch pending room) {e : Entity}
    (hkey : room → MetaKey.of host e = .ok entry.key) :
    Kept host epoch pending room { entry with live := some e } where
  cleared := by
    intro hnone
    cases hnone
  stamped := ⟨h.stamped.stamp_le, fun _ _ => trivial⟩
  kind := by
    intro hroom e' he
    cases he
    exact MetaKey.isMethod_of_of (hkey hroom)
  sound := by
    intro hroom hready
    refine ⟨⟨h.stamped.stamp_le, fun _ _ => trivial⟩, ?_⟩
    intro e' he
    cases current?_of_checked he
    exact MetaKey.fits_of_of (hkey hroom)

/-- An entry is resolved to the entity that it holds, or to the one that its key
leads to; or it is not resolved, and holds nothing afterwards. -/
theorem resolveEntry_cases (host : Host) (epoch : Epoch) (entry : MetaEntry) :
    (∃ e stamp, entry.live = some e ∧
      (stamp = entry.checked ∨ stamp = .of epoch.value) ∧
      MetaSpace.resolveEntry host epoch entry =
        (.ok e, { entry with checked := stamp })) ∨
    (∃ e, entry.key.resolve host = .ok e ∧
      MetaSpace.resolveEntry host epoch entry =
        (.ok e, { entry with live := some e, checked := .of epoch.value })) ∨
    (∃ error, entry.key.resolve host = .error error ∧
      MetaSpace.resolveEntry host epoch entry =
        (.error error, { entry with
          live := none
          checked := if entry.live.isSome then .never else entry.checked })) := by
  fun_cases MetaSpace.resolveEntry host epoch entry with
  | case1 e hcurrent =>
      exact Or.inl ⟨e, _, current?_of_checked hcurrent, Or.inl rfl, rfl⟩
  | case2 hcurrent e hfits =>
      exact Or.inl ⟨e, _, (Option.filter_eq_some_iff.mp hfits).1, Or.inr rfl, rfl⟩
  | case3 hcurrent hfits cleared e hfound =>
      refine Or.inr (Or.inl ⟨e, hfound, ?_⟩)
      unfold cleared
      split <;> rfl
  | case4 hcurrent hfits cleared error hfound =>
      refine Or.inr (Or.inr ⟨error, hfound, ?_⟩)
      unfold cleared
      split
      · rfl
      · rename_i hsome
        rw [← Option.not_isSome_iff_eq_none.mp hsome]

theorem Kept.isMethod_answer (h : entry.Kept host epoch pending room)
    (hroom : room) {e : Entity}
    (hanswer : (MetaSpace.resolveEntry host epoch entry).1 = .ok e) :
    entry.key.name.isMethod = e.method?.isSome := by
  rcases resolveEntry_cases host epoch entry with ⟨held, stamp, hheld, -, heq⟩ |
    ⟨found, hfound, heq⟩ | ⟨error, -, heq⟩
  · rw [heq] at hanswer
    cases hanswer
    exact h.kind hroom e hheld
  · rw [heq] at hanswer
    cases hanswer
    exact MetaKey.isMethod_of_lookup (MetaKey.of_resolve hfound).1
  · rw [heq] at hanswer
    cases hanswer

theorem Kept.checked_eq_never (h : entry.Kept host epoch pending room)
    {error : Error}
    (hanswer : (MetaSpace.resolveEntry host epoch entry).1 = .error error) :
    (MetaSpace.resolveEntry host epoch entry).2.checked = .never := by
  rcases resolveEntry_cases host epoch entry with ⟨held, stamp, -, -, heq⟩ |
    ⟨found, -, heq⟩ | ⟨other, -, heq⟩
  · rw [heq] at hanswer
    cases hanswer
  · rw [heq] at hanswer
    cases hanswer
  · rw [heq]
    dsimp only
    split
    · rfl
    · rename_i hsome
      exact h.cleared (Option.not_isSome_iff_eq_none.mp hsome)

theorem Kept.resolve (h : entry.Kept host epoch false room) :
    (MetaSpace.resolveEntry host epoch entry).2.Kept host epoch false room := by
  have hsound : room →
      (MetaSpace.resolveEntry host epoch entry).2.Sound host epoch fun _ _ =>
        True :=
    fun hroom => (resolveEntry_sound (fun _ _ _ => trivial) (h.sound hroom rfl)).1
  rcases resolveEntry_cases host epoch entry with
    ⟨held, stamp, hheld, hstamp, heq⟩ | ⟨found, -, heq⟩ | ⟨error, -, heq⟩
  · rw [heq] at hsound ⊢
    refine ⟨?_, ⟨?_, fun _ _ => trivial⟩, h.kind, fun hroom _ => hsound hroom⟩
    · intro hnone
      rw [hheld] at hnone
      cases hnone
    · rcases hstamp with rfl | rfl
      · exact h.stamped.stamp_le
      · exact Nat.le_refl _
  · have hkind := fun hroom => h.isMethod_answer hroom (congrArg Prod.fst heq)
    rw [heq] at hsound ⊢
    refine ⟨?_, ⟨Nat.le_refl _, fun _ _ => trivial⟩, ?_, fun hroom _ => hsound hroom⟩
    · intro hnone
      cases hnone
    · intro hroom e he
      cases he
      exact hkind hroom
  · have hnever := h.checked_eq_never (congrArg Prod.fst heq)
    rw [heq] at hsound hnever ⊢
    refine ⟨fun _ => hnever, ⟨?_, fun _ _ => trivial⟩, ?_, fun hroom _ => hsound hroom⟩
    · rw [hnever]
      exact Nat.zero_le _
    · intro _ e he
      cases he

theorem resolveEntry_of_lookup (epoch : Epoch) {e : Entity}
    (hlookup : entry.key.lookup host = some e)
    (hidentity : host.entityIdentity e = entry.key.identity)
    (hloader : host.entityLoader e = entry.key.loader) :
    ∃ live, (MetaSpace.resolveEntry host epoch entry).1 = .ok live := by
  rcases resolveEntry_cases host epoch entry with ⟨held, stamp, -, -, heq⟩ |
    ⟨found, -, heq⟩ | ⟨error, hfound, -⟩
  · rw [heq]
    exact ⟨held, rfl⟩
  · rw [heq]
    exact ⟨found, rfl⟩
  · rw [MetaKey.resolve_of_lookup hlookup hidentity hloader] at hfound
    cases hfound

end MetaEntry

/-!
## The whole space
-/

namespace MetaSpace

def after {α : Type} (work : InSpace α) (space : MetaSpace) : MetaSpace :=
  match work space with
  | .ok _ space' => space'
  | .error _ space' => space'

variable {host : Host} {epoch : Epoch} {space : MetaSpace}

theorem entries_setEntry {index : UInt32} {entry : MetaEntry}
    (hentry : space.entry? index = some entry) (f : MetaEntry → MetaEntry) :
    (space.setEntry index (f entry)).entries =
      space.entries.modify index.toNat f := by
  unfold entry? at hentry
  unfold setEntry
  rw [List.modify_eq_set_getElem?, hentry]
  rfl

theorem entries_of_none {index : UInt32} (hentry : space.entry? index = none)
    (f : MetaEntry → MetaEntry) :
    space.entries.modify index.toNat f = space.entries := by
  unfold entry? at hentry
  rw [List.modify_eq_set_getElem?, hentry]
  rfl

theorem entries_after_resolve (host : Host) (epoch : Epoch) (index : UInt32)
    (space : MetaSpace) :
    (after (resolve host epoch index) space).entries =
      space.entries.modify index.toNat fun entry =>
        (resolveEntry host epoch entry).2 := by
  unfold after
  rw [resolve_apply]
  cases hentry : space.entry? index with
  | none => exact (entries_of_none hentry _).symm
  | some entry =>
      dsimp only
      rw [← entries_setEntry hentry fun entry => (resolveEntry host epoch entry).2]
      cases (resolveEntry host epoch entry).1 with
      | ok e => rfl
      | error error => rfl

theorem entry?_after_resolve (host : Host) (epoch : Epoch) (index : UInt32)
    (space : MetaSpace) {j : UInt32} (hne : j ≠ index) :
    entry? (after (resolve host epoch index) space) j = space.entry? j := by
  unfold entry?
  rw [entries_after_resolve]
  refine List.getElem?_modify_ne _ _ ?_
  intro heq
  exact hne (UInt32.toNat_inj.mp heq).symm

theorem of_resolve_ok {index : UInt32} {e : Entity} {space' : MetaSpace}
    (h : resolve host epoch index space = .ok e space') :
    ∃ entry, space.entry? index = some entry ∧
      (resolveEntry host epoch entry).1 = .ok e := by
  rw [resolve_apply] at h
  cases hentry : space.entry? index with
  | none =>
      rw [hentry] at h
      cases h
  | some entry =>
      rw [hentry] at h
      dsimp only at h
      cases hanswer : (resolveEntry host epoch entry).1 with
      | ok live =>
          rw [hanswer] at h
          cases h
          exact ⟨entry, rfl, hanswer⟩
      | error error =>
          rw [hanswer] at h
          cases h

theorem entry?_of_key {index : UInt32} {key : MetaKey}
    (h : space.key index = .ok key) :
    ∃ entry, space.entry? index = some entry ∧ entry.key = key := by
  unfold MetaSpace.key at h
  cases hentry : space.entry? index with
  | none =>
      rw [hentry] at h
      cases h
  | some entry =>
      rw [hentry] at h
      cases h
      exact ⟨entry, rfl, rfl⟩

theorem entries_internKey (space : MetaSpace) (key : MetaKey) {n : Nat}
    {entry : MetaEntry}
    (h : (space.internKey key).1.entries[n]? = some entry) :
    space.entries[n]? = some entry ∨
      space.entries[n]? = none ∧ entry = { key := entry.key } := by
  rcases internKey_cases space key with ⟨m, -, hintern⟩ | ⟨-, hintern⟩
  · rw [hintern] at h
    exact Or.inl h
  · rw [hintern] at h
    rcases Nat.lt_or_ge n space.entries.length with hlt | hge
    · rw [List.getElem?_append_left hlt] at h
      exact Or.inl h
    · rw [List.getElem?_append_right hge] at h
      refine Or.inr ⟨List.getElem?_eq_none hge, ?_⟩
      cases List.mem_singleton.mp (List.mem_of_getElem? h)
      rfl

theorem after_intern_cases (host : Host) (e : Entity) (space : MetaSpace) :
    after (intern host e) space = space ∨
    ∃ key, MetaKey.of host e = .ok key ∧
      (after (intern host e) space).entries =
        (space.internKey key).1.entries.modify (space.internKey key).2.toNat
          fun entry => { entry with live := some e } := by
  unfold after intern
  rw [run_get_bind]
  dsimp only
  cases space.interned.lookup e with
  | some index => exact Or.inl rfl
  | none =>
      cases hkey : MetaKey.of host e with
      | error error => exact Or.inl rfl
      | ok key =>
          refine Or.inr ⟨key, rfl, ?_⟩
          dsimp only
          rw [run_set_bind]
          dsimp only [pure, EStateM.pure]
          split
          · rename_i entry hentry
            exact entries_setEntry hentry fun entry => { entry with live := some e }
          · rename_i hentry
            exact (entries_of_none hentry _).symm

/-- Interning an entity changes one entry, which may be a new one. With room for all
indices, it is the entry with the key of the entity. -/
theorem entries_after_intern (host : Host) (e : Entity) {space : MetaSpace}
    {n : Nat} {entry' : MetaEntry}
    (h : (after (intern host e) space).entries[n]? = some entry') :
    ∃ entry, (space.entries[n]? = some entry ∨
        space.entries[n]? = none ∧ entry = { key := entry.key }) ∧
      (entry' = entry ∨ entry' = { entry with live := some e } ∧
        ((after (intern host e) space).size ≤ 2 ^ 32 →
          MetaKey.of host e = .ok entry.key)) := by
  rcases after_intern_cases host e space with hsame | ⟨key, hkey, hentries⟩
  · rw [hsame] at h
    exact ⟨entry', Or.inl h, Or.inl rfl⟩
  · rw [hentries, List.getElem?_modify] at h
    rcases Option.map_eq_some_iff.mp h with ⟨entry, hentry, heq⟩
    refine ⟨entry, entries_internKey space key hentry, ?_⟩
    split at heq
    · rename_i hindex
      refine Or.inr ⟨heq.symm, ?_⟩
      intro hroom
      have hsize : (space.internKey key).1.keys.length ≤ 2 ^ 32 := by
        unfold keys
        unfold size at hroom
        rw [hentries, List.length_modify] at hroom
        rw [List.length_map]
        exact hroom
      have hat := (keyAt_internKey space key).getElem?_eq hsize
      unfold keys at hat
      rw [hindex, List.getElem?_map, hentry] at hat
      rw [hkey, ← Option.some.inj hat]
    · exact Or.inl heq.symm

theorem size_le_internKey (space : MetaSpace) (key : MetaKey) :
    space.size ≤ (space.internKey key).1.size := by
  have hprefix := (keys_prefix_internKey space key).length_le
  unfold keys at hprefix
  rw [List.length_map, List.length_map] at hprefix
  exact hprefix

theorem size_le_after_intern (host : Host) (e : Entity) (space : MetaSpace) :
    space.size ≤ (after (intern host e) space).size := by
  rcases after_intern_cases host e space with hsame | ⟨key, -, hentries⟩
  · rw [hsame]
  · refine Nat.le_trans (size_le_internKey space key) (Nat.le_of_eq ?_)
    unfold size
    rw [hentries, List.length_modify]

theorem size_after_resolve (host : Host) (epoch : Epoch) (index : UInt32)
    (space : MetaSpace) :
    (after (resolve host epoch index) space).size = space.size := by
  unfold size
  rw [entries_after_resolve, List.length_modify]

end MetaSpace

/-!
## Sessions

What happens to a metaspace while its process runs. The host is free to change at
any time. What an entry holds keeps its identity and loader, or the change is
announced before the next entry is resolved.
-/

structure Session where
  host : Host
  epoch : Epoch
  space : MetaSpace
  /-- An identity or a loader changed, and the epoch was not advanced yet. -/
  pending : Bool

namespace Session

def start (host : Host) (space : MetaSpace) : Session where
  host := host
  epoch := {}
  space := space
  pending := false

/-- One step of a history; the label is the index that was resolved, if one was. -/
inductive Step : Session → Option UInt32 → Session → Prop where
  | evolve (s : Session) (host : Host)
      (hsame : ∀ entry ∈ s.space.entries, ∀ e, entry.live = some e →
        host.entityIdentity e = s.host.entityIdentity e ∧
          host.entityLoader e = s.host.entityLoader e) :
      Step s none { s with host }
  | change (s : Session) (host : Host) :
      Step s none { s with host, pending := true }
  | announce (s : Session) :
      Step s none { s with epoch := s.epoch.advance, pending := false }
  | internKey (s : Session) (key : MetaKey) :
      Step s none { s with space := (s.space.internKey key).1 }
  | intern (s : Session) (e : Entity) :
      Step s none
        { s with space := MetaSpace.after (MetaSpace.intern s.host e) s.space }
  | resolve (s : Session) (hready : s.pending = false) (i : UInt32) {e : Entity}
      {space : MetaSpace}
      (h : MetaSpace.resolve s.host s.epoch i s.space = .ok e space) :
      Step s (some i) { s with space }
  | fail (s : Session) (hready : s.pending = false) (i : UInt32) {error : Error}
      {space : MetaSpace}
      (h : MetaSpace.resolve s.host s.epoch i s.space = .error error space) :
      Step s none { s with space }

/-- What a history leads to in which no step has one of the labels. -/
def ReachesWithout (label : Option UInt32 → Prop) : Session → Session → Prop :=
  Relation.ReflTransGen fun s t => ∃ l, ¬ label l ∧ Step s l t

def Reachable (s : Session) : Prop :=
  ∃ host space, space.Fresh ∧
    ReachesWithout (fun _ => False) (start host space) s

/-- Every entry has an index of its own: there are 2^32 of them. -/
def HasRoom (s : Session) : Prop :=
  s.space.size ≤ 2 ^ 32

structure Kept (s : Session) : Prop where
  epoch_pos : 0 < s.epoch.value
  entries_kept : ∀ entry ∈ s.space.entries,
    entry.Kept s.host s.epoch s.pending s.HasRoom

theorem kept_start (host : Host) {space : MetaSpace} (h : space.Fresh) :
    (start host space).Kept where
  epoch_pos := Nat.zero_lt_one
  entries_kept := by
    intro entry hentry
    rw [h entry hentry]
    exact MetaEntry.kept_of_key _ _ _ _ _

theorem Kept.after_resolve {s : Session} (h : s.Kept) (hready : s.pending = false)
    (i : UInt32) :
    { s with
      space := MetaSpace.after (MetaSpace.resolve s.host s.epoch i)
        s.space }.Kept := by
  refine ⟨h.epoch_pos, ?_⟩
  intro entry' hmem
  rw [MetaSpace.entries_after_resolve] at hmem
  rcases List.getElem?_of_mem hmem with ⟨n, hn⟩
  rw [List.getElem?_modify] at hn
  rcases Option.map_eq_some_iff.mp hn with ⟨entry, hentry, rfl⟩
  have hkept := h.entries_kept entry (List.mem_of_getElem? hentry)
  have hroom : MetaEntry.Kept s.host s.epoch s.pending s.HasRoom
      (if i.toNat = n then (MetaSpace.resolveEntry s.host s.epoch entry).2
        else entry) := by
    split
    · rw [hready] at hkept ⊢
      exact hkept.resolve
    · exact hkept
  refine hroom.mono ?_
  unfold HasRoom
  rw [MetaSpace.size_after_resolve]
  exact id

theorem Step.kept {s t : Session} {label : Option UInt32} (hstep : Step s label t)
    (h : s.Kept) :
    t.Kept := by
  cases hstep with
  | evolve host hsame =>
      refine ⟨h.epoch_pos, ?_⟩
      intro entry hentry
      exact (h.entries_kept entry hentry).evolve (hsame entry hentry)
  | change host =>
      refine ⟨h.epoch_pos, ?_⟩
      intro entry hentry
      exact (h.entries_kept entry hentry).change host
  | announce =>
      refine ⟨Nat.lt_of_lt_of_le h.epoch_pos (Nat.le_add_right _ _), ?_⟩
      intro entry hentry
      exact (h.entries_kept entry hentry).announce
  | internKey key =>
      refine ⟨h.epoch_pos, ?_⟩
      intro entry hentry
      rcases List.getElem?_of_mem hentry with ⟨n, hn⟩
      rcases MetaSpace.entries_internKey s.space key hn with hold | ⟨-, hnew⟩
      · refine (h.entries_kept entry (List.mem_of_getElem? hold)).mono ?_
        exact Nat.le_trans (MetaSpace.size_le_internKey s.space key)
      · rw [hnew]
        exact MetaEntry.kept_of_key _ _ _ _ _
  | intern e =>
      refine ⟨h.epoch_pos, ?_⟩
      intro entry' hentry'
      rcases List.getElem?_of_mem hentry' with ⟨n, hn⟩
      rcases MetaSpace.entries_after_intern s.host e hn with
        ⟨entry, hentry, hchange⟩
      have hkept : entry.Kept s.host s.epoch s.pending
          ((MetaSpace.after (MetaSpace.intern s.host e) s.space).size ≤ 2 ^ 32) := by
        rcases hentry with hold | ⟨-, hnew⟩
        · refine (h.entries_kept entry (List.mem_of_getElem? hold)).mono ?_
          exact Nat.le_trans (MetaSpace.size_le_after_intern s.host e s.space)
        · rw [hnew]
          exact MetaEntry.kept_of_key _ _ _ _ _
      rcases hchange with rfl | ⟨rfl, hkey⟩
      · exact hkept
      · exact hkept.hold hkey
  | resolve hready i hrun =>
      have hafter := h.after_resolve hready i
      unfold MetaSpace.after at hafter
      rw [hrun] at hafter
      exact hafter
  | fail hready i hrun =>
      have hafter := h.after_resolve hready i
      unfold MetaSpace.after at hafter
      rw [hrun] at hafter
      exact hafter

theorem Reachable.kept {s : Session} (h : s.Reachable) : s.Kept := by
  rcases h with ⟨host, space, hfresh, hreaches⟩
  induction hreaches with
  | refl => exact kept_start host hfresh
  | tail _ hstep ih =>
      rcases hstep with ⟨_, _, hstep⟩
      exact hstep.kept ih

/-!
## Entries that could not be resolved
-/

def Unchecked (i : UInt32) (s : Session) : Prop :=
  ∀ entry, s.space.entry? i = some entry → entry.checked = .never

theorem Unchecked.resolved?_eq {i : UInt32} {s : Session} (h : s.Unchecked i)
    (hkept : s.Kept) :
    s.space.resolved? s.epoch i = none := by
  unfold MetaSpace.resolved?
  cases hentry : s.space.entry? i with
  | none => rfl
  | some entry =>
      have hpos := hkept.epoch_pos
      show entry.current? s.epoch = none
      unfold MetaEntry.current? Stamp.isCurrent
      rw [h entry hentry, if_neg]
      rw [beq_iff_eq]
      exact Nat.ne_of_lt hpos

theorem unchecked_of_fail {i : UInt32} {s : Session} (hkept : s.Kept)
    {error : Error} {space : MetaSpace}
    (h : MetaSpace.resolve s.host s.epoch i s.space = .error error space) :
    { s with space }.Unchecked i := by
  intro entry' hentry'
  change space.entry? i = some entry' at hentry'
  rw [MetaSpace.resolve_apply] at h
  cases hentry : s.space.entry? i with
  | none =>
      rw [hentry] at h
      cases h
      rw [hentry] at hentry'
      cases hentry'
  | some entry =>
      rw [hentry] at h
      dsimp only at h
      cases hanswer : (MetaSpace.resolveEntry s.host s.epoch entry).1 with
      | ok e =>
          rw [hanswer] at h
          cases h
      | error error =>
          rw [hanswer] at h
          cases h
          have hlt := (List.getElem?_eq_some_iff.mp hentry).1
          unfold MetaSpace.entry? MetaSpace.setEntry at hentry'
          rw [List.getElem?_set_self hlt] at hentry'
          cases hentry'
          exact (hkept.entries_kept entry
            (List.mem_of_getElem? hentry)).checked_eq_never hanswer

theorem Step.unchecked {i : UInt32} {s t : Session} {label : Option UInt32}
    (hstep : Step s label t) (hlabel : label ≠ some i) (hkept : s.Kept)
    (h : s.Unchecked i) :
    t.Unchecked i := by
  cases hstep with
  | evolve host hsame => exact h
  | change host => exact h
  | announce => exact h
  | internKey key =>
      intro entry hentry
      rcases MetaSpace.entries_internKey s.space key hentry with hold | ⟨-, hnew⟩
      · exact h entry hold
      · rw [hnew]
        rfl
  | intern e =>
      intro entry' hentry'
      rcases MetaSpace.entries_after_intern s.host e hentry' with
        ⟨entry, hentry, hchange⟩
      have hnever : entry.checked = .never := by
        rcases hentry with hold | ⟨-, hnew⟩
        · exact h entry hold
        · rw [hnew]
          rfl
      rcases hchange with rfl | ⟨rfl, -⟩
      · exact hnever
      · exact hnever
  | @resolve hready j e space hrun =>
      have hne : i ≠ j := fun heq => hlabel (congrArg some heq.symm)
      have hsame := MetaSpace.entry?_after_resolve s.host s.epoch j s.space hne
      unfold MetaSpace.after at hsame
      rw [hrun] at hsame
      intro entry hentry
      exact h entry (hsame ▸ hentry)
  | @fail hready j error space hrun =>
      rcases eq_or_ne i j with rfl | hne
      · exact unchecked_of_fail hkept hrun
      · have hsame := MetaSpace.entry?_after_resolve s.host s.epoch j s.space hne
        unfold MetaSpace.after at hsame
        rw [hrun] at hsame
        intro entry hentry
        exact h entry (hsame ▸ hentry)

theorem Unchecked.of_reaches {i : UInt32} {s t : Session}
    (hreaches : ReachesWithout (· = some i) s t) (hkept : s.Kept)
    (h : s.Unchecked i) :
    t.Kept ∧ t.Unchecked i := by
  induction hreaches with
  | refl => exact ⟨hkept, h⟩
  | tail _ hstep ih =>
      rcases hstep with ⟨label, hlabel, hstep⟩
      exact ⟨hstep.kept ih.1, hstep.unchecked hlabel ih.1 ih.2⟩

/-!
## What resolving answers
-/

/-- In every session in which all changes are announced, resolving an index answers
an entity with the identity, the loader and the kind of the key, and it answers one
whenever the key leads to one. An entry that could not be resolved is not resolved
until resolving it succeeds, and other entries stay as they are. Only the first of
this needs room: an index that wraps around tells another entry. -/
theorem resolve_answers_key {s : Session} (h : s.Reachable)
    (hready : s.pending = false) (i : UInt32) :
    (s.HasRoom → ∀ e space,
      MetaSpace.resolve s.host s.epoch i s.space = .ok e space →
      ∃ key, s.space.key i = .ok key ∧
        s.host.entityIdentity e = key.identity ∧
        s.host.entityLoader e = key.loader ∧
        ((∃ k, e = .klass k) ↔ ∃ name, key.name = .klass name)) ∧
    (∀ key e, s.space.key i = .ok key → key.lookup s.host = some e →
      s.host.entityIdentity e = key.identity →
      s.host.entityLoader e = key.loader →
      ∃ live space,
        MetaSpace.resolve s.host s.epoch i s.space = .ok live space) ∧
    (∀ error space t,
      MetaSpace.resolve s.host s.epoch i s.space = .error error space →
      ReachesWithout (· = some i) { s with space } t →
      t.space.resolved? t.epoch i = none) ∧
    ∀ j ≠ i, MetaSpace.entry?
      (MetaSpace.after (MetaSpace.resolve s.host s.epoch i) s.space) j =
        s.space.entry? j := by
  have hkept := h.kept
  refine ⟨?_, ?_, ?_, ?_⟩
  · intro hroom e space hrun
    rcases MetaSpace.of_resolve_ok hrun with ⟨entry, hentry, hanswer⟩
    have hentryKept := hkept.entries_kept entry (List.mem_of_getElem? hentry)
    have hfits := (MetaEntry.resolveEntry_sound (fun _ _ _ => trivial)
      (hentryKept.sound hroom hready)).2.2 e hanswer
    rcases MetaKey.fits_iff.mp hfits.2 with ⟨hidentity, hloader⟩
    refine ⟨entry.key, ?_, hidentity, hloader,
      MetaKey.klass_iff_of_isMethod (hentryKept.isMethod_answer hroom hanswer)⟩
    unfold MetaSpace.key
    rw [hentry]
  · intro key e hkey hlookup hidentity hloader
    rcases MetaSpace.entry?_of_key hkey with ⟨entry, hentry, rfl⟩
    rcases MetaEntry.resolveEntry_of_lookup s.epoch hlookup hidentity hloader with
      ⟨live, hanswer⟩
    rw [MetaSpace.resolve_apply, hentry]
    dsimp only
    rw [hanswer]
    exact ⟨live, _, rfl⟩
  · intro error space t hrun hreaches
    have hafter : { s with space }.Kept := Step.kept (.fail s hready i hrun) hkept
    rcases (unchecked_of_fail hkept hrun).of_reaches hreaches hafter with
      ⟨hkept', hunchecked⟩
    exact hunchecked.resolved?_eq hkept'
  · intro j hne
    exact MetaSpace.entry?_after_resolve s.host s.epoch i s.space hne

/-!
A class is interned, resolved and redefined. Its entry cannot be resolved as long
as the other definition is there, and can be again when the first one is back.
-/

theorem Reachable.step {s t : Session} {label : Option UInt32} (h : s.Reachable)
    (hstep : Step s label t) :
    t.Reachable := by
  rcases h with ⟨host, space, hfresh, hreaches⟩
  exact ⟨host, space, hfresh, hreaches.tail ⟨label, not_false, hstep⟩⟩

theorem Reachable.resolve {s : Session} (h : s.Reachable)
    (hready : s.pending = false) (i : UInt32) :
    { s with
      space := MetaSpace.after (MetaSpace.resolve s.host s.epoch i)
        s.space }.Reachable := by
  unfold MetaSpace.after
  cases hrun : MetaSpace.resolve s.host s.epoch i s.space with
  | ok e space => exact h.step (.resolve s hready i hrun)
  | error error space => exact h.step (.fail s hready i hrun)

namespace Redefinition

def world : World :=
  ((World.empty 0).defineClass { name := "A", loader := .app }).1

def interned : Session :=
  { start world.host {} with
    space := MetaSpace.after (MetaSpace.intern world.host (.klass ⟨0⟩)) {} }

def resolved : Session :=
  { interned with
    space := MetaSpace.after (MetaSpace.resolve interned.host interned.epoch 0)
      interned.space }

def redefined : Session :=
  { resolved with
    host := (world.redefineClass ⟨0⟩ 7).host
    epoch := resolved.epoch.advance }

def restored : Session :=
  { redefined with
    host := world.host
    epoch := redefined.epoch.advance
    space := MetaSpace.after (MetaSpace.resolve redefined.host redefined.epoch 0)
      redefined.space }

theorem reachable_redefined : redefined.Reachable := by
  have hstart : (start world.host {}).Reachable := by
    refine ⟨world.host, {}, ?_, .refl⟩
    intro entry hentry
    cases hentry
  have hinterned : interned.Reachable :=
    hstart.step (.intern _ (.klass ⟨0⟩))
  have hresolved : resolved.Reachable := hinterned.resolve rfl 0
  exact (hresolved.step (.change _ (world.redefineClass ⟨0⟩ 7).host)).step
    (.announce _)

theorem reachable_restored : restored.Reachable :=
  ((reachable_redefined.resolve rfl 0).step (.change _ world.host)).step
    (.announce _)

theorem key_restored : restored.space.key 0 =
    .ok ⟨.klass "A", World.nameIdentity "A", .app⟩ :=
  MetaSpace.key_eq_ok_iff.mpr (by decide +kernel)

def fails (s : Session) (i : UInt32) : Bool :=
  match MetaSpace.resolve s.host s.epoch i s.space with
  | .ok _ _ => false
  | .error _ _ => true

theorem fails_redefined : fails redefined 0 = true := by
  decide +kernel

end Redefinition

theorem resolve_answers_key_of_redefined :
    (∃ error space,
      MetaSpace.resolve Redefinition.redefined.host Redefinition.redefined.epoch 0
        Redefinition.redefined.space = .error error space ∧
      space.resolved? Redefinition.redefined.epoch.advance 0 = none) ∧
    ∃ k space,
      MetaSpace.resolve Redefinition.restored.host Redefinition.restored.epoch 0
        Redefinition.restored.space = .ok (.klass k) space := by
  constructor
  · have hfails := Redefinition.fails_redefined
    unfold Redefinition.fails at hfails
    cases hrun : MetaSpace.resolve Redefinition.redefined.host
        Redefinition.redefined.epoch 0 Redefinition.redefined.space with
    | ok e space =>
        rw [hrun] at hfails
        cases hfails
    | error error space =>
        refine ⟨error, space, rfl, ?_⟩
        exact (resolve_answers_key Redefinition.reachable_redefined rfl 0).2.2.1
          error space _ hrun
          (.single ⟨none, nofun, .announce _⟩)
  · rcases resolve_answers_key Redefinition.reachable_restored rfl 0 with
      ⟨hanswer, hcomplete, -, -⟩
    have hkey := Redefinition.key_restored
    rcases hcomplete _ (.klass ⟨0⟩) hkey (by decide +kernel) (by decide +kernel)
      (by decide +kernel) with ⟨live, space, hrun⟩
    have hroom : Redefinition.restored.HasRoom := by
      unfold HasRoom
      decide +kernel
    rcases hanswer hroom live space hrun with ⟨key, hkey', -, -, hkind⟩
    rw [hkey] at hkey'
    cases hkey'
    rcases hkind.mpr ⟨"A", rfl⟩ with ⟨k, rfl⟩
    exact ⟨k, space, hrun⟩

end Session

end CodeCache
