import CodeCache.Proofs.Metadata.Resolution
import CodeCache.Proofs.Metadata.Storage
import Mathlib.Data.List.Induction
import Mathlib.Data.List.Nodup

/-!
# Interning

Interning only appends keys, and an interned entity keeps the index of its key.
What is said of an index can therefore be said of the keys at the end of all
interning.
-/

namespace CodeCache

theorem getElem?_of_prefix_lt {α : Type} {xs ys : List α} (h : xs <+: ys) {n : Nat}
    (hn : n < xs.length) : xs[n]? = ys[n]? := by
  rcases h with ⟨rest, rfl⟩
  exact (List.getElem?_append_left hn).symm

/-- A key stands at an index. Indices wrap around in a list that is too long. -/
def KeyAt (keys : List MetaKey) (index : UInt32) (key : MetaKey) : Prop :=
  ∃ n, keys[n]? = some key ∧ UInt32.ofNat n = index

namespace KeyAt

variable {keys : List MetaKey} {index : UInt32} {key : MetaKey}

theorem mono {more : List MetaKey} (h : KeyAt keys index key)
    (hmore : keys <+: more) :
    KeyAt more index key := by
  rcases h with ⟨n, hn, hindex⟩
  have hlt := (List.getElem?_eq_some_iff.mp hn).1
  exact ⟨n, (getElem?_of_prefix_lt hmore hlt).symm.trans hn, hindex⟩

theorem getElem?_eq (h : KeyAt keys index key) (hsize : keys.length ≤ 2 ^ 32) :
    keys[index.toNat]? = some key := by
  rcases h with ⟨n, hn, rfl⟩
  have hlt := (List.getElem?_eq_some_iff.mp hn).1
  rw [UInt32.toNat_ofNat_of_lt' (show n < 2 ^ 32 by omega)]
  exact hn

theorem index_unique {i j : UInt32} (h : KeyAt keys i key)
    (h' : KeyAt keys j key) (hdistinct : keys.Nodup) :
    i = j := by
  rcases h with ⟨n, hn, rfl⟩
  rcases h' with ⟨m, hm, rfl⟩
  have hlt := (List.getElem?_eq_some_iff.mp hn).1
  rw [(List.getElem?_inj hlt hdistinct).mp (hn.trans hm.symm)]

theorem mem (h : KeyAt keys index key) : key ∈ keys := by
  rcases h with ⟨n, hn, -⟩
  exact List.mem_of_getElem? hn

end KeyAt

namespace MetaKey

def addTo (keys : List MetaKey) (key : MetaKey) : List MetaKey :=
  if key ∈ keys then keys else keys ++ [key]

/-- The keys with more at the end, each where it is mentioned first. -/
def addAllTo (keys more : List MetaKey) : List MetaKey :=
  more.foldl addTo keys

variable {keys more : List MetaKey} {key other : MetaKey}

theorem addTo_of_mem (h : key ∈ keys) : addTo keys key = keys :=
  if_pos h

theorem addTo_of_not_mem (h : key ∉ keys) : addTo keys key = keys ++ [key] :=
  if_neg h

theorem mem_addTo : other ∈ addTo keys key ↔ other ∈ keys ∨ other = key := by
  by_cases h : key ∈ keys
  · rw [addTo_of_mem h]
    constructor
    · exact Or.inl
    · rintro (hold | rfl)
      · exact hold
      · exact h
  · rw [addTo_of_not_mem h, List.mem_append, List.mem_singleton]

theorem prefix_addTo (keys : List MetaKey) (key : MetaKey) :
    keys <+: addTo keys key := by
  unfold addTo
  split
  · exact List.prefix_refl keys
  · exact List.prefix_append keys [key]

theorem nodup_addTo (h : keys.Nodup) (key : MetaKey) : (addTo keys key).Nodup := by
  by_cases hmem : key ∈ keys
  · rwa [addTo_of_mem hmem]
  · rw [addTo_of_not_mem hmem, ← List.concat_eq_append]
    exact List.Nodup.concat hmem h

theorem addAllTo_append (keys more last : List MetaKey) :
    addAllTo keys (more ++ last) = addAllTo (addAllTo keys more) last :=
  List.foldl_append

theorem prefix_addAllTo (keys more : List MetaKey) :
    keys <+: addAllTo keys more := by
  induction more generalizing keys with
  | nil => exact List.prefix_refl keys
  | cons key more ih => exact (prefix_addTo keys key).trans (ih _)

theorem nodup_addAllTo (h : keys.Nodup) (more : List MetaKey) :
    (addAllTo keys more).Nodup := by
  induction more generalizing keys with
  | nil => exact h
  | cons key more ih => exact ih (nodup_addTo h key)

theorem mem_addAllTo :
    other ∈ addAllTo keys more ↔ other ∈ keys ∨ other ∈ more := by
  induction more generalizing keys with
  | nil => simp [addAllTo]
  | cons key more ih =>
      rw [show addAllTo keys (key :: more) = addAllTo (addTo keys key) more
        from rfl, ih, mem_addTo, List.mem_cons, or_assoc]

theorem addAllTo_addAllTo_nil (keys more : List MetaKey) :
    addAllTo keys (addAllTo [] more) = addAllTo keys more := by
  induction more using List.reverseRecOn with
  | nil => rfl
  | append_singleton more key ih =>
      rw [addAllTo_append, addAllTo_append]
      change addAllTo keys (addTo (addAllTo [] more) key) =
        addTo (addAllTo keys more) key
      by_cases hmem : key ∈ addAllTo [] more
      · rw [addTo_of_mem hmem, ih, addTo_of_mem]
        rw [mem_addAllTo] at hmem ⊢
        exact Or.inr (hmem.resolve_left List.not_mem_nil)
      · rw [addTo_of_not_mem hmem, addAllTo_append, ih]
        rfl

end MetaKey

namespace MetaSpace

theorem key_eq (space : MetaSpace) (index : UInt32) :
    space.key index =
      match space.keys[index.toNat]? with
      | some key => .ok key
      | none => .error (.corruption (.metaIndex index space.keys.length)) := by
  rw [length_keys]
  unfold MetaSpace.key entry? keys
  rw [List.getElem?_map]
  cases space.entries[index.toNat]? <;> rfl

theorem key_congr {space space' : MetaSpace}
    (h : space'.keys = space.keys) (index : UInt32) :
    space'.key index = space.key index := by
  rw [key_eq, key_eq, h]

theorem key_eq_ok_iff {space : MetaSpace} {index : UInt32} {key : MetaKey} :
    space.key index = .ok key ↔ space.keys[index.toNat]? = some key := by
  rw [key_eq]
  cases space.keys[index.toNat]? <;> simp

theorem internKey_cases (space : MetaSpace) (key : MetaKey) :
    (∃ n, space.keys[n]? = some key ∧
      space.internKey key = (space, UInt32.ofNat n)) ∨
    (key ∉ space.keys ∧ space.internKey key =
      ({ space with entries := space.entries ++ [{ key }] },
        UInt32.ofNat space.size)) := by
  by_cases hmem : key ∈ space.keys
  · apply Or.inl
    unfold internKey find
    cases hfound : space.entries.findIdx? (·.key == key) with
    | none =>
        rcases List.mem_map.mp hmem with ⟨entry, hentry, hkey⟩
        have hne := List.findIdx?_eq_none_iff.mp hfound entry hentry
        rw [hkey, beq_self_eq_true] at hne
        cases hne
    | some n =>
        rcases List.findIdx?_eq_some_iff_getElem.mp hfound with
          ⟨hlt, hkey, _⟩
        refine ⟨n, ?_, rfl⟩
        unfold keys
        rw [List.getElem?_map, List.getElem?_eq_getElem hlt]
        exact congrArg some (beq_iff_eq.mp hkey)
  · exact Or.inr ⟨hmem, internKey_of_new hmem⟩

theorem keys_append (space : MetaSpace) (key : MetaKey) :
    keys { space with entries := space.entries ++ [{ key }] } =
      space.keys ++ [key] := by
  unfold keys
  rw [List.map_append]
  rfl

theorem keys_internKey (space : MetaSpace) (key : MetaKey) :
    (space.internKey key).1.keys = MetaKey.addTo space.keys key := by
  rcases internKey_cases space key with ⟨n, hn, hintern⟩ | ⟨hnew, hintern⟩
  · rw [hintern, MetaKey.addTo_of_mem (List.mem_of_getElem? hn)]
  · rw [hintern, keys_append, MetaKey.addTo_of_not_mem hnew]

theorem nodup_internKey {space : MetaSpace} (h : space.keys.Nodup)
    (key : MetaKey) :
    (space.internKey key).1.keys.Nodup := by
  rw [keys_internKey]
  exact MetaKey.nodup_addTo h key

theorem keys_prefix_internKey (space : MetaSpace) (key : MetaKey) :
    space.keys <+: (space.internKey key).1.keys := by
  rw [keys_internKey]
  exact MetaKey.prefix_addTo space.keys key

theorem mem_keys_internKey {space : MetaSpace} {key other : MetaKey}
    (h : other ∈ (space.internKey key).1.keys) :
    other ∈ space.keys ∨ other = key := by
  rw [keys_internKey] at h
  exact MetaKey.mem_addTo.mp h

theorem keyAt_internKey (space : MetaSpace) (key : MetaKey) :
    KeyAt (space.internKey key).1.keys (space.internKey key).2 key := by
  rcases internKey_cases space key with ⟨n, hn, hintern⟩ | ⟨_, hintern⟩
  · rw [hintern]
    exact ⟨n, hn, rfl⟩
  · rw [hintern, keys_append]
    refine ⟨space.size, ?_, rfl⟩
    rw [← length_keys]
    exact List.getElem?_concat_length

theorem interned_internKey (space : MetaSpace) (key : MetaKey) :
    (space.internKey key).1.interned = space.interned := by
  rcases internKey_cases space key with ⟨n, _, hintern⟩ | ⟨_, hintern⟩
  · rw [hintern]
  · rw [hintern]

end MetaSpace

/-!
## Spaces of one process
-/

def Host.HasCleanNames (host : Host) : Prop :=
  ∀ e key, MetaKey.of host e = .ok key → key.name.NulFree

namespace MetaSpace

inductive Grown (host : Host) : MetaSpace → Prop where
  | empty : Grown host {}
  | internKey {space : MetaSpace} (h : Grown host space) {key : MetaKey}
      (hkey : key.name.NulFree) : Grown host (space.internKey key).1
  | intern {space space' : MetaSpace} (h : Grown host space) {e : Entity}
      {index : UInt32} (hrun : intern host e space = .ok index space') :
      Grown host space'

/-- The invariant of such a space: the index of an interned entity is that of its
key. -/
structure Coherent (host : Host) (space : MetaSpace) : Prop where
  distinct : space.keys.Nodup
  known : ∀ key ∈ space.keys,
    key.name.NulFree ∨ ∃ e, MetaKey.of host e = .ok key
  interned : ∀ e index, (e, index) ∈ space.interned →
    ∃ key, MetaKey.of host e = .ok key ∧ KeyAt space.keys index key

structure Tidy (host : Host) (space : MetaSpace) : Prop
    extends Coherent host space where
  clean : ∀ key ∈ space.keys, key.name.NulFree

variable {host : Host}

theorem Coherent.tidy {space : MetaSpace} (hclean : host.HasCleanNames)
    (h : space.Coherent host) :
    space.Tidy host := by
  refine ⟨h, ?_⟩
  intro key hkey
  rcases h.known key hkey with hfree | ⟨e, he⟩
  · exact hfree
  · exact hclean e key he

theorem coherent_empty (host : Host) : Coherent host {} := by
  constructor
  · exact List.nodup_nil
  · intro key hkey
    cases hkey
  · intro e index hmem
    cases hmem

theorem tidy_empty (host : Host) : Tidy host {} := by
  refine ⟨coherent_empty host, ?_⟩
  intro key hkey
  cases hkey

theorem Coherent.internKey {space : MetaSpace} (h : space.Coherent host)
    {key : MetaKey}
    (hkey : key.name.NulFree ∨ ∃ e, MetaKey.of host e = .ok key) :
    (space.internKey key).1.Coherent host := by
  constructor
  · exact nodup_internKey h.distinct key
  · intro other hother
    rcases mem_keys_internKey hother with hold | rfl
    · exact h.known other hold
    · exact hkey
  · rw [interned_internKey]
    intro e index hmem
    rcases h.interned e index hmem with ⟨ekey, hof, hat⟩
    exact ⟨ekey, hof, hat.mono (keys_prefix_internKey space key)⟩

theorem intern_of_interned {e : Entity} {space : MetaSpace} {index : UInt32}
    (h : space.interned.lookup e = some index) :
    intern host e space = .ok index space := by
  unfold intern
  rw [run_get_bind]
  dsimp only
  rw [h]
  rfl

theorem intern_of_new {e : Entity} {space : MetaSpace} {key : MetaKey}
    (h : space.interned.lookup e = none) (hkey : MetaKey.of host e = .ok key) :
    ∃ space', intern host e space = .ok (space.internKey key).2 space' ∧
      space'.keys = (space.internKey key).1.keys ∧
      space'.interned = (e, (space.internKey key).2) :: space.interned := by
  unfold intern
  rw [run_get_bind]
  dsimp only
  rw [h, hkey]
  refine ⟨_, rfl, ?_⟩
  constructor
  · split
    · rename_i entry hentry
      exact keys_setEntry hentry rfl
    · rfl
  · rw [← interned_internKey space key]
    split
    · rfl
    · rfl

theorem intern_of_unnamed {e : Entity} {space : MetaSpace} {error : Error}
    (h : space.interned.lookup e = none) (hkey : MetaKey.of host e = .error error) :
    intern host e space = .error error space := by
  unfold intern
  rw [run_get_bind]
  dsimp only
  rw [h, hkey]
  rfl

theorem intern_cases (host : Host) (e : Entity) (space : MetaSpace) :
    (∃ index, (e, index) ∈ space.interned ∧
      intern host e space = .ok index space) ∨
    (∃ error, MetaKey.of host e = .error error ∧
      intern host e space = .error error space) ∨
    (∃ key space', MetaKey.of host e = .ok key ∧
      intern host e space = .ok (space.internKey key).2 space' ∧
      space'.keys = (space.internKey key).1.keys ∧
      space'.interned = (e, (space.internKey key).2) :: space.interned) := by
  cases hfound : space.interned.lookup e with
  | some index =>
      apply Or.inl
      refine ⟨index, ?_, intern_of_interned hfound⟩
      rcases List.lookup_eq_some_iff.mp hfound with ⟨l₁, l₂, hsplit, _⟩
      rw [hsplit]
      exact List.mem_append_right _ List.mem_cons_self
  | none =>
      apply Or.inr
      cases hkey : MetaKey.of host e with
      | error error => exact Or.inl ⟨error, rfl, intern_of_unnamed hfound hkey⟩
      | ok key =>
          rcases intern_of_new hfound hkey with ⟨space', hrun, hkeys, hinterned⟩
          exact Or.inr ⟨key, space', rfl, hrun, hkeys, hinterned⟩

theorem Coherent.intern_of_ok {space : MetaSpace} (h : space.Coherent host)
    {e : Entity} {key : MetaKey} (hkey : MetaKey.of host e = .ok key) :
    ∃ index space', intern host e space = .ok index space' ∧
      space'.Coherent host ∧ space'.keys = MetaKey.addTo space.keys key ∧
      KeyAt space'.keys index key := by
  rcases intern_cases host e space with ⟨index, hmem, hrun⟩ |
    ⟨_, hnone, -⟩ | ⟨key', space', hkey', hrun, hkeys, hinterned⟩
  · rcases h.interned e index hmem with ⟨key', hkey', hat⟩
    rw [hkey] at hkey'
    cases hkey'
    exact ⟨index, space, hrun, h, (MetaKey.addTo_of_mem hat.mem).symm, hat⟩
  · rw [hkey] at hnone
    cases hnone
  · rw [hkey] at hkey'
    cases hkey'
    have hcoherent := h.internKey (Or.inr ⟨e, hkey⟩)
    have hat := keyAt_internKey space key
    rw [← hkeys] at hat
    refine ⟨_, space', hrun, ⟨?_, ?_, ?_⟩, ?_, hat⟩
    · rw [hkeys]
      exact hcoherent.distinct
    · rw [hkeys]
      exact hcoherent.known
    · rw [hinterned]
      intro other i hother
      rcases List.mem_cons.mp hother with hnew | hold
      · cases hnew
        exact ⟨key, hkey, hat⟩
      · rw [hkeys]
        refine hcoherent.interned other i ?_
        rw [interned_internKey]
        exact hold
    · rw [hkeys, keys_internKey]

theorem Coherent.intern_of_error {space : MetaSpace} (h : space.Coherent host)
    {e : Entity} {error : Error} (hkey : MetaKey.of host e = .error error) :
    intern host e space = .error error space := by
  rcases intern_cases host e space with ⟨index, hmem, -⟩ |
    ⟨_, hnone, hrun⟩ | ⟨_, _, hkey', -⟩
  · rcases h.interned e index hmem with ⟨_, hkey', -⟩
    rw [hkey] at hkey'
    cases hkey'
  · rw [hkey] at hnone
    cases hnone
    exact hrun
  · rw [hkey] at hkey'
    cases hkey'

theorem Coherent.intern {space space' : MetaSpace} (h : space.Coherent host)
    {e : Entity} {index : UInt32}
    (hrun : intern host e space = .ok index space') :
    space'.Coherent host ∧ space.keys <+: space'.keys ∧
      ∃ key, MetaKey.of host e = .ok key ∧ KeyAt space'.keys index key := by
  cases hkey : MetaKey.of host e with
  | error error =>
      rw [h.intern_of_error hkey] at hrun
      cases hrun
  | ok key =>
      rcases h.intern_of_ok hkey with ⟨i, after, hafter, hcoherent, hkeys, hat⟩
      rw [hafter] at hrun
      cases hrun
      refine ⟨hcoherent, ?_, key, rfl, hat⟩
      rw [hkeys]
      exact MetaKey.prefix_addTo space.keys key

theorem Grown.coherent {space : MetaSpace} (h : Grown host space) :
    space.Coherent host := by
  induction h with
  | empty => exact coherent_empty host
  | internKey h hkey ih => exact ih.internKey (Or.inl hkey)
  | intern h hrun ih => exact (ih.intern hrun).1

end MetaSpace

/-!
## Work that interns
-/

/-- Work that keeps a space coherent and only appends keys, whether it fails or not.
Its answers satisfy a postcondition about the keys at the end. -/
def Interns {α : Type} (host : Host) (keys : List MetaKey) (work : InSpace α)
    (Q : α → Prop) : Prop :=
  ∀ space : MetaSpace, space.Coherent host →
    match work space with
    | .ok a space' => space'.Coherent host ∧ space.keys <+: space'.keys ∧
        (space'.keys <+: keys → Q a)
    | .error _ space' => space'.Coherent host ∧ space.keys <+: space'.keys

namespace Interns

variable {host : Host} {keys : List MetaKey} {α β : Type}

theorem of_pure {a : α} {Q : α → Prop} (h : Q a) :
    Interns host keys (pure a) Q := by
  intro space hspace
  exact ⟨hspace, List.prefix_refl _, fun _ => h⟩

theorem of_throw {Q : α → Prop} (e : Error) :
    Interns host keys (throw e : InSpace α) Q := by
  intro space hspace
  exact ⟨hspace, List.prefix_refl _⟩

theorem of_bind {work : InSpace α} {next : α → InSpace β} {P : α → Prop}
    {Q : β → Prop} (h : Interns host keys work P)
    (hnext : ∀ a, Interns host keys (next a) (fun b => P a → Q b)) :
    Interns host keys (work >>= next) Q := by
  intro space hspace
  have hout := h space hspace
  show match EStateM.bind work next space with
    | .ok b space' => space'.Coherent host ∧ space.keys <+: space'.keys ∧
        (space'.keys <+: keys → Q b)
    | .error _ space' => space'.Coherent host ∧ space.keys <+: space'.keys
  unfold EStateM.bind
  cases hrun : work space with
  | error e space' =>
      rw [hrun] at hout
      exact hout
  | ok a space' =>
      rw [hrun] at hout
      rcases hout with ⟨hcoherent, hgrow, hP⟩
      have hrest := hnext a space' hcoherent
      dsimp only
      cases hrun' : next a space' with
      | error e space'' =>
          rw [hrun'] at hrest
          exact ⟨hrest.1, hgrow.trans hrest.2⟩
      | ok b space'' =>
          rw [hrun'] at hrest
          rcases hrest with ⟨hcoherent', hgrow', hQ⟩
          refine ⟨hcoherent', hgrow.trans hgrow', ?_⟩
          intro hend
          exact hQ hend (hP (hgrow'.trans hend))

theorem of_map {work : InSpace α} {f : α → β} {Q : β → Prop}
    (h : Interns host keys work (fun a => Q (f a))) :
    Interns host keys (f <$> work) Q :=
  h.of_bind fun _ => of_pure fun hQ => hQ

theorem mono {work : InSpace α} {Q R : α → Prop}
    (h : Interns host keys work Q) (hQ : ∀ a, Q a → R a) :
    Interns host keys work R := by
  intro space hspace
  have hout := h space hspace
  cases hrun : work space with
  | error e space' =>
      rw [hrun] at hout
      exact hout
  | ok a space' =>
      rw [hrun] at hout
      exact ⟨hout.1, hout.2.1, fun hend => hQ a (hout.2.2 hend)⟩

theorem of_ofExcept {result : Except Error α} {Q : α → Prop}
    (h : ∀ a, result = .ok a → Q a) :
    Interns host keys (ofExcept result) Q := by
  cases result with
  | ok a => exact of_pure (h a rfl)
  | error e => exact of_throw e

theorem of_mapM {work : α → InSpace β} {Q : α → β → Prop}
    (h : ∀ a, Interns host keys (work a) (Q a)) (as : List α) :
    Interns host keys (as.mapM work) (List.Forall₂ Q as) := by
  induction as with
  | nil => exact of_pure .nil
  | cons a as ih =>
      rw [List.mapM_cons]
      refine (h a).of_bind fun b => ?_
      refine ih.of_bind fun bs => ?_
      exact of_pure fun hall hb => .cons hb hall

theorem of_intern (e : Entity) :
    Interns host keys (MetaSpace.intern host e)
      (fun index => ∃ key, MetaKey.of host e = .ok key ∧
        KeyAt keys index key) := by
  intro space hspace
  cases hkey : MetaKey.of host e with
  | error error =>
      rw [hspace.intern_of_error hkey]
      exact ⟨hspace, List.prefix_refl _⟩
  | ok key =>
      rcases hspace.intern_of_ok hkey with
        ⟨index, space', hrun, hcoherent, hkeys, hat⟩
      rw [hrun]
      refine ⟨hcoherent, ?_, fun hend => ⟨key, rfl, hat.mono hend⟩⟩
      rw [hkeys]
      exact MetaKey.prefix_addTo space.keys key

end Interns

end CodeCache
