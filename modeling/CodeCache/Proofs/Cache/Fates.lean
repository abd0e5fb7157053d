import CodeCache.Cache.Save
import CodeCache.Proofs.Blob.Encodable

/-!
# The fates of saved methods

What a save makes of a method depends on the method and on the versions before
it, and not on the file: a method is passed over, fails to encode, or is saved.
So the methods that are saved, and those that leave keys, are known beforehand.
-/

namespace CodeCache

namespace Saving

inductive Fate where
  | passedOver
  | unencodable
  | saved (key : MetaKey)

/-- The fate of a compiled method behind versions with some keys. A first version
is kept whatever the limit is. -/
def fate (host : Host) (limit : Nat) (before : List MetaKey)
    (nm : CompiledMethod) : Fate :=
  match MetaKey.of host (.method nm.method) with
  | .error _ => .passedOver
  | .ok key =>
    if !isEligible host nm then .passedOver
    else if key ∈ before ∧ limit ≤ before.count key then .passedOver
    else if nm.isEncodable host then .saved key
    else .unencodable

def survivorsFrom (host : Host) (limit : Nat) :
    List MetaKey → List CompiledMethod → List CompiledMethod
  | _, [] => []
  | before, nm :: methods =>
    match fate host limit before nm with
    | .passedOver | .unencodable => survivorsFrom host limit before methods
    | .saved key => nm :: survivorsFrom host limit (key :: before) methods

/-- The methods that a save does not pass over: those that it saves, and those
that it cannot encode. -/
def emittedFrom (host : Host) (limit : Nat) :
    List MetaKey → List CompiledMethod → List CompiledMethod
  | _, [] => []
  | before, nm :: methods =>
    match fate host limit before nm with
    | .passedOver => emittedFrom host limit before methods
    | .unencodable => nm :: emittedFrom host limit before methods
    | .saved key => nm :: emittedFrom host limit (key :: before) methods

def survivors (host : Host) (limit : Nat) (methods : List CompiledMethod) :
    List CompiledMethod :=
  survivorsFrom host limit [] methods

def emitted (host : Host) (limit : Nat) (methods : List CompiledMethod) :
    List CompiledMethod :=
  emittedFrom host limit [] methods

/-- The keys, followed by those that the methods name, where they are named
first. -/
def namedBy (host : Host) (keys : List MetaKey)
    (methods : List CompiledMethod) : List MetaKey :=
  methods.foldl (fun keys nm => MetaKey.addAllTo keys (nm.namedKeys host)) keys

variable {host : Host} {limit : Nat} {before : List MetaKey}
  {nm : CompiledMethod} {methods : List CompiledMethod}

theorem prefix_namedBy (host : Host) (keys : List MetaKey)
    (methods : List CompiledMethod) : keys <+: namedBy host keys methods := by
  induction methods generalizing keys with
  | nil => exact List.prefix_refl keys
  | cons nm methods ih => exact (MetaKey.prefix_addAllTo keys _).trans (ih _)

theorem nodup_namedBy (host : Host) {keys : List MetaKey} (h : keys.Nodup)
    (methods : List CompiledMethod) : (namedBy host keys methods).Nodup := by
  induction methods generalizing keys with
  | nil => exact h
  | cons nm methods ih => exact ih (MetaKey.nodup_addAllTo h _)

theorem survivorsFrom_sublist (host : Host) (limit : Nat)
    (before : List MetaKey) (methods : List CompiledMethod) :
    (survivorsFrom host limit before methods).Sublist methods := by
  induction methods generalizing before with
  | nil => exact List.Sublist.refl []
  | cons nm methods ih =>
      rw [survivorsFrom]
      cases fate host limit before nm with
      | passedOver => exact (ih before).cons nm
      | unencodable => exact (ih before).cons nm
      | saved key => exact (ih (key :: before)).cons_cons nm

theorem emittedFrom_survivorsFrom (host : Host) (limit : Nat)
    (before : List MetaKey) (methods : List CompiledMethod) :
    emittedFrom host limit before (survivorsFrom host limit before methods) =
      survivorsFrom host limit before methods := by
  induction methods generalizing before with
  | nil => rfl
  | cons nm methods ih =>
      rw [survivorsFrom]
      cases hfate : fate host limit before nm with
      | passedOver => exact ih before
      | unencodable => exact ih before
      | saved key =>
          dsimp only
          rw [emittedFrom, hfate]
          exact congrArg (nm :: ·) (ih (key :: before))

structure Admits (host : Host) (limit : Nat) (before : List MetaKey)
    (nm : CompiledMethod) (key : MetaKey) : Prop where
  eligible : isEligible host nm = true
  key_of : MetaKey.of host (.method nm.method) = .ok key
  room : ¬ (key ∈ before ∧ limit ≤ before.count key)

/-- Whether a method is passed over or admitted is settled before it is known whether it
can be encoded. -/
theorem fate_cases (host : Host) (limit : Nat) (before : List MetaKey)
    (nm : CompiledMethod) :
    (fate host limit before nm = .passedOver ∧
      (isEligible host nm = false ∨
        (∃ e, MetaKey.of host (.method nm.method) = .error e) ∨
        ∃ key, MetaKey.of host (.method nm.method) = .ok key ∧ key ∈ before ∧
          limit ≤ before.count key)) ∨
    ∃ key, Admits host limit before nm key ∧
      fate host limit before nm =
        if nm.isEncodable host then .saved key else .unencodable := by
  unfold fate
  split
  · rename_i e hkey
    exact Or.inl ⟨rfl, Or.inr (Or.inl ⟨e, hkey⟩)⟩
  · rename_i key hkey
    split
    · rename_i heligible
      exact Or.inl ⟨rfl, Or.inl (by simpa using heligible)⟩
    · rename_i heligible
      split
      · rename_i hfull
        exact Or.inl ⟨rfl, Or.inr (Or.inr ⟨key, hkey, hfull⟩)⟩
      · rename_i hroom
        exact Or.inr ⟨key, ⟨by simpa using heligible, hkey, hroom⟩, rfl⟩

theorem of_fate_saved {key : MetaKey}
    (h : fate host limit before nm = .saved key) :
    Admits host limit before nm key ∧ nm.isEncodable host = true := by
  rcases fate_cases host limit before nm with ⟨hover, -⟩ | ⟨key', hadmits, hfate⟩
  · rw [hover] at h
    cases h
  · rw [hfate] at h
    split at h
    · rename_i hencodable
      cases h
      exact ⟨hadmits, hencodable⟩
    · cases h

theorem of_fate_unencodable (h : fate host limit before nm = .unencodable) :
    (∃ key, Admits host limit before nm key) ∧ nm.isEncodable host = false := by
  rcases fate_cases host limit before nm with ⟨hover, -⟩ | ⟨key, hadmits, hfate⟩
  · rw [hover] at h
    cases h
  · rw [hfate] at h
    split at h
    · cases h
    · rename_i hencodable
      exact ⟨⟨key, hadmits⟩, by simpa using hencodable⟩

theorem emittedFrom_of_encodable
    (h : ∀ nm ∈ methods, nm.isEncodable host = true) :
    emittedFrom host limit before methods =
      survivorsFrom host limit before methods := by
  induction methods generalizing before with
  | nil => rfl
  | cons nm methods ih =>
      have hrest := fun other hother => h other (List.mem_cons_of_mem nm hother)
      rw [emittedFrom, survivorsFrom]
      cases hfate : fate host limit before nm with
      | passedOver => exact ih hrest
      | unencodable =>
          have hnm := h nm List.mem_cons_self
          rw [(of_fate_unencodable hfate).2] at hnm
          cases hnm
      | saved key => exact congrArg (nm :: ·) (ih hrest)

theorem of_fate_passedOver (h : fate host limit before nm = .passedOver) :
    isEligible host nm = false ∨
      (∃ e, MetaKey.of host (.method nm.method) = .error e) ∨
      ∃ key, MetaKey.of host (.method nm.method) = .ok key ∧ key ∈ before ∧
        limit ≤ before.count key := by
  rcases fate_cases host limit before nm with ⟨-, hwhy⟩ | ⟨key, -, hfate⟩
  · exact hwhy
  · rw [hfate] at h
    split at h <;> cases h

end Saving

end CodeCache
