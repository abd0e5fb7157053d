import CodeCache.Proofs.Merge.Sharing

/-!
# Which containers are merged

A container joins the first group whose fingerprint is identical to its own. Being
identical is an equivalence, so the fingerprints of two groups never are, and the
groups are its classes. Loading chooses containers by the same relation.
-/

namespace CodeCache

namespace Merge

variable {inputs : List Input} {gs : List Group}

def Apart (gs : List Group) : Prop :=
  gs.Pairwise fun g h => ¬ g.fingerprint.identical h.fingerprint = true

theorem fingerprint_of_mem_addToGroups {fingerprint : Fingerprint} {member : Nat × Nat}
    {g : Group} (h : g ∈ addToGroups fingerprint member gs) :
    g.fingerprint = fingerprint ∨ ∃ g' ∈ gs, g'.fingerprint = g.fingerprint := by
  induction gs with
  | nil =>
      rw [List.mem_singleton.mp h]
      exact Or.inl rfl
  | cons first gs ih =>
      unfold addToGroups at h
      split at h
      · apply Or.inr
        cases h with
        | head => exact ⟨first, List.mem_cons_self, rfl⟩
        | tail _ hmem => exact ⟨g, List.mem_cons_of_mem first hmem, rfl⟩
      · cases h with
        | head => exact Or.inr ⟨g, List.mem_cons_self, rfl⟩
        | tail _ hmem =>
            cases ih hmem with
            | inl hnew => exact Or.inl hnew
            | inr hold =>
                obtain ⟨g', hg', heq⟩ := hold
                exact Or.inr ⟨g', List.mem_cons_of_mem first hg', heq⟩

theorem Apart.addToGroups (h : Apart gs) (fingerprint : Fingerprint) (member : Nat × Nat) :
    Apart (addToGroups fingerprint member gs) := by
  induction gs with
  | nil => exact List.pairwise_singleton _ _
  | cons first gs ih =>
      obtain ⟨hfirst, hrest⟩ := List.pairwise_cons.mp h
      unfold Merge.addToGroups
      split
      · exact List.pairwise_cons.mpr ⟨hfirst, hrest⟩
      · rename_i hother
        apply List.pairwise_cons.mpr
        constructor
        · intro g hg
          cases fingerprint_of_mem_addToGroups hg with
          | inl hnew => exact hnew ▸ hother
          | inr hold =>
              obtain ⟨g', hg', heq⟩ := hold
              exact heq ▸ hfirst g' hg'
        · exact ih hrest

theorem apart_groups (inputs : List Input) : Apart (groups inputs) :=
  groups_induction (P := fun _ gs => Apart gs) List.Pairwise.nil
    (fun _ _ member c h => h.addToGroups c.fingerprint member) inputs

theorem Apart.eq_of_identical (h : Apart gs) {g g' : Group} (hg : g ∈ gs) (hg' : g' ∈ gs)
    (hidentical : g.fingerprint.identical g'.fingerprint = true) :
    g = g' := by
  by_contra hne
  have hsymm : Std.Symm fun g h : Group => ¬ g.fingerprint.identical h.fingerprint = true :=
    ⟨fun _ _ hnot h => hnot (Fingerprint.identical_equivalence.symm h)⟩
  exact List.Pairwise.forall h hg hg' hne hidentical

theorem identical_of_mem_group {g : Group} (hg : g ∈ groups inputs) {member : Nat × Nat}
    (hmember : member ∈ g.members) {c : Container} (h : (member, c) ∈ containersOf inputs) :
    g.fingerprint.identical c.fingerprint = true := by
  obtain ⟨c', hc', hidentical⟩ := (groups_of inputs g hg).members member hmember
  obtain ⟨input, hinput, hc⟩ := mem_containersOf h
  obtain ⟨input', hinput', hc''⟩ := mem_containersOf hc'
  rw [hinput] at hinput'
  cases hinput'
  rw [hc] at hc''
  cases hc''
  exact hidentical

/-- Two containers are in one group exactly if their fingerprints are identical. -/
theorem same_group_iff {member member' : Nat × Nat} {c c' : Container}
    (h : (member, c) ∈ containersOf inputs) (h' : (member', c') ∈ containersOf inputs) :
    (∃ g ∈ groups inputs, member ∈ g.members ∧ member' ∈ g.members) ↔
      c.fingerprint.identical c'.fingerprint = true := by
  have hequiv := Fingerprint.identical_equivalence
  constructor
  · intro hsame
    obtain ⟨g, hg, hmember, hmember'⟩ := hsame
    exact hequiv.trans (hequiv.symm (identical_of_mem_group hg hmember h))
      (identical_of_mem_group hg hmember' h')
  · intro hidentical
    obtain ⟨g, hg, hmember⟩ := exists_group_of_mem h
    obtain ⟨g', hg', hmember'⟩ := exists_group_of_mem h'
    have hgroups : g.fingerprint.identical g'.fingerprint = true :=
      hequiv.trans (identical_of_mem_group hg hmember h)
        (hequiv.trans hidentical (hequiv.symm (identical_of_mem_group hg' hmember' h')))
    cases (apart_groups inputs).eq_of_identical hg hg' hgroups
    exact ⟨g, hg, hmember, hmember'⟩

/-- What is accepted when a file is loaded and what is put together when files are
merged is decided by one equivalence. More options than there are numbers for their
places could not be told apart. -/
theorem gate_agrees_with_groups :
    Equivalence (fun f g : Fingerprint => f.identical g = true) ∧
      (∀ (f g : Fingerprint) (s : Settings), f.identical g = true →
        f.accepts s = g.accepts s) ∧
      (∀ s : Settings, s.flags.length ≤ 2 ^ 32 →
        (Fingerprint.capture s).accepts s = .ok ()) ∧
      (∀ a b : Settings, a.flags.length ≤ 2 ^ 32 → a.options = b.options →
        a.TellsCollector →
        ((Fingerprint.capture a).accepts b = .ok () ↔
          (Fingerprint.capture a).identical (.capture b) = true)) ∧
      ∀ (inputs : List Input) (member member' : Nat × Nat) (c c' : Container),
        (member, c) ∈ containersOf inputs → (member', c') ∈ containersOf inputs →
        ((∃ g ∈ groups inputs, member ∈ g.members ∧ member' ∈ g.members) ↔
          c.fingerprint.identical c'.fingerprint = true) := by
  constructor
  · exact Fingerprint.identical_equivalence
  constructor
  · intro f g s h
    exact Fingerprint.accepts_eq_of_identical h s
  constructor
  · intro s hsize
    exact Fingerprint.accepts_capture hsize
  constructor
  · intro a b hsize hoptions htells
    exact Fingerprint.accepts_capture_iff hsize hoptions htells
  · intro inputs member member' c c' h h'
    exact same_group_iff h h'

namespace Sample

def collecting (g1 other : Bool) (base : UInt64) : Settings where
  narrowOop := { base, shift := 3, implicitNullChecks := true }
  flags := [⟨"UseG1GC", g1, true⟩, ⟨"G1UseAdaptiveIHOP", other, true⟩,
    ⟨"PrintCompilation", other, true⟩]

def savedUnder (settings : List Settings) : List Input :=
  settings.map fun s =>
    { path := "a.csa"
      file := { buildIdentity := "", containers := [.sized (.capture s) 0] } }

end Sample

theorem gate_agrees_with_groups_of_collector :
    let idle := Sample.collecting false true 4096
    let idle' := Sample.collecting false false 8192
    let busy := Sample.collecting true true 4096
    (Fingerprint.capture idle).accepts idle' = .ok () ∧
      (Fingerprint.capture idle).accepts busy =
        .error (.fingerprintMismatch "UseG1GC") ∧
      (Fingerprint.capture idle).identical (.capture busy) = false ∧
      (Fingerprint.capture busy).accepts busy = .ok () ∧
      (∃ g ∈ groups (Sample.savedUnder [idle, busy, idle']),
        (0, 0) ∈ g.members ∧ (2, 0) ∈ g.members) ∧
      ¬ ∃ g ∈ groups (Sample.savedUnder [idle, busy, idle']),
        (0, 0) ∈ g.members ∧ (1, 0) ∈ g.members := by
  intro idle idle' busy
  obtain ⟨_, _, hself, hgate, hgroups⟩ := gate_agrees_with_groups
  have hidentical : (Fingerprint.capture idle).identical (.capture idle') = true := by
    decide
  have hother : (Fingerprint.capture idle).identical (.capture busy) = false := by
    decide
  have htells : idle.TellsCollector := by
    intro f hf _
    simp only [idle, Sample.collecting, List.mem_cons, List.not_mem_nil, or_false] at hf
    rcases hf with rfl | rfl | rfl <;> rfl
  constructor
  · exact (hgate idle idle' (by decide) rfl htells).mpr hidentical
  constructor
  · rfl
  constructor
  · exact hother
  constructor
  · exact hself busy (by decide)
  constructor
  · apply (hgroups _ (0, 0) (2, 0) (.sized (.capture idle) 0) (.sized (.capture idle') 0)
      ?_ ?_).mpr hidentical
    · simp [containersOf, Sample.savedUnder]
    · simp [containersOf, Sample.savedUnder]
  · intro hsame
    have hall := (hgroups _ (0, 0) (1, 0) (.sized (.capture idle) 0)
      (.sized (.capture busy) 0) (by simp [containersOf, Sample.savedUnder])
      (by simp [containersOf, Sample.savedUnder])).mp hsame
    exact absurd hall (by simp [Container.sized, hother])

end Merge

end CodeCache
