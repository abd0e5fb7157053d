import CodeCache.Proofs.Selection.Steady

/-!
# The versions that a scan checks

A scan reports a version as unusable only after it checked that version and the
check failed for good. It lets the method do without the cache only after every
version of the chain was checked and failed for good, or was left out.
-/

namespace CodeCache

namespace VersionState

/-- The check failed, and will fail as long as the process runs. -/
structure FailsForGood (s : VersionState) : Prop where
  isValid_eq : s.isValid = false
  permanent : s.verdict.isPermanent = true

end VersionState

namespace Selection

structure Visit where
  version : Nat
  blob : Blob
  state : VersionState

variable {ctx : ReviveContext} {o : Options} {usable : Nat → Bool}

namespace Scan

def count (s : Scan) : Scan :=
  { s with checked := s.checked + 1 }

theorem record_of_valid (s : Scan) {state : VersionState}
    (h : state.isValid = true) :
    s.record state =
      { s with candidates := s.candidates ++ [state], allUnusable := false } := by
  unfold record
  rw [if_pos h]

theorem record_of_failsForGood (s : Scan) {state : VersionState}
    (h : state.FailsForGood) :
    s.record state = { s with unusable := s.unusable ++ [state.version] } := by
  unfold record
  rw [if_neg (by rw [h.isValid_eq]; exact Bool.false_ne_true), if_pos h.permanent]

theorem record_cases (s : Scan) (state : VersionState) :
    (state.isValid = true ∧ s.record state =
      { s with candidates := s.candidates ++ [state], allUnusable := false }) ∨
    (state.FailsForGood ∧
      s.record state = { s with unusable := s.unusable ++ [state.version] }) ∨
    (state.isValid = false ∧ s.record state = { s with allUnusable := false }) := by
  cases hvalid : state.isValid with
  | true => exact Or.inl ⟨rfl, s.record_of_valid hvalid⟩
  | false =>
      cases hpermanent : state.verdict.isPermanent with
      | true =>
          have hfails : state.FailsForGood := ⟨hvalid, hpermanent⟩
          exact Or.inr (Or.inl ⟨hfails, s.record_of_failsForGood hfails⟩)
      | false =>
          refine Or.inr (Or.inr ⟨rfl, ?_⟩)
          unfold record
          rw [hvalid, hpermanent]
          rfl

end Scan

/-- The scan from a version on, in a state of the metaspace, checks a version. -/
inductive Visits (ctx : ReviveContext) (o : Options) (usable : Nat → Bool) :
    Nat → Scan → List (Except Error Blob) → MetaSpace → Visit → Prop where
  | now {version : Nat} {s : Scan} {b : Blob} {rest : List (Except Error Blob)}
      {space space' : MetaSpace} {state : VersionState}
      (husable : usable version = true)
      (hcheck : checkBlob ctx o version b space = .ok state space') :
      Visits ctx o usable version s (.ok b :: rest) space ⟨version, b, state⟩
  | later {version : Nat} {s : Scan} {b : Blob}
      {rest : List (Except Error Blob)} {space space' : MetaSpace}
      {state : VersionState} {visit : Visit} (husable : usable version = true)
      (hcheck : checkBlob ctx o version b space = .ok state space')
      (hon : o.revivePolicy.scansOn version
        (s.count.record state).candidates.length = true)
      (h : Visits ctx o usable (version + 1) (s.count.record state) rest space'
        visit) :
      Visits ctx o usable version s (.ok b :: rest) space visit
  | skipped {version : Nat} {s : Scan} {b : Blob}
      {rest : List (Except Error Blob)} {space : MetaSpace} {visit : Visit}
      (husable : usable version = false)
      (h : Visits ctx o usable (version + 1) s.count rest space visit) :
      Visits ctx o usable version s (.ok b :: rest) space visit

theorem Visits.mem {version : Nat} {s : Scan} {blobs : List (Except Error Blob)}
    {space : MetaSpace} {visit : Visit}
    (h : Visits ctx o usable version s blobs space visit) :
    ∃ i, visit.version = version + i ∧ blobs[i]? = some (.ok visit.blob) := by
  induction h with
  | now husable hcheck => exact ⟨0, rfl, rfl⟩
  | later husable hcheck hon h ih =>
      rcases ih with ⟨i, hversion, hblob⟩
      exact ⟨i + 1, by omega, hblob⟩
  | skipped husable h ih =>
      rcases ih with ⟨i, hversion, hblob⟩
      exact ⟨i + 1, by omega, hblob⟩

theorem Visits.usable_eq {version : Nat} {s : Scan}
    {blobs : List (Except Error Blob)} {space : MetaSpace} {visit : Visit}
    (h : Visits ctx o usable version s blobs space visit) :
    usable visit.version = true := by
  induction h with
  | now husable _ => exact husable
  | later _ _ _ _ ih => exact ih
  | skipped _ _ ih => exact ih

/-!
## One step of a scan
-/

theorem scan_cases {version : Nat} {s s' : Scan} {blob : Except Error Blob}
    {rest : List (Except Error Blob)} {space space' : MetaSpace}
    (h : scan ctx o usable version s (blob :: rest) space = .ok s' space') :
    ∃ b, blob = .ok b ∧
      ((usable version = false ∧
        scan ctx o usable (version + 1) s.count rest space = .ok s' space') ∨
      (usable version = true ∧ ∃ state middle,
        checkBlob ctx o version b space = .ok state middle ∧
        state.version = version ∧
        ((o.revivePolicy.scansOn version
            (s.count.record state).candidates.length = true ∧
          scan ctx o usable (version + 1) (s.count.record state) rest middle =
            .ok s' space') ∨
        (o.revivePolicy.scansOn version
            (s.count.record state).candidates.length = false ∧
          s' = { s.count.record state with scannedAll := rest.isEmpty })))) := by
  cases blob with
  | error e => cases h
  | ok b =>
      refine ⟨b, rfl, ?_⟩
      change (if usable version then _ else _ : InSpace Scan) space = _ at h
      cases husable : usable version with
      | false =>
          rw [husable] at h
          exact Or.inl ⟨rfl, h⟩
      | true =>
          refine Or.inr ⟨rfl, ?_⟩
          rcases checkBlob_returns ctx o version b space with
            ⟨state, middle, hcheck, hversion, _⟩
          refine ⟨state, middle, hcheck, hversion, ?_⟩
          rw [husable, if_pos rfl] at h
          change EStateM.bind (checkBlob ctx o version b) _ space = _ at h
          unfold EStateM.bind at h
          rw [hcheck] at h
          change (if o.revivePolicy.scansOn version
            (s.count.record state).candidates.length then _ else _ :
              InSpace Scan) middle = _ at h
          cases hon : o.revivePolicy.scansOn version
              (s.count.record state).candidates.length with
          | true =>
              rw [hon] at h
              exact Or.inl ⟨rfl, h⟩
          | false =>
              rw [hon] at h
              cases h
              exact Or.inr ⟨rfl, rfl⟩

/-!
## Whole scans
-/

theorem of_mem_unusable {version : Nat} {s s' : Scan}
    {blobs : List (Except Error Blob)} {space space' : MetaSpace}
    (h : scan ctx o usable version s blobs space = .ok s' space') {v : Nat}
    (hv : v ∈ s'.unusable) :
    v ∈ s.unusable ∨ ∃ visit, Visits ctx o usable version s blobs space visit ∧
      visit.version = v ∧ visit.state.FailsForGood := by
  induction blobs generalizing version s space with
  | nil =>
      cases h
      exact Or.inl hv
  | cons blob rest ih =>
      rcases scan_cases h with ⟨b, rfl, ⟨husable, hrest⟩ | ⟨husable, state, middle,
        hcheck, hversion, hnext⟩⟩
      · rcases ih hrest with hold | ⟨visit, hvisit, hsame, hfails⟩
        · exact Or.inl hold
        · exact Or.inr ⟨visit, .skipped husable hvisit, hsame, hfails⟩
      · have hrecorded : v ∈ (s.count.record state).unusable →
            v ∈ s.unusable ∨ ∃ visit,
              Visits ctx o usable version s (.ok b :: rest) space visit ∧
                visit.version = v ∧ visit.state.FailsForGood := by
          intro hmem
          rcases s.count.record_cases state with ⟨_, hrecord⟩ |
            ⟨hfails, hrecord⟩ | ⟨_, hrecord⟩
          · rw [hrecord] at hmem
            exact Or.inl hmem
          · rw [hrecord, List.mem_append, List.mem_singleton, hversion] at hmem
            rcases hmem with hold | rfl
            · exact Or.inl hold
            · exact Or.inr ⟨_, .now husable hcheck, rfl, hfails⟩
          · rw [hrecord] at hmem
            exact Or.inl hmem
        rcases hnext with ⟨hon, hrest⟩ | ⟨_, rfl⟩
        · rcases ih hrest with hold | ⟨visit, hvisit, hsame, hfails⟩
          · exact hrecorded hold
          · exact Or.inr ⟨visit, .later husable hcheck hon hvisit, hsame, hfails⟩
        · exact hrecorded hv

theorem nothing_of_allUnusable {version : Nat} {s s' : Scan}
    {blobs : List (Except Error Blob)} {space space' : MetaSpace}
    (h : scan ctx o usable version s blobs space = .ok s' space')
    (hall : s'.allUnusable = true) :
    s.allUnusable = true ∧ s'.candidates = s.candidates := by
  have hrecord : ∀ (s : Scan) (state : VersionState),
      (s.record state).allUnusable = true →
        s.allUnusable = true ∧ (s.record state).candidates = s.candidates := by
    intro s state hrecorded
    rcases s.record_cases state with ⟨_, heq⟩ | ⟨_, heq⟩ | ⟨_, heq⟩
    · rw [heq] at hrecorded
      cases hrecorded
    · rw [heq] at hrecorded ⊢
      exact ⟨hrecorded, rfl⟩
    · rw [heq] at hrecorded
      cases hrecorded
  induction blobs generalizing version s space with
  | nil =>
      cases h
      exact ⟨hall, rfl⟩
  | cons blob rest ih =>
      rcases scan_cases h with ⟨b, rfl, ⟨_, hrest⟩ | ⟨_, state, middle, _, _,
        hnext⟩⟩
      · rcases ih hrest with ⟨hcount, hsame⟩
        exact ⟨hcount, hsame⟩
      · rcases hnext with ⟨_, hrest⟩ | ⟨_, rfl⟩
        · rcases ih hrest with ⟨hmark, hsame⟩
          rcases hrecord s.count state hmark with ⟨hcount, hkept⟩
          exact ⟨hcount, hsame.trans hkept⟩
        · exact hrecord s.count state hall

/-- When no version may be usable and the chain was followed to its end, every
version was checked and failed for good, or was left out. -/
theorem of_allUnusable {version : Nat} {s s' : Scan}
    {blobs : List (Except Error Blob)} {space space' : MetaSpace}
    (h : scan ctx o usable version s blobs space = .ok s' space')
    (hall : s'.allUnusable = true) (hscanned : s'.scannedAll = true) {i : Nat}
    {b : Blob} (hb : blobs[i]? = some (.ok b)) :
    usable (version + i) = false ∨
      ∃ visit, Visits ctx o usable version s blobs space visit ∧
        visit.version = version + i ∧ visit.blob = b ∧
        visit.state.FailsForGood := by
  induction blobs generalizing version s space i with
  | nil => cases hb
  | cons blob rest ih =>
      rcases scan_cases h with ⟨first, rfl, ⟨husable, hrest⟩ | ⟨husable, state,
        middle, hcheck, hversion, hnext⟩⟩
      · cases i with
        | zero => exact Or.inl husable
        | succ i =>
            rw [show version + (i + 1) = version + 1 + i by omega]
            rcases ih hrest hb with hleft | ⟨visit, hvisit, hrest⟩
            · exact Or.inl hleft
            · exact Or.inr ⟨visit, .skipped husable hvisit, hrest⟩
      · -- a check that did not fail for good clears the mark, for the whole scan
        have hfails : (s.count.record state).allUnusable = true →
            state.FailsForGood := by
          intro hmark
          rcases s.count.record_cases state with ⟨_, hrecord⟩ |
            ⟨hfails, _⟩ | ⟨_, hrecord⟩
          · rw [hrecord] at hmark
            cases hmark
          · exact hfails
          · rw [hrecord] at hmark
            cases hmark
        rcases hnext with ⟨hon, hrest⟩ | ⟨_, rfl⟩
        · cases i with
          | zero =>
              cases hb
              refine Or.inr ⟨_, .now husable hcheck, rfl, rfl, ?_⟩
              exact hfails (nothing_of_allUnusable hrest hall).1
          | succ i =>
              rw [show version + (i + 1) = version + 1 + i by omega]
              rcases ih hrest hb with hleft | ⟨visit, hvisit, hrest⟩
              · exact Or.inl hleft
              · exact Or.inr ⟨visit, .later husable hcheck hon hvisit, hrest⟩
        · have hnil : rest = [] := List.isEmpty_iff.mp hscanned
          rw [hnil] at hb
          cases i with
          | zero =>
              cases hb
              exact Or.inr ⟨_, .now husable hcheck, rfl, rfl, hfails hall⟩
          | succ i => cases hb

theorem scansOn_zero (p : RevivePolicy) (version : Nat) :
    p.scansOn version 0 = true := by
  cases p with
  | first | random => rfl
  | appointed n =>
      show (decide (version < n) || true) = true
      rw [Bool.or_true]

theorem marks_of_failsForGood {version : Nat} {s s' : Scan}
    {blobs : List (Except Error Blob)} {space space' : MetaSpace}
    (h : scan ctx o usable version s blobs space = .ok s' space')
    (hnone : s.candidates = [])
    (hfails : ∀ visit, Visits ctx o usable version s blobs space visit →
      visit.state.FailsForGood) :
    s'.allUnusable = s.allUnusable ∧ s'.scannedAll = s.scannedAll := by
  induction blobs generalizing version s space with
  | nil =>
      cases h
      exact ⟨rfl, rfl⟩
  | cons blob rest ih =>
      rcases scan_cases h with ⟨b, rfl, ⟨husable, hrest⟩ | ⟨husable, state, middle,
        hcheck, -, hnext⟩⟩
      · have hmarks := ih hrest hnone fun visit hvisit =>
          hfails visit (.skipped husable hvisit)
        exact hmarks
      · have hrecord :=
          s.count.record_of_failsForGood (hfails _ (.now husable hcheck))
        dsimp only at hrecord
        have hfound : (s.count.record state).candidates = [] := by
          rw [hrecord]
          exact hnone
        have hon : o.revivePolicy.scansOn version
            (s.count.record state).candidates.length = true := by
          rw [hfound]
          exact scansOn_zero o.revivePolicy version
        rcases hnext with ⟨_, hrest⟩ | ⟨hoff, _⟩
        · rcases ih hrest hfound fun visit hvisit =>
            hfails visit (.later husable hcheck hon hvisit) with ⟨hall, hscanned⟩
          rw [hall, hscanned, hrecord]
          exact ⟨rfl, rfl⟩
        · rw [hon] at hoff
          cases hoff

/-!
## Selections
-/

theorem of_select {space : CodeSpace} {head : UInt32} {draw : Nat}
    {selection : Selection} {before after : MetaSpace}
    (h : select ctx o space head usable draw before = .ok selection after) :
    ∃ s, scan ctx o usable 0 {} (space.versions head) before = .ok s after ∧
      selection = conclude o draw s := by
  change EStateM.map (conclude o draw)
    (scan ctx o usable 0 {} (space.versions head)) before = _ at h
  unfold EStateM.map at h
  cases hrun : scan ctx o usable 0 {} (space.versions head) before with
  | error e middle =>
      rw [hrun] at h
      cases h
  | ok s middle =>
      rw [hrun] at h
      cases h
      exact ⟨s, rfl, rfl⟩

theorem of_mem_unusable_select {space : CodeSpace} {head : UInt32} {draw : Nat}
    {selection : Selection} {before after : MetaSpace}
    (h : select ctx o space head usable draw before = .ok selection after)
    {v : Nat} (hv : v ∈ selection.unusable) :
    ∃ visit, Visits ctx o usable 0 {} (space.versions head) before visit ∧
      visit.version = v ∧ visit.state.FailsForGood := by
  rcases of_select h with ⟨s, hscan, rfl⟩
  have hmem : v ∈ s.unusable := by
    unfold conclude at hv
    split at hv
    · exact hv
    · exact hv
  rcases of_mem_unusable hscan hmem with hnone | hvisit
  · cases hnone
  · exact hvisit

theorem of_disable_select {space : CodeSpace} {head : UInt32} {draw : Nat}
    {selection : Selection} {before after : MetaSpace}
    (h : select ctx o space head usable draw before = .ok selection after)
    (hdisable : selection.disable = true) {v : Nat} {b : Blob}
    (hb : (space.versions head)[v]? = some (.ok b)) :
    usable v = false ∨
      ∃ visit, Visits ctx o usable 0 {} (space.versions head) before visit ∧
        visit.version = v ∧ visit.blob = b ∧ visit.state.FailsForGood := by
  rcases of_select h with ⟨s, hscan, rfl⟩
  have hdone : s.allUnusable = true ∧ s.scannedAll = true := by
    unfold conclude at hdisable
    split at hdisable
    · rename_i hdone
      exact Bool.and_eq_true_iff.mp hdone
    · cases hdisable
  have hall := of_allUnusable hscan hdone.1 hdone.2 hb
  rw [Nat.zero_add] at hall
  exact hall

theorem disable_of_failsForGood {space : CodeSpace} {head : UInt32} {draw : Nat}
    {selection : Selection} {before after : MetaSpace}
    (h : select ctx o space head usable draw before = .ok selection after)
    (hfails : ∀ visit,
      Visits ctx o usable 0 {} (space.versions head) before visit →
      visit.state.FailsForGood) :
    selection.disable = true := by
  rcases of_select h with ⟨s, hscan, rfl⟩
  rcases marks_of_failsForGood hscan rfl hfails with ⟨hall, hscanned⟩
  unfold conclude
  rw [hall, hscanned]
  rfl

end Selection

end CodeCache
