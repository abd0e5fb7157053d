import CodeCache.Host.World
import CodeCache.Proofs.Assumption.Interchanging
import CodeCache.Proofs.Work

/-!
# Contradictions that are outgrown

A process counts on: no counter is taken back, and no receiver that was seen is
forgotten. A profile that has contradicted a speculation mostly goes on to do so, but
some contradictions pass: one other receiver is none once a second one has come.
-/

namespace CodeCache

/-!
## Growth
-/

structure ReceiverRow.Grows (row row' : ReceiverRow) : Prop where
  klass_eq : row'.klass = row.klass
  count_le : row.count ≤ row'.count

def RowsGrow (rows rows' : List ReceiverRow) : Prop :=
  ∃ kept added, rows' = kept ++ added ∧ List.Forall₂ ReceiverRow.Grows rows kept

structure CallProfile.Grows (p p' : CallProfile) : Prop where
  count_le : p.count ≤ p'.count
  receivers : RowsGrow p.receivers p'.receivers

inductive ProfileCell.Grows : ProfileCell → ProfileCell → Prop where
  | counter {count count' : Int64} :
    count ≤ count' → Grows (.counter count) (.counter count')
  | virtualCall {count count' : Int64} {rows rows' : List ReceiverRow} :
    count ≤ count' → RowsGrow rows rows' →
      Grows (.virtualCall count rows) (.virtualCall count' rows')
  | branch {taken taken' notTaken notTaken' : Int64} :
    taken ≤ taken' → notTaken ≤ notTaken' →
      Grows (.branch taken notTaken) (.branch taken' notTaken')

/-- The process has run on between two snapshots, and its constants have not changed. -/
structure Host.ProfilesGrow (old new : Host) : Prop where
  callProfile : ∀ m bci, (old.callProfile m bci).Grows (new.callProfile m bci)
  hasMethodData : ∀ m, old.hasMethodData m = true → new.hasMethodData m = true
  isMature : ∀ m, old.isMature m = true → new.isMature m = true
  profileAt : ∀ m bci cell, old.profileAt m bci = some cell →
    ∃ cell', new.profileAt m bci = some cell' ∧ cell.Grows cell'
  constantField_eq : new.constantField = old.constantField

section

variable {rows rows' : List ReceiverRow}

theorem ReceiverRow.Grows.refl (row : ReceiverRow) : row.Grows row :=
  ⟨rfl, Int64.le_refl _⟩

theorem RowsGrow.refl (rows : List ReceiverRow) : RowsGrow rows rows :=
  ⟨rows, [], (List.append_nil rows).symm, List.forall₂_same.mpr fun row _ => .refl row⟩

theorem CallProfile.Grows.refl (p : CallProfile) : p.Grows p :=
  ⟨Int64.le_refl _, .refl _⟩

theorem ProfileCell.Grows.refl : ∀ cell : ProfileCell, cell.Grows cell
  | .counter _ => .counter (Int64.le_refl _)
  | .virtualCall _ rows => .virtualCall (Int64.le_refl _) (.refl rows)
  | .branch .. => .branch (Int64.le_refl _) (Int64.le_refl _)

theorem RowsGrow.exists_klass_eq (h : RowsGrow rows rows') {row : ReceiverRow}
    (hrow : row ∈ rows) :
    ∃ row' ∈ rows', row'.klass = row.klass := by
  rcases h with ⟨kept, added, rfl, hkept⟩
  rcases exists_of_mem_left hkept hrow with ⟨row', hrow', hgrows⟩
  exact ⟨row', List.mem_append_left added hrow', hgrows.klass_eq⟩

theorem RowsGrow.of_single {row : ReceiverRow} (h : RowsGrow [row] rows') :
    ∃ row' added, rows' = row' :: added ∧ row'.klass = row.klass := by
  rcases h with ⟨kept, added, rfl, hkept⟩
  cases hkept with
  | cons hgrows hnone =>
      cases hnone
      exact ⟨_, added, rfl, hgrows.klass_eq⟩

theorem World.profilesGrow_setCallProfile {w : World} {m : MethodId} {bci : Int32}
    {p : CallProfile} (h : (w.callProfile m bci).Grows p) :
    w.host.ProfilesGrow (w.setCallProfile m bci p).host where
  callProfile := by
    intro m' bci'
    show (w.callProfile m' bci').Grows ((w.setCallProfile m bci p).callProfile m' bci')
    by_cases hkey : (m', bci') = (m, bci)
    · cases hkey
      simpa [World.callProfile, World.setCallProfile] using h
    · have hother : (w.setCallProfile m bci p).callProfile m' bci' =
          w.callProfile m' bci' := by
        unfold World.callProfile World.setCallProfile
        rw [List.lookup_cons, beq_eq_false_iff_ne.mpr hkey]
      rw [hother]
      exact .refl _
  hasMethodData := by
    intro m' hdata
    show (w.setCallProfile m bci p).hasMethodData m' = true
    unfold World.hasMethodData World.setCallProfile
    rw [List.any_cons, Bool.or_left_comm]
    exact Bool.or_eq_true_iff.mpr (Or.inr hdata)
  isMature := fun _ h => h
  profileAt := fun _ _ cell hcell => ⟨cell, hcell, .refl cell⟩
  constantField_eq := rfl

end

def CallProfile.unprofiled (p : CallProfile) : Int64 :=
  p.receivers.foldl (fun other row => other - row.count) p.count

namespace Speculation

/-!
## What is rejected
-/

theorem of_bind_eq_rejected {α β : Type} {first : Except Error α}
    {next : α → Except Error β} {cause : Rejection}
    (hfirst : ∀ cause, first ≠ .error (.optRejected cause))
    (h : (first >>= next) = .error (.optRejected cause)) :
    ∃ a, first = .ok a ∧ next a = .error (.optRejected cause) := by
  cases first with
  | error e =>
      cases h
      exact absurd rfl (hfirst cause)
  | ok a => exact ⟨a, rfl, h⟩

theorem entityAt_ne_rejected (ctx : ScoreContext) (index : UInt32) (cause : Rejection) :
    ctx.entityAt index ≠ .error (.optRejected cause) := by
  unfold ScoreContext.entityAt
  split <;> nofun

theorem methodAt_ne_rejected (ctx : ScoreContext) (index : UInt32) (cause : Rejection) :
    ctx.methodAt index ≠ .error (.optRejected cause) := by
  intro h
  unfold ScoreContext.methodAt at h
  rcases of_bind_eq_rejected (entityAt_ne_rejected ctx index) h with ⟨e, -, h⟩
  cases e <;> cases h

theorem classAt_ne_rejected (ctx : ScoreContext) (index : UInt32) (cause : Rejection) :
    ctx.classAt index ≠ .error (.optRejected cause) := by
  intro h
  unfold ScoreContext.classAt at h
  rcases of_bind_eq_rejected (entityAt_ne_rejected ctx index) h with ⟨e, -, h⟩
  cases e <;> cases h

theorem mapM_classAt_ne_rejected (ctx : ScoreContext) (index : Option UInt32)
    (cause : Rejection) :
    index.mapM ctx.classAt ≠ .error (.optRejected cause) := by
  intro h
  cases index with
  | none => cases h
  | some index =>
      rw [Option.mapM_some] at h
      rcases of_bind_eq_rejected (classAt_ne_rejected ctx index) h with ⟨k, -, h⟩
      cases h

namespace TypeChecks

variable (ctx : ScoreContext) {t : TypeChecks}

def Tests (t : TypeChecks) (k : ClassId) : Prop :=
  k = t.first ∨ some k = t.second

theorem rowsScore_of_trap (htrap : t.missIsTrap = true) (rows : List ReceiverRow)
    (total other : Int64) :
    ((∀ row ∈ rows, t.Tests row.klass) ∧ ∃ total', t.rowsScore ctx rows (total, other) =
        .ok (total', rows.foldl (fun other row => other - row.count) other)) ∨
      ∃ row ∈ rows, ¬ t.Tests row.klass ∧ t.rowsScore ctx rows (total, other) =
        .error (.optRejected (.trapsOnReceiver t.bci (ctx.host.className row.klass))) := by
  induction rows generalizing total other with
  | nil => exact Or.inl ⟨nofun, total, rfl⟩
  | cons row rows ih =>
      by_cases htests : t.Tests row.klass
      · have hrow : ∃ cost, t.rowScore ctx row = .ok cost := by
          unfold rowScore
          by_cases hfirst : row.klass = t.first
          · exact ⟨_, if_pos hfirst⟩
          · rw [if_neg hfirst, if_pos (htests.resolve_left hfirst)]
            exact ⟨_, rfl⟩
        rcases hrow with ⟨cost, hcost⟩
        unfold rowsScore
        rw [hcost]
        rcases ih (total + cost) (other - row.count) with
          ⟨hall, total', hscore⟩ | ⟨bad, hbad, hmiss, hscore⟩
        · exact Or.inl ⟨List.forall_mem_cons.mpr ⟨htests, hall⟩, total', hscore⟩
        · exact Or.inr ⟨bad, List.mem_cons_of_mem row hbad, hmiss, hscore⟩
      · refine Or.inr ⟨row, List.mem_cons_self, htests, ?_⟩
        unfold rowsScore rowScore
        rw [if_neg fun h => htests (Or.inl h), if_neg fun h => htests (Or.inr h),
          if_pos htrap]
        rfl

theorem rowsScore_of_no_trap (htrap : t.missIsTrap = false) (rows : List ReceiverRow)
    (state : Int64 × Int64) :
    ∃ state', t.rowsScore ctx rows state = .ok state' := by
  induction rows generalizing state with
  | nil => exact ⟨state, rfl⟩
  | cons row rows ih =>
      have hrow : ∃ cost, t.rowScore ctx row = .ok cost := by
        unfold rowScore
        rw [htrap]
        split
        · exact ⟨_, rfl⟩
        · split <;> exact ⟨_, rfl⟩
      rcases hrow with ⟨cost, hcost⟩
      rcases ih (state.1 + cost, state.2 - row.count) with ⟨state', hstate⟩
      refine ⟨state', ?_⟩
      unfold rowsScore
      rw [hcost]
      exact hstate

def Passes (t : TypeChecks) (p : CallProfile) : Prop :=
  (∀ row ∈ p.receivers, t.Tests row.klass) ∧ p.unprofiled ≤ 0

/-- What can come of the checks: they pass, a receiver misses them, or more calls were
counted than receivers. -/
theorem score_cases (t : TypeChecks) (p : CallProfile) :
    (∃ total, t.score ctx p = .ok total ∧ (t.missIsTrap = true → t.Passes p)) ∨
      (t.missIsTrap = true ∧ ∃ row ∈ p.receivers, ¬ t.Tests row.klass ∧ t.score ctx p =
        .error (.optRejected (.trapsOnReceiver t.bci (ctx.host.className row.klass)))) ∨
      (t.missIsTrap = true ∧ 0 < p.unprofiled ∧ t.score ctx p =
        .error (.optRejected (.trapsOnUnprofiled t.bci p.unprofiled))) := by
  unfold score
  cases htrap : t.missIsTrap with
  | false =>
      rcases rowsScore_of_no_trap ctx htrap p.receivers (0, p.count) with
        ⟨⟨total, other⟩, hrows⟩
      rw [hrows]
      refine Or.inl ?_
      show ∃ total', (if 0 < other then _ else _) = _ ∧ _
      split
      · exact ⟨_, rfl, nofun⟩
      · exact ⟨_, rfl, nofun⟩
  | true =>
      rcases rowsScore_of_trap ctx htrap p.receivers 0 p.count with
        ⟨hall, total, hrows⟩ | ⟨row, hrow, hmiss, hrows⟩
      · rw [hrows]
        show (∃ total', (if 0 < p.unprofiled then _ else _) = _ ∧ _) ∨ _ ∨
          _ ∧ _ ∧ (if 0 < p.unprofiled then _ else _) = _
        by_cases hleft : 0 < p.unprofiled
        · exact Or.inr (Or.inr ⟨rfl, hleft, if_pos hleft⟩)
        · exact Or.inl ⟨total, if_neg hleft, fun _ => ⟨hall, Int64.not_lt.mp hleft⟩⟩
      · rw [hrows]
        exact Or.inr (Or.inl ⟨rfl, row, hrow, hmiss, rfl⟩)

/-- The checks are contradicted where a miss traps, unless every call passes them. -/
theorem rejects_iff (t : TypeChecks) (p : CallProfile) :
    (∃ cause, t.score ctx p = .error (.optRejected cause)) ↔
      t.missIsTrap = true ∧ ¬ t.Passes p := by
  rcases t.score_cases ctx p with
    ⟨total, hscore, hpasses⟩ | ⟨htrap, row, hrow, hmiss, hscore⟩ | ⟨htrap, hleft, hscore⟩
  · refine iff_of_false ?_ fun h => h.2 (hpasses h.1)
    rintro ⟨cause, hcause⟩
    cases hscore.symm.trans hcause
  · exact iff_of_true ⟨_, hscore⟩ ⟨htrap, fun hpasses => hmiss (hpasses.1 row hrow)⟩
  · exact iff_of_true ⟨_, hscore⟩ ⟨htrap, fun hpasses => Int64.not_lt.mpr hpasses.2 hleft⟩

theorem cause_of_rejected {p : CallProfile} {cause : Rejection}
    (h : t.score ctx p = .error (.optRejected cause)) :
    t.missIsTrap = true ∧
      ((∃ row ∈ p.receivers, ¬ t.Tests row.klass ∧
        cause = .trapsOnReceiver t.bci (ctx.host.className row.klass)) ∨
      cause = .trapsOnUnprofiled t.bci p.unprofiled) := by
  rcases t.score_cases ctx p with
    ⟨total, hscore, -⟩ | ⟨htrap, row, hrow, hmiss, hscore⟩ | ⟨htrap, -, hscore⟩
  · cases hscore.symm.trans h
  · cases hscore.symm.trans h
    exact ⟨htrap, Or.inl ⟨row, hrow, hmiss, rfl⟩⟩
  · cases hscore.symm.trans h
    exact ⟨htrap, Or.inr rfl⟩

theorem not_passes_of_grows {p p' : CallProfile} (hgrows : p.Grows p') {row : ReceiverRow}
    (hrow : row ∈ p.receivers) (hmiss : ¬ t.Tests row.klass) :
    ¬ t.Passes p' := by
  rcases hgrows.receivers.exists_klass_eq hrow with ⟨row', hrow', hklass⟩
  rintro ⟨hall, -⟩
  have htests := hall row' hrow'
  rw [hklass] at htests
  exact hmiss htests

end TypeChecks

/-!
## What is outgrown
-/

/-- The ways in which a contradiction passes: what the profile at hand says now, the
record, and why it was rejected before. -/
inductive Outgrown (ctx : ScoreContext) : Speculation → Rejection → Prop where
  /-- Every call is accounted for, and by a receiver that is tested for. -/
  | accounted {method : UInt32} {bci : Int32} {klass1 : UInt32} {klass2 : Option UInt32}
      {morphism : Int32} {caller : MethodId} {first : ClassId} {second : Option ClassId}
      {count : Int64} :
    ctx.methodAt method = .ok caller → ctx.classAt klass1 = .ok first →
    klass2.mapM ctx.classAt = .ok second →
    (∀ row ∈ (ctx.host.callProfile caller bci).receivers,
      row.klass = first ∨ some row.klass = second) →
    (ctx.host.callProfile caller bci).unprofiled ≤ 0 →
      Outgrown ctx (deVirtual method bci klass1 klass2 morphism true)
        (.trapsOnUnprofiled bci count)
  /-- The checks do not fail any more, and no other receiver is the only one. -/
  | nonnegative {method : UInt32} {bci : Int32} {klass : UInt32} {m : MethodId} :
    ctx.methodAt method = .ok m → 0 ≤ (ctx.host.callProfile m bci).count →
    (∀ row, (ctx.host.callProfile m bci).receivers = [row] →
      ctx.classAt klass = .ok row.klass) →
      Outgrown ctx (profiledReceiver method bci klass) (.negativeCount bci)
  /-- The other receiver is not the only one any more. -/
  | joined {method : UInt32} {bci : Int32} {klass : UInt32} {m : MethodId}
      {className : String} :
    ctx.methodAt method = .ok m → 2 ≤ (ctx.host.callProfile m bci).morphism →
      Outgrown ctx (profiledReceiver method bci klass) (.otherReceiver bci className)
  /-- The counters of the branch add up to more than a double word holds. -/
  | overflown {method : UInt32} {bci : Int32} {takenTrap : Bool} {m : MethodId}
      {taken notTaken taken' notTaken' : Int64} :
    ctx.methodAt method = .ok m →
    ctx.host.profileAt m bci = some (.branch taken' notTaken') → taken' + notTaken' ≤ 40 →
      Outgrown ctx (unstableIf method bci takenTrap) (.trappedBranch bci taken notTaken)

section

variable {ctx : ScoreContext} {new : Host} {method klass : UInt32} {bci : Int32}
  {cause : Rejection}

theorem score_deVirtual {klass1 : UInt32} {klass2 : Option UInt32} {morphism : Int32}
    {missIsTrap : Bool} {caller : MethodId} {first : ClassId} {second : Option ClassId}
    (hcaller : ctx.methodAt method = .ok caller)
    (hcount : ¬ (ctx.host.callProfile caller bci).count ≤ 0)
    (hfirst : ctx.classAt klass1 = .ok first)
    (hsecond : klass2.mapM ctx.classAt = .ok second) :
    (deVirtual method bci klass1 klass2 morphism missIsTrap).score ctx =
      TypeChecks.score ctx { bci, first, second, missIsTrap }
        (ctx.host.callProfile caller bci) := by
  simp only [score, hcaller, hfirst, hsecond]
  exact if_neg hcount

theorem rejected_deVirtual_iff {klass1 : UInt32} {klass2 : Option UInt32}
    {morphism : Int32} {missIsTrap : Bool} (hgrows : ctx.host.ProfilesGrow new)
    (h : (deVirtual method bci klass1 klass2 morphism missIsTrap).score ctx =
      .error (.optRejected cause)) :
    (deVirtual method bci klass1 klass2 morphism missIsTrap).Rejected
        { ctx with host := new } ↔
      ¬ (deVirtual method bci klass1 klass2 morphism missIsTrap).Outgrown
        { ctx with host := new } cause := by
  unfold score at h
  rcases of_bind_eq_rejected (methodAt_ne_rejected ctx method) h with ⟨caller, hcaller, h⟩
  dsimp only at h
  by_cases hcount : (ctx.host.callProfile caller bci).count ≤ 0
  · rw [if_pos hcount] at h
    cases h
  rw [if_neg hcount] at h
  rcases of_bind_eq_rejected (classAt_ne_rejected ctx klass1) h with ⟨first, hfirst, h⟩
  rcases of_bind_eq_rejected (mapM_classAt_ne_rejected ctx klass2) h with
    ⟨second, hsecond, h⟩
  have hgrown := hgrows.callProfile caller bci
  have hcount' : ¬ (new.callProfile caller bci).count ≤ 0 :=
    fun hle => hcount (Int64.le_trans hgrown.count_le hle)
  have hscore : (deVirtual method bci klass1 klass2 morphism missIsTrap).score
      { ctx with host := new } = TypeChecks.score { ctx with host := new }
        { bci, first, second, missIsTrap } (new.callProfile caller bci) :=
    score_deVirtual hcaller hcount' hfirst hsecond
  unfold Rejected
  rw [hscore, TypeChecks.rejects_iff]
  rcases TypeChecks.cause_of_rejected ctx h with ⟨htrap, ⟨row, hrow, hmiss, rfl⟩ | rfl⟩
  · exact iff_of_true ⟨htrap, TypeChecks.not_passes_of_grows hgrown hrow hmiss⟩ nofun
  · cases htrap
    constructor
    · rintro ⟨-, hfails⟩ (⟨hcaller', hfirst', hsecond', hall, hnone⟩)
      cases hcaller.symm.trans hcaller'
      cases hfirst.symm.trans hfirst'
      cases hsecond.symm.trans hsecond'
      exact hfails ⟨hall, hnone⟩
    · intro hnot
      exact ⟨rfl, fun hpasses =>
        hnot (.accounted hcaller hfirst hsecond hpasses.1 hpasses.2)⟩

theorem score_profiledReceiver {m : MethodId} {expected : ClassId}
    (hm : ctx.methodAt method = .ok m) (hexpected : ctx.classAt klass = .ok expected) :
    (profiledReceiver method bci klass).score ctx =
      if (ctx.host.callProfile m bci).count < 0 then
        .error (.optRejected (.negativeCount bci))
      else
        match (ctx.host.callProfile m bci).receivers with
        | [row] =>
          if row.klass = expected then
            .ok ((ctx.costs.testJump - ctx.costs.receiverCheck) * row.count)
          else .error (.optRejected (.otherReceiver bci (ctx.host.className row.klass)))
        | _ => .ok 0 := by
  simp only [score, hm, hexpected]
  rfl

theorem cause_profiledReceiver {m : MethodId} {expected : ClassId}
    (hm : ctx.methodAt method = .ok m) (hexpected : ctx.classAt klass = .ok expected)
    (h : (profiledReceiver method bci klass).score ctx = .error (.optRejected cause)) :
    ((ctx.host.callProfile m bci).count < 0 ∧ cause = .negativeCount bci) ∨
      (0 ≤ (ctx.host.callProfile m bci).count ∧
        ∃ row, (ctx.host.callProfile m bci).receivers = [row] ∧ row.klass ≠ expected ∧
          cause = .otherReceiver bci (ctx.host.className row.klass)) := by
  rw [score_profiledReceiver hm hexpected] at h
  split at h
  case isTrue hcount =>
    cases h
    exact Or.inl ⟨hcount, rfl⟩
  case isFalse hcount =>
    refine Or.inr ⟨Int64.not_lt.mp hcount, ?_⟩
    split at h
    case h_2 => cases h
    case h_1 row hrows =>
      split at h
      case isTrue => cases h
      case isFalse hklass =>
        cases h
        exact ⟨row, hrows, hklass, rfl⟩

theorem rejected_profiledReceiver {m : MethodId} {expected : ClassId}
    (hm : ctx.methodAt method = .ok m) (hexpected : ctx.classAt klass = .ok expected) :
    (profiledReceiver method bci klass).Rejected ctx ↔
      (ctx.host.callProfile m bci).count < 0 ∨
        ∃ row, (ctx.host.callProfile m bci).receivers = [row] ∧ row.klass ≠ expected := by
  constructor
  · rintro ⟨cause, h⟩
    rcases cause_profiledReceiver hm hexpected h with
      ⟨hcount, -⟩ | ⟨-, row, hrows, hklass, -⟩
    · exact Or.inl hcount
    · exact Or.inr ⟨row, hrows, hklass⟩
  · intro h
    unfold Rejected
    rw [score_profiledReceiver hm hexpected]
    by_cases hcount : (ctx.host.callProfile m bci).count < 0
    · exact ⟨_, if_pos hcount⟩
    · rcases h.resolve_left hcount with ⟨row, hrows, hklass⟩
      rw [if_neg hcount, hrows]
      exact ⟨_, if_neg hklass⟩

theorem rejected_profiledReceiver_iff (hgrows : ctx.host.ProfilesGrow new)
    (h : (profiledReceiver method bci klass).score ctx = .error (.optRejected cause)) :
    (profiledReceiver method bci klass).Rejected { ctx with host := new } ↔
      ¬ (profiledReceiver method bci klass).Outgrown { ctx with host := new } cause := by
  have hparts := h
  unfold score at hparts
  rcases of_bind_eq_rejected (methodAt_ne_rejected ctx method) hparts with ⟨m, hm, hparts⟩
  rcases of_bind_eq_rejected (classAt_ne_rejected ctx klass) hparts with
    ⟨expected, hexpected, -⟩
  have hgrown := hgrows.callProfile m bci
  have hrejected : (profiledReceiver method bci klass).Rejected { ctx with host := new } ↔
      (new.callProfile m bci).count < 0 ∨
        ∃ row, (new.callProfile m bci).receivers = [row] ∧ row.klass ≠ expected :=
    rejected_profiledReceiver hm hexpected
  rw [hrejected]
  rcases cause_profiledReceiver hm hexpected h with
    ⟨-, rfl⟩ | ⟨hcount, row, hrows, hklass, rfl⟩
  · constructor
    · rintro hfails (_ | ⟨hm', hnonnegative, hsingle⟩)
      cases hm.symm.trans hm'
      rcases hfails with hcount' | ⟨row, hrow, hklass⟩
      · exact Int64.not_lt.mpr hnonnegative hcount'
      · cases hexpected.symm.trans (hsingle row hrow)
        exact hklass rfl
    · intro hnot
      by_contra hfails
      rw [not_or, not_exists] at hfails
      refine hnot (.nonnegative hm (Int64.not_lt.mp hfails.1) fun row hrow => ?_)
      have hklass : row.klass = expected := by
        by_contra hne
        exact hfails.2 row ⟨hrow, hne⟩
      rw [hklass]
      exact hexpected
  · -- the other receiver is still the first one
    have hfirst := hgrown.receivers
    rw [hrows] at hfirst
    rcases hfirst.of_single with ⟨row', added, hrows', hklass'⟩
    cases added with
    | nil =>
        have hother : row'.klass ≠ expected := fun heq => hklass (hklass'.symm.trans heq)
        refine iff_of_true (Or.inr ⟨row', hrows', hother⟩) ?_
        rintro (_ | _ | ⟨hm', hseveral⟩)
        cases hm.symm.trans hm'
        unfold CallProfile.morphism at hseveral
        rw [hrows'] at hseveral
        exact absurd hseveral (Nat.not_succ_le_self 1)
    | cons other added =>
        refine iff_of_false ?_ fun hnot => hnot (.joined hm ?_)
        · rintro (hcount' | ⟨row'', hsingle, -⟩)
          · exact Int64.not_lt.mpr (Int64.le_trans hcount hgrown.count_le) hcount'
          · cases hrows'.symm.trans hsingle
        · unfold CallProfile.morphism
          rw [hrows']
          exact Nat.le_add_left 2 _

theorem ne_zero_of_le {a b : Int64} (ha : 0 ≤ a) (hne : a ≠ 0) (hle : a ≤ b) : b ≠ 0 := by
  rintro rfl
  exact hne (Int64.le_antisymm hle ha)

def trapped (takenTrap : Bool) (taken notTaken : Int64) : Int64 :=
  if takenTrap then taken else notTaken

theorem score_unstableIf (ctx : ScoreContext) {takenTrap : Bool} {m : MethodId}
    {taken notTaken : Int64} (hm : ctx.methodAt method = .ok m)
    (hdata : ctx.host.hasMethodData m = true) (hmature : ctx.host.isMature m = true)
    (hcell : ctx.host.profileAt m bci = some (.branch taken notTaken)) :
    (unstableIf method bci takenTrap).score ctx =
      if 0 ≤ taken ∧ 0 ≤ notTaken ∧ 40 < taken + notTaken then
        if trapped takenTrap taken notTaken = 0 then
          .ok (-ctx.costs.cuttedIf * (taken + notTaken))
        else .error (.optRejected (.trappedBranch bci taken notTaken))
      else .ok 0 := by
  have hedge : ((takenTrap && taken == 0) || (!takenTrap && notTaken == 0)) =
      decide (trapped takenTrap taken notTaken = 0) := by
    cases takenTrap with
    | true => simp [trapped, beq_eq_decide]
    | false => simp [trapped, beq_eq_decide]
  simp only [score, hm]
  show (if (!(ctx.host.hasMethodData m && ctx.host.isMature m)) = true then _ else _) = _
  rw [hdata, hmature, hcell]
  show (if 0 ≤ taken ∧ 0 ≤ notTaken ∧ 40 < taken + notTaken then
    (if ((takenTrap && taken == 0) || (!takenTrap && notTaken == 0)) = true then _ else _)
    else _) = _
  simp only [hedge, decide_eq_true_eq]
  rfl

theorem exists_branch_of_rejected {takenTrap : Bool}
    (h : (unstableIf method bci takenTrap).score ctx = .error (.optRejected cause)) :
    ∃ m taken notTaken, ctx.methodAt method = .ok m ∧ ctx.host.hasMethodData m = true ∧
      ctx.host.isMature m = true ∧
      ctx.host.profileAt m bci = some (.branch taken notTaken) := by
  unfold score at h
  rcases of_bind_eq_rejected (methodAt_ne_rejected ctx method) h with ⟨m, hm, h⟩
  cases hready : ctx.host.hasMethodData m && ctx.host.isMature m with
  | false =>
      rw [hready] at h
      cases h
  | true =>
      rw [hready] at h
      rcases Bool.and_eq_true_iff.mp hready with ⟨hdata, hmature⟩
      cases hcell : ctx.host.profileAt m bci with
      | none =>
          rw [hcell] at h
          cases h
      | some cell =>
          rw [hcell] at h
          cases cell with
          | counter count => cases h
          | virtualCall count rows => cases h
          | branch taken notTaken => exact ⟨m, taken, notTaken, hm, hdata, hmature, hcell⟩

theorem rejected_unstableIf_iff {takenTrap : Bool} (hgrows : ctx.host.ProfilesGrow new)
    (h : (unstableIf method bci takenTrap).score ctx = .error (.optRejected cause)) :
    (unstableIf method bci takenTrap).Rejected { ctx with host := new } ↔
      ¬ (unstableIf method bci takenTrap).Outgrown { ctx with host := new } cause := by
  rcases exists_branch_of_rejected h with
    ⟨m, taken, notTaken, hm, hdata, hmature, hcell⟩
  rw [score_unstableIf ctx hm hdata hmature hcell] at h
  split at h
  case isFalse => cases h
  case isTrue hbounds =>
    split at h
    case isTrue => cases h
    case isFalse hedge =>
      cases h
      rcases hgrows.profileAt m bci _ hcell with ⟨cell', hcell', hgrown⟩
      rcases hgrown with _ | _ | ⟨htaken, hnotTaken⟩
      rename_i taken' notTaken'
      have hedge' : trapped takenTrap taken' notTaken' ≠ 0 := by
        cases takenTrap with
        | true => exact ne_zero_of_le hbounds.1 hedge htaken
        | false => exact ne_zero_of_le hbounds.2.1 hedge hnotTaken
      unfold Rejected
      rw [score_unstableIf { ctx with host := new } hm
        (hgrows.hasMethodData m hdata) (hgrows.isMature m hmature) hcell']
      by_cases hsum : 40 < taken' + notTaken'
      · rw [if_pos ⟨Int64.le_trans hbounds.1 htaken, Int64.le_trans hbounds.2.1 hnotTaken,
          hsum⟩, if_neg hedge']
        refine iff_of_true ⟨_, rfl⟩ ?_
        rintro (_ | _ | _ | ⟨hm', hcell'', hfew⟩)
        cases hm.symm.trans hm'
        cases hcell'.symm.trans hcell''
        exact Int64.not_lt.mpr hfew hsum
      · rw [if_neg fun hbounds' => hsum hbounds'.2.2]
        exact iff_of_false nofun fun hnot =>
          hnot (.overflown hm hcell' (Int64.not_lt.mp hsum))

theorem not_rejected_inlined (ctx : ScoreContext) (caller callee : UInt32) (bci : Int32) :
    ¬ (inlined caller callee bci).Rejected ctx := by
  rintro ⟨cause, h⟩
  unfold score at h
  rcases of_bind_eq_rejected (methodAt_ne_rejected ctx caller) h with ⟨m, -, h⟩
  cases hdata : ctx.host.hasMethodData m with
  | false =>
      rw [hdata] at h
      cases h
  | true =>
      rw [hdata] at h
      cases hcell : ctx.host.profileAt m bci with
      | none =>
          rw [hcell] at h
          cases h
      | some cell =>
          rw [hcell] at h
          cases cell with
          | counter count => cases h
          | virtualCall count rows =>
              rcases of_bind_eq_rejected (methodAt_ne_rejected ctx callee) h with ⟨_, -, h⟩
              cases h
          | branch taken notTaken => cases h

end

/-- Once the profiles have grown, a contradicted record is rejected again, unless its
contradiction is one that has passed. -/
theorem rejected_iff_not_outgrown {ctx : ScoreContext} {new : Host} {r : Speculation}
    {cause : Rejection} (hgrows : ctx.host.ProfilesGrow new)
    (h : r.score ctx = .error (.optRejected cause)) :
    r.Rejected { ctx with host := new } ↔ ¬ r.Outgrown { ctx with host := new } cause := by
  cases r with
  | deVirtual method bci klass1 klass2 morphism missIsTrap =>
      exact rejected_deVirtual_iff hgrows h
  | inlined caller callee bci => exact absurd ⟨cause, h⟩ (not_rejected_inlined ctx _ _ _)
  | profiledReceiver method bci klass => exact rejected_profiledReceiver_iff hgrows h
  | unstableIf method bci takenTrap => exact rejected_unstableIf_iff hgrows h
  | constantReplace klass offset type value =>
      refine iff_of_true ?_ nofun
      have hscore :
          (constantReplace klass offset type value).score { ctx with host := new } =
            (constantReplace klass offset type value).score ctx := by
        simp only [score, hgrows.constantField_eq]
        rfl
      exact ⟨cause, hscore.trans h⟩

def metOne : World :=
  (World.empty 0).setCallProfile ⟨0⟩ 3 { count := 10, receivers := [⟨⟨1⟩, 10⟩] }

def metTwo : World :=
  metOne.setCallProfile ⟨0⟩ 3 { count := 11, receivers := [⟨⟨1⟩, 10⟩, ⟨⟨0⟩, 1⟩] }

def scoredIn (w : World) : ScoreContext where
  metas := [some (.method ⟨0⟩), some (.klass ⟨0⟩)]
  host := w.host

theorem profilesGrow_metTwo : (scoredIn metOne).host.ProfilesGrow metTwo.host :=
  World.profilesGrow_setCallProfile
    ⟨by decide, [⟨⟨1⟩, 10⟩], [⟨⟨0⟩, 1⟩], rfl, .cons (.refl _) .nil⟩

theorem rejected_iff_not_outgrown_of_trap :
    (deVirtual 1 3 2 none 1 true).Rejected (scoredIn metTwo) := by
  refine (rejected_iff_not_outgrown profilesGrow_metTwo rfl).mpr ?_
  nofun

theorem passes_with_second_receiver :
    (scoredIn metOne).host.ProfilesGrow (scoredIn metTwo).host ∧
      (profiledReceiver 1 3 2).Rejected (scoredIn metOne) ∧
      ¬ (profiledReceiver 1 3 2).Rejected (scoredIn metTwo) :=
  ⟨profilesGrow_metTwo, by decide, by decide⟩

end Speculation

end CodeCache
