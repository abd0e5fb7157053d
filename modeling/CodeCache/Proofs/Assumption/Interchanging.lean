import CodeCache.Assumption.Score
import CodeCache.Host.World
import CodeCache.Proofs.Alike
import CodeCache.Proofs.Assumption.Decisions

/-!
# Records that make the same decision

A record that is equivalent to another one tests for the same receivers, perhaps in
the other order. The order tells what a call costs, but not whether the profile
contradicts the record. Records of folded constants are equivalent whatever their
types are, while the check of a constant asks for its type too.
-/

namespace CodeCache

abbrev BothPass {α β : Type} (x : Except Error α) (y : Except Error β) : Prop :=
  SameOutcome (fun _ _ => True) x y

theorem ScoreContext.classAt_cases (ctx : ScoreContext) (index : UInt32) :
    (∃ k, ctx.classAt index = .ok k) ∨
      ∃ e, ctx.classAt index = .error e ∧ e.className = "Corruption" := by
  unfold classAt entityAt
  split
  · rename_i entity _
    cases entity with
    | klass k => exact Or.inl ⟨k, rfl⟩
    | method m => exact Or.inr ⟨_, rfl, rfl⟩
  · exact Or.inr ⟨_, rfl, rfl⟩

namespace Speculation

def Rejected (ctx : ScoreContext) (r : Speculation) : Prop :=
  ∃ cause, r.score ctx = .error (.optRejected cause)

instance (ctx : ScoreContext) (r : Speculation) : Decidable (r.Rejected ctx) :=
  match h : r.score ctx with
  | .error (.optRejected cause) => .isTrue ⟨cause, h⟩
  | .ok _ => .isFalse fun ⟨_, hcause⟩ => nomatch h.symm.trans hcause
  | .error (.format _) | .error (.fingerprintMismatch _) | .error (.unresolved _)
  | .error (.dependencyViolated _) | .error (.corruption _) | .error (.config _)
  | .error (.fileTooLarge ..) | .error (.internal _) | .error .io =>
    .isFalse fun ⟨_, hcause⟩ => nomatch h.symm.trans hcause

/-!
## Type checks in either order
-/

namespace TypeChecks

def ofTwo (bci : Int32) (first second : ClassId) (missIsTrap : Bool) :
    TypeChecks :=
  { bci, first, second := some second, missIsTrap }

variable (ctx : ScoreContext) (bci : Int32) (k l : ClassId) (trap : Bool)

theorem rowScore_swap (row : ReceiverRow) :
    BothPass ((ofTwo bci k l trap).rowScore ctx row)
      ((ofTwo bci l k trap).rowScore ctx row) := by
  unfold rowScore ofTwo
  dsimp only
  by_cases hk : row.klass = k
  · by_cases hl : row.klass = l
    · rw [if_pos hk, if_pos hl]
      exact .ok trivial
    · rw [if_pos hk, if_neg hl, if_pos (congrArg some hk)]
      exact .ok trivial
  · by_cases hl : row.klass = l
    · rw [if_neg hk, if_pos (congrArg some hl), if_pos hl]
      exact .ok trivial
    · rw [if_neg hk, if_neg hl, if_neg fun h => hl (Option.some.inj h),
        if_neg fun h => hk (Option.some.inj h)]
      cases trap with
      | true => exact .error rfl
      | false => exact .ok trivial

theorem rowsScore_swap (rows : List ReceiverRow) (total total' other : Int64) :
    SameOutcome (fun s s' => s.2 = s'.2)
      ((ofTwo bci k l trap).rowsScore ctx rows (total, other))
      ((ofTwo bci l k trap).rowsScore ctx rows (total', other)) := by
  induction rows generalizing total total' other with
  | nil => exact .ok rfl
  | cons row rows ih =>
      unfold rowsScore
      exact (rowScore_swap ctx bci k l trap row).of_bind fun _ _ _ => ih _ _ _

theorem score_swap (profile : CallProfile) :
    BothPass ((ofTwo bci k l trap).score ctx profile)
      ((ofTwo bci l k trap).score ctx profile) := by
  unfold score
  refine (rowsScore_swap ctx bci k l trap profile.receivers 0 0
    profile.count).of_bind ?_
  rintro ⟨total, other⟩ ⟨total', _⟩ rfl
  dsimp only
  by_cases hleft : 0 < other
  · rw [if_pos hleft, if_pos hleft]
    cases trap with
    | true => exact .error rfl
    | false => exact .ok trivial
  · rw [if_neg hleft, if_neg hleft]
    exact .ok trivial

end TypeChecks

/-!
## Equivalent records
-/

theorem deVirtual_swap (ctx : ScoreContext) (method : UInt32) (bci : Int32)
    (i j : UInt32) (morphism : Int32) (trap : Bool) :
    BothPass ((deVirtual method bci i (some j) morphism trap).score ctx)
      ((deVirtual method bci j (some i) morphism trap).score ctx) := by
  unfold score
  refine (SameOutcome.of_eq (ctx.methodAt method)).of_bind ?_
  rintro caller _ rfl
  dsimp only
  by_cases hcount : (ctx.host.callProfile caller bci).count ≤ 0
  · rw [if_pos hcount, if_pos hcount]
    exact .ok trivial
  · rw [if_neg hcount, if_neg hcount]
    simp only [Option.mapM_some]
    rcases ctx.classAt_cases i with ⟨k, hk⟩ | ⟨e, hk, he⟩
    · rcases ctx.classAt_cases j with ⟨l, hl⟩ | ⟨e, hl, -⟩
      · rw [hk, hl]
        exact TypeChecks.score_swap ctx bci k l trap _
      · rw [hk, hl]
        exact .error rfl
    · rcases ctx.classAt_cases j with ⟨l, hl⟩ | ⟨e', hl, he'⟩
      · rw [hk, hl]
        exact .error rfl
      · rw [hk, hl]
        exact .error (he.trans he'.symm)

theorem score_of_equivalent (ctx : ScoreContext) {r s : Speculation}
    (h : r.equivalent s = true) (howner : r.owner?.isSome = true) :
    BothPass (r.score ctx) (s.score ctx) := by
  rcases equivalent_cases h with rfl | ⟨method, bci, k, l, morphism, trap, rfl, rfl⟩ |
    ⟨_, _, _, _, _, rfl, -⟩
  · exact (SameOutcome.of_eq (r.score ctx)).mono fun _ _ _ => trivial
  · exact deVirtual_swap ctx method bci k l morphism trap
  · cases howner

theorem Rejected.of_bothPass {ctx : ScoreContext} {r s : Speculation}
    (h : BothPass (r.score ctx) (s.score ctx)) (hr : r.Rejected ctx) :
    s.Rejected ctx := by
  rcases hr with ⟨cause, hcause⟩
  rw [hcause] at h
  cases hs : s.score ctx with
  | ok total =>
      rw [hs] at h
      cases h
  | error e =>
      rw [hs] at h
      cases h with
      | error hclass =>
          cases e with
          | optRejected other => exact ⟨other, hs⟩
          | _ => simp [Error.className] at hclass

theorem rejected_iff_of_equivalent (ctx : ScoreContext) {r s : Speculation}
    (h : r.equivalent s = true) (howner : r.owner?.isSome = true) :
    r.Rejected ctx ↔ s.Rejected ctx := by
  have hpass := score_of_equivalent ctx h howner
  exact ⟨.of_bothPass hpass, .of_bothPass hpass.symm⟩

/-!
## Folded constants
-/

def Upheld (ctx : ScoreContext) (klass offset : UInt32) (type : FieldType)
    (value : Int64) : Prop :=
  ∃ k, ctx.classAt klass = .ok k ∧
    (ctx.host.constantField k offset).filter (·.isPrimitive) = some ⟨type, value⟩

/-- The records fold one value as constants of two types, and the field is now a
constant of this value and of one of the types. -/
def ToldByType (ctx : ScoreContext) (r s : Speculation) : Prop :=
  ∃ klass offset type type' value,
    r = constantReplace klass offset type value ∧
    s = constantReplace klass offset type' value ∧ type ≠ type' ∧
    (Upheld ctx klass offset type value ∨ Upheld ctx klass offset type' value)

section

variable {ctx : ScoreContext} {klass offset : UInt32} {type type' : FieldType}
  {value : Int64} {k : ClassId} {r s : Speculation}

theorem upheld_iff (hk : ctx.classAt klass = .ok k) :
    Upheld ctx klass offset type value ↔
      (ctx.host.constantField k offset).filter (·.isPrimitive) =
        some ⟨type, value⟩ := by
  constructor
  · rintro ⟨_, hk', hfield⟩
    rw [hk] at hk'
    cases hk'
    exact hfield
  · exact fun hfield => ⟨k, hk, hfield⟩

theorem Upheld.type_eq (h : Upheld ctx klass offset type value)
    (h' : Upheld ctx klass offset type' value) :
    type = type' := by
  rcases h with ⟨k, hk, hfield⟩
  have hfield' := (upheld_iff hk).mp h'
  rw [hfield] at hfield'
  cases hfield'
  rfl

theorem score_constantReplace (hk : ctx.classAt klass = .ok k) :
    (constantReplace klass offset type value).score ctx =
      match (ctx.host.constantField k offset).filter (·.isPrimitive) with
      | none => .error (.optRejected (.noConstant offset))
      | some current =>
        if current.type = type ∧ current.bits = value then .ok (-1)
        else .error (.optRejected (.changedConstant offset value current.bits)) := by
  simp only [score, hk]
  rfl

theorem rejected_constantReplace_iff (hk : ctx.classAt klass = .ok k) :
    (constantReplace klass offset type value).Rejected ctx ↔
      ¬ Upheld ctx klass offset type value := by
  rw [upheld_iff hk, Rejected, score_constantReplace hk]
  cases (ctx.host.constantField k offset).filter (·.isPrimitive) with
  | none => exact iff_of_true ⟨_, rfl⟩ nofun
  | some current =>
      by_cases hsame : current.type = type ∧ current.bits = value
      · dsimp only
        rw [if_pos hsame]
        rcases hsame with ⟨rfl, rfl⟩
        exact iff_of_false nofun fun h => h rfl
      · dsimp only
        rw [if_neg hsame]
        refine iff_of_true ⟨_, rfl⟩ fun h => hsame ?_
        cases h
        exact ⟨rfl, rfl⟩

theorem not_rejected_constantReplace {e : Error}
    (hclass : ctx.classAt klass = .error e) (he : e.className = "Corruption") :
    ¬ (constantReplace klass offset type value).Rejected ctx := by
  have hscore : (constantReplace klass offset type value).score ctx = .error e := by
    simp only [score, hclass]
    rfl
  rintro ⟨cause, hcause⟩
  rw [hscore] at hcause
  cases hcause
  simp [Error.className] at he

theorem rejected_retype_iff (hne : type ≠ type') :
    ((constantReplace klass offset type value).Rejected ctx ↔
        (constantReplace klass offset type' value).Rejected ctx) ↔
      ¬ (Upheld ctx klass offset type value ∨
        Upheld ctx klass offset type' value) := by
  rcases ctx.classAt_cases klass with ⟨k, hk⟩ | ⟨e, hclass, he⟩
  · have hone : Upheld ctx klass offset type value →
        ¬ Upheld ctx klass offset type' value :=
      fun h h' => hne (h.type_eq h')
    rw [rejected_constantReplace_iff hk, rejected_constantReplace_iff hk]
    tauto
  · have hnone : ∀ type, ¬ Upheld ctx klass offset type value := by
      rintro type ⟨k, hk, -⟩
      rw [hclass] at hk
      cases hk
    refine iff_of_true ?_ fun h => h.elim (hnone type) (hnone type')
    exact iff_of_false (not_rejected_constantReplace hclass he)
      (not_rejected_constantReplace hclass he)

theorem ToldByType.ne (h : ToldByType ctx r s) : r ≠ s := by
  rcases h with ⟨_, _, _, _, _, rfl, rfl, hne, -⟩
  rintro hsame
  cases hsame
  exact hne rfl

/-- Equivalent records are rejected alike, unless they fold a constant of two types
and the field is one of the two. -/
theorem rejected_alike_iff (ctx : ScoreContext) (h : r.equivalent s = true) :
    (r.Rejected ctx ↔ s.Rejected ctx) ↔ ¬ ToldByType ctx r s := by
  by_cases hsame : r = s
  · rw [hsame]
    exact iff_of_true Iff.rfl fun htold => htold.ne rfl
  · rcases equivalent_cases h with heq | ⟨_, _, _, _, _, _, rfl, rfl⟩ |
      ⟨klass, offset, type, type', value, rfl, rfl⟩
    · exact absurd heq hsame
    · -- the receivers have an owner, and nothing of them is a constant
      refine iff_of_true (rejected_iff_of_equivalent ctx h rfl) ?_
      rintro ⟨_, _, _, _, _, hr, -⟩
      cases hr
    · have hne : type ≠ type' := fun heq => hsame (by rw [heq])
      rw [rejected_retype_iff hne]
      refine not_congr ⟨fun h => ⟨_, _, _, _, _, rfl, rfl, hne, h⟩, ?_⟩
      rintro ⟨_, _, _, _, _, hr, hs, -, h⟩
      cases hr
      cases hs
      exact h

end

def inUse : ScoreContext where
  metas := [some (.method ⟨0⟩), some (.klass ⟨0⟩), some (.klass ⟨1⟩)]
  host :=
    let profile : CallProfile := { count := 9, receivers := [⟨⟨2⟩, 9⟩] }
    (((World.empty 0).setCallProfile ⟨0⟩ 4 profile).setConstant ⟨0⟩ 0 (.ofInt 5)).host

theorem rejected_alike_iff_of_two_receivers :
    (deVirtual 1 4 2 (some 3) 2 true).Rejected inUse ∧
      ((deVirtual 1 4 2 (some 3) 2 true).Rejected inUse ↔
        (deVirtual 1 4 3 (some 2) 2 true).Rejected inUse) := by
  refine ⟨by decide, (rejected_alike_iff inUse (by decide)).mpr ?_⟩
  rintro ⟨_, _, _, _, _, hr, -⟩
  cases hr

theorem five_rejected_apart :
    (constantReplace 2 0 .int 5).equivalent (constantReplace 2 0 .long 5) = true ∧
      ¬ (constantReplace 2 0 .int 5).Rejected inUse ∧
      (constantReplace 2 0 .long 5).Rejected inUse := by
  decide

end Speculation

end CodeCache
