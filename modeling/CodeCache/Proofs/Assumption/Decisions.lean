import CodeCache.Assumption.Speculation

/-!
# Decisions

Equivalent records tell of the same decision. The relation is an equivalence, so
that records can be counted by the decisions that they tell of.
-/

namespace CodeCache

namespace Speculation

variable {r s t : Speculation}

/-- Equivalent records are the same one, test for the same two receivers in the other
order, or fold the same value as constants of two types. -/
theorem equivalent_cases (h : r.equivalent s = true) :
    r = s ∨
      (∃ method bci k l morphism trap,
        r = deVirtual method bci k (some l) morphism trap ∧
        s = deVirtual method bci l (some k) morphism trap) ∨
      ∃ klass offset type type' value,
        r = constantReplace klass offset type value ∧
        s = constantReplace klass offset type' value := by
  unfold equivalent at h
  split at h
  · simp only [Bool.and_eq_true, Bool.or_eq_true, beq_iff_eq] at h
    rcases h with ⟨⟨⟨⟨rfl, rfl⟩, rfl⟩, rfl⟩, ⟨rfl, rfl⟩ | ⟨rfl, rfl⟩⟩
    · exact Or.inl rfl
    · exact Or.inr (Or.inl ⟨_, _, _, _, _, _, rfl, rfl⟩)
  · simp only [Bool.and_eq_true, beq_iff_eq] at h
    rcases h with ⟨⟨rfl, rfl⟩, rfl⟩
    exact Or.inr (Or.inr ⟨_, _, _, _, _, rfl, rfl⟩)
  · exact Or.inl (eq_of_beq h)

theorem equivalent_refl (r : Speculation) : r.equivalent r = true := by
  cases r <;> simp [equivalent]

theorem equivalent_swap (method : UInt32) (bci : Int32) (k l : UInt32)
    (morphism : Int32) (trap : Bool) :
    (deVirtual method bci k (some l) morphism trap).equivalent
      (deVirtual method bci l (some k) morphism trap) = true := by
  simp [equivalent]

theorem equivalent_retype (klass offset : UInt32) (type type' : FieldType)
    (value : Int64) :
    (constantReplace klass offset type value).equivalent
      (constantReplace klass offset type' value) = true := by
  simp [equivalent]

theorem equivalent_symm (h : r.equivalent s = true) : s.equivalent r = true := by
  rcases equivalent_cases h with rfl | ⟨_, _, _, _, _, _, rfl, rfl⟩ |
    ⟨_, _, _, _, _, rfl, rfl⟩
  · exact h
  · exact equivalent_swap _ _ _ _ _ _
  · exact equivalent_retype _ _ _ _ _

theorem equivalent_trans (h : r.equivalent s = true) (h' : s.equivalent t = true) :
    r.equivalent t = true := by
  rcases equivalent_cases h with rfl | ⟨_, _, _, _, _, _, rfl, rfl⟩ |
    ⟨_, _, _, _, _, rfl, rfl⟩
  · exact h'
  · rcases equivalent_cases h' with rfl | ⟨_, _, _, _, _, _, hs, rfl⟩ |
      ⟨_, _, _, _, _, hs, -⟩
    · exact h
    · -- two swaps bring the receivers back
      cases hs
      exact equivalent_refl _
    · cases hs
  · rcases equivalent_cases h' with rfl | ⟨_, _, _, _, _, _, hs, -⟩ |
      ⟨_, _, _, _, _, hs, rfl⟩
    · exact h
    · cases hs
    · cases hs
      exact equivalent_retype _ _ _ _ _

def sameDecision : Setoid Speculation where
  r r s := r.equivalent s = true
  iseqv := ⟨equivalent_refl, equivalent_symm, equivalent_trans⟩

instance : DecidableRel sameDecision.r :=
  fun r s => inferInstanceAs (Decidable (r.equivalent s = true))

end Speculation

abbrev Decision := Quotient Speculation.sameDecision

namespace Speculation

def decision (r : Speculation) : Decision :=
  Quotient.mk sameDecision r

theorem decision_eq_iff {r s : Speculation} :
    r.decision = s.decision ↔ r.equivalent s = true :=
  ⟨Quotient.exact, fun h => Quotient.sound (s := sameDecision) h⟩

end Speculation

end CodeCache
