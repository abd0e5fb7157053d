import CodeCache.Merge.Version
import CodeCache.Proofs.Assumption.Decisions
import Mathlib.Data.List.Basic

/-!
# The methods that are compared for a cover

Whether a version covers another one is found by a loop. It visits the method, and then
one inlined method after the other, each time the first that it has not visited yet.
Methods may be inlined into themselves and into each other, but each is visited only
once, so the loop ends. By then all of them were visited, wherever they were inlined.
-/

namespace CodeCache

namespace MethodVersion

/-- A method that the version is made of: the method itself, or one that it inlined. -/
def Member (v : MethodVersion) (method m : UInt32) : Prop :=
  m = method ∨ ∃ caller bci, .inlined caller m bci ∈ v.speculations

/-- What the version decided in a method was also decided there by the other one. -/
def DecidedBy (v other : MethodVersion) (m : UInt32) : Prop :=
  ∀ r ∈ v.speculations, r.belongsTo m = true →
    ∃ s ∈ other.speculations, s.belongsTo m = true ∧ s.equivalent r = true

/-- Whatever was inlined was inlined into a method that the version is made of. -/
def Rooted (v : MethodVersion) (method : UInt32) : Prop :=
  ∀ caller callee bci, .inlined caller callee bci ∈ v.speculations → v.Member method caller

variable {v other : MethodVersion} {visited : List UInt32} {m callee : UInt32}

theorem decidesLess_iff : v.decidesLess other m = true ↔ v.DecidedBy other m := by
  unfold decidesLess DecidedBy
  simp only [List.all_eq_true, List.any_eq_true, List.mem_filter, and_imp, and_assoc]

/-!
## Methods that are left to visit
-/

def pending (records : List Speculation) (visited : List UInt32) : List UInt32 :=
  records.filterMap fun
    | .inlined _ callee _ => if visited.contains callee then none else some callee
    | _ => none

theorem nextInlined?_eq_head? (records : List Speculation) (visited : List UInt32) :
    nextInlined? records visited = (pending records visited).head? := by
  unfold pending
  rw [List.head?_filterMap]
  rfl

theorem mem_pending_iff {records : List Speculation} :
    callee ∈ pending records visited ↔
      (∃ caller bci, .inlined caller callee bci ∈ records) ∧ callee ∉ visited := by
  unfold pending
  rw [List.mem_filterMap]
  constructor
  · intro h
    rcases h with ⟨r, hr, hcallee⟩
    cases r with
    | inlined caller callee' bci =>
        dsimp only at hcallee
        split at hcallee
        · cases hcallee
        · rename_i hfresh
          cases hcallee
          constructor
          · exact ⟨caller, bci, hr⟩
          · simpa using hfresh
    | _ => cases hcallee
  · intro h
    rcases h with ⟨⟨caller, bci, hr⟩, hfresh⟩
    exact ⟨_, hr, by simp [hfresh]⟩

theorem length_pending_lt {records : List Speculation}
    (h : nextInlined? records visited = some callee) :
    (pending records (callee :: visited)).length < (pending records visited).length := by
  have hmem : callee ∈ pending records visited := by
    rw [nextInlined?_eq_head?] at h
    exact List.mem_of_head? h
  have hfilter : pending records (callee :: visited) =
      (pending records visited).filter (· != callee) := by
    unfold pending
    rw [List.filter_filterMap]
    apply List.filterMap_congr
    intro r _
    cases r with
    | inlined caller other bci =>
        by_cases hseen : other ∈ visited
        · simp [hseen]
        · by_cases hsame : other = callee
          · subst hsame
            simp [hseen, Option.filter]
          · simp [hseen, hsame, Option.filter]
    | _ => rfl
  rw [hfilter]
  apply List.length_filter_lt_length_iff_exists.mpr
  exact ⟨callee, hmem, by simp⟩

/-!
## The loop
-/

/-- A run of the loop, from the methods that were visited and the one that is visited
next, with the number of its turns and its answer. -/
inductive Comparison (v other : MethodVersion) :
    List UInt32 → UInt32 → Nat → Bool → Prop where
  | differs {visited : List UInt32} {m : UInt32} (h : v.decidesLess other m = false) :
    Comparison v other visited m 1 false
  | last {visited : List UInt32} {m : UInt32} (h : v.decidesLess other m = true)
    (hnext : nextInlined? v.speculations (m :: visited) = none) :
    Comparison v other visited m 1 true
  | turn {visited : List UInt32} {m callee : UInt32} {turns : Nat} {answer : Bool}
    (h : v.decidesLess other m = true)
    (hnext : nextInlined? v.speculations (m :: visited) = some callee)
    (rest : Comparison v other (m :: visited) callee turns answer) :
    Comparison v other visited m (turns + 1) answer

theorem Comparison.answer_iff {turns : Nat} {answer : Bool}
    (h : Comparison v other visited m turns answer) :
    answer = true ↔ v.DecidedBy other m ∧
      ∀ callee ∈ pending v.speculations (m :: visited), v.DecidedBy other callee := by
  induction h with
  | differs h =>
      rw [← decidesLess_iff, h]
      simp
  | last h hnext =>
      rw [nextInlined?_eq_head?, List.head?_eq_none_iff] at hnext
      rw [← decidesLess_iff, h, hnext]
      simp
  | @turn visited m callee turns answer h hnext rest ih =>
      rw [nextInlined?_eq_head?] at hnext
      have hcallee := List.mem_of_head? hnext
      rw [ih, ← decidesLess_iff (m := m)]
      constructor
      · intro hrest
        refine ⟨h, fun c hc => ?_⟩
        by_cases hsame : c = callee
        · rw [hsame]
          exact hrest.1
        · apply hrest.2
          rw [mem_pending_iff] at hc ⊢
          exact ⟨hc.1, by simpa [hsame] using hc.2⟩
      · intro hall
        refine ⟨hall.2 callee hcallee, fun c hc => hall.2 c ?_⟩
        rw [mem_pending_iff] at hc ⊢
        exact ⟨hc.1, fun hold => hc.2 (List.mem_cons_of_mem callee hold)⟩

/-- The loop ends. The methods that are left bound the number of its turns, and so they
bound the number of steps that are needed. -/
theorem exists_comparison (other : MethodVersion) {steps : Nat}
    (hsteps : (pending v.speculations (m :: visited)).length < steps) :
    ∃ turns ≤ (pending v.speculations (m :: visited)).length + 1,
      Comparison v other visited m turns
        ((membersFrom v.speculations steps visited m).all (v.decidesLess other)) := by
  induction steps generalizing visited m with
  | zero => exact absurd hsteps (Nat.not_lt_zero _)
  | succ steps ih =>
      unfold membersFrom
      rw [List.all_cons]
      cases hdecides : v.decidesLess other m with
      | false => exact ⟨1, Nat.le_add_left 1 _, .differs hdecides⟩
      | true =>
          cases hnext : nextInlined? v.speculations (m :: visited) with
          | none => exact ⟨1, Nat.le_add_left 1 _, .last hdecides hnext⟩
          | some callee =>
              have hfewer := length_pending_lt hnext
              rcases ih (Nat.lt_of_lt_of_le hfewer (Nat.le_of_lt_succ hsteps)) with
                ⟨turns, hturns, hrun⟩
              refine ⟨turns + 1, ?_, .turn hdecides hnext hrun⟩
              exact Nat.succ_le_succ (Nat.le_trans hturns hfewer)

/-!
## Covers
-/

variable {method : UInt32} {w x : MethodVersion}

theorem decidedBy_members_iff :
    (v.DecidedBy w method ∧
        ∀ callee ∈ pending v.speculations [method], v.DecidedBy w callee) ↔
      ∀ m, v.Member method m → v.DecidedBy w m := by
  constructor
  · intro h m hm
    by_cases hsame : m = method
    · rw [hsame]
      exact h.1
    · apply h.2
      rw [mem_pending_iff]
      exact ⟨hm.resolve_left hsame, by simpa using hsame⟩
  · intro h
    constructor
    · exact h method (Or.inl rfl)
    · intro callee hcallee
      exact h callee (Or.inr (mem_pending_iff.mp hcallee).1)

theorem exists_comparison_covers (method : UInt32) (v w : MethodVersion) :
    ∃ turns ≤ v.speculations.length + 1,
      Comparison v w [] method turns (v.covers method w) := by
  have hpending : (pending v.speculations [method]).length ≤ v.speculations.length :=
    List.length_filterMap_le _ _
  rcases exists_comparison w (Nat.lt_succ_of_le hpending) with
    ⟨turns, hturns, hrun⟩
  exact ⟨turns, Nat.le_trans hturns (Nat.succ_le_succ hpending), hrun⟩

theorem covers_iff :
    v.covers method w = true ↔ ∀ m, v.Member method m → v.DecidedBy w m := by
  rcases exists_comparison_covers method v w with ⟨turns, _, hrun⟩
  rw [hrun.answer_iff, decidedBy_members_iff]

theorem covers_refl (method : UInt32) (v : MethodVersion) : v.covers method v = true := by
  rw [covers_iff]
  intro m _ r hr hm
  exact ⟨r, hr, hm, Speculation.equivalent_refl r⟩

/-- A record that inlines a method is equivalent to no other record. So a version that is
covered inlined all that the covering one did, where that was inlined into its members. -/
theorem member_of_covers (hrooted : v.Rooted method) (h : v.covers method w = true)
    (hm : v.Member method m) :
    w.Member method m := by
  rcases hm with rfl | ⟨caller, bci, hr⟩
  · exact Or.inl rfl
  · have hbelongs : (Speculation.inlined caller m bci).belongsTo caller = true := by
      simp [Speculation.belongsTo, Speculation.owner?]
    rcases covers_iff.mp h caller (hrooted caller m bci hr) _ hr hbelongs with
      ⟨s, hs, _, hequivalent⟩
    rcases Speculation.equivalent_cases hequivalent with rfl | hswap | hretype
    · exact Or.inr ⟨caller, bci, hs⟩
    · rcases hswap with ⟨_, _, _, _, _, _, _, himpossible⟩
      cases himpossible
    · rcases hretype with ⟨_, _, _, _, _, _, himpossible⟩
      cases himpossible

theorem covers_trans (hrooted : v.Rooted method) (hvw : v.covers method w = true)
    (hwx : w.covers method x = true) :
    v.covers method x = true := by
  rw [covers_iff]
  intro m hm r hr hbelongs
  rcases covers_iff.mp hvw m hm r hr hbelongs with ⟨s, hs, hsm, hsr⟩
  rcases covers_iff.mp hwx m (member_of_covers hrooted hvw hm) s hs hsm with
    ⟨t, ht, htm, hts⟩
  exact ⟨t, ht, htm, Speculation.equivalent_trans hts hsr⟩

/-- The loop ends after at most one turn for the method and one for each record, and has
no other answer than whether all that the version decided, in the methods that it is made
of, was decided there by the other one. Each version covers itself. Covers can be chained
from a version whose records are inlined into its members, be it by the record itself. -/
theorem covers_decides (method : UInt32) (v w x : MethodVersion) :
    (∃ turns ≤ v.speculations.length + 1,
        Comparison v w [] method turns (v.covers method w)) ∧
      (∀ turns answer, Comparison v w [] method turns answer → answer = v.covers method w) ∧
      (v.covers method w = true ↔ ∀ m, v.Member method m → v.DecidedBy w m) ∧
      v.covers method v = true ∧
      (v.Rooted method → v.covers method w = true → w.covers method x = true →
        v.covers method x = true) := by
  refine ⟨exists_comparison_covers method v w, ?_, covers_iff, covers_refl method v,
    covers_trans⟩
  intro turns answer hrun
  rw [Bool.eq_iff_iff, hrun.answer_iff, decidedBy_members_iff, covers_iff]

end MethodVersion

/-!
A method and one that it inlines, which is inlined into itself.
-/

namespace MethodVersion.Recursive

def ofRecords (speculations : List Speculation) : MethodVersion :=
  { id := 0, count := 1, place := ⟨0, 0, 0, 0⟩, speculations, dependencies := [] }

def plain : MethodVersion :=
  ofRecords [.inlined 0 9 4, .inlined 9 9 2]

def careful : MethodVersion :=
  ofRecords [.inlined 0 9 4, .unstableIf 9 1 true, .inlined 9 9 2]

def bold : MethodVersion :=
  ofRecords [.inlined 9 9 2, .profiledReceiver 0 3 5, .inlined 0 9 4, .unstableIf 9 1 true]

theorem covers_decides_when_recursive :
    plain.Rooted 0 ∧ plain.covers 0 careful = true ∧ careful.covers 0 bold = true ∧
      plain.covers 0 bold = true := by
  have hrooted : plain.Rooted 0 := by
    intro caller callee bci h
    simp only [plain, ofRecords, List.mem_cons, List.not_mem_nil, or_false,
      Speculation.inlined.injEq] at h
    rcases h with ⟨rfl, rfl, rfl⟩ | ⟨rfl, rfl, rfl⟩
    · exact Or.inl rfl
    · exact Or.inr ⟨0, 4, by decide⟩
  have hcareful : plain.covers 0 careful = true := by decide +kernel
  have hbold : careful.covers 0 bold = true := by decide +kernel
  rcases covers_decides 0 plain careful bold with ⟨_, _, _, _, htrans⟩
  exact ⟨hrooted, hcareful, hbold, htrans hrooted hcareful hbold⟩

/-- A method that was inlined into none of the members: the version in between does not
inline it, and makes no promise for it. -/
example :
    (ofRecords [.inlined 7 9 4, .unstableIf 9 1 true]).covers 0
        (ofRecords [.unstableIf 9 1 true]) = true ∧
      (ofRecords [.unstableIf 9 1 true]).covers 0 (ofRecords []) = true ∧
      (ofRecords [.inlined 7 9 4, .unstableIf 9 1 true]).covers 0 (ofRecords []) = false := by
  decide +kernel

end MethodVersion.Recursive

end CodeCache
