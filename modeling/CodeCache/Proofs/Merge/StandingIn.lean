import CodeCache.Assumption.Check
import CodeCache.Host.World
import CodeCache.Proofs.Assumption.Interchanging
import CodeCache.Proofs.Merge.Inlining

/-!
# Standing in for another version

A version that covers another one made some of its decisions, in the methods that
it is made of. What it assumes besides is not compared: its dependencies, the
constants that it folded and what it decided in methods that it did not inline. As
long as the other version assumes that too, it runs wherever the other one does.
-/

namespace CodeCache

namespace Speculation

theorem owner?_of_belongsTo {r : Speculation} {m : UInt32} (h : r.belongsTo m = true) :
    r.owner?.isSome = true := by
  unfold belongsTo at h
  rw [eq_of_beq h]
  rfl

end Speculation

instance (host : Host) (metas : List (Option Entity)) (d : Dependency) :
    Decidable (d.holds host metas = .ok true) :=
  match d.holds host metas with
  | .ok true => .isTrue rfl
  | .ok false => .isFalse nofun
  | .error _ => .isFalse nofun

namespace MethodVersion

/-- What a version assumes is true of the process: no record is rejected, and every
dependency holds. -/
structure Stands (ctx : ScoreContext) (v : MethodVersion) : Prop where
  accepted : ∀ r ∈ v.speculations, ¬ r.Rejected ctx
  held : ∀ d ∈ v.dependencies, d.holds ctx.host ctx.metas = .ok true

instance (ctx : ScoreContext) (v : MethodVersion) : Decidable (v.Stands ctx) :=
  decidable_of_iff ((∀ r ∈ v.speculations, ¬ r.Rejected ctx) ∧
    ∀ d ∈ v.dependencies, d.holds ctx.host ctx.metas = .ok true)
    ⟨fun h => ⟨h.1, h.2⟩, fun h => ⟨h.accepted, h.held⟩⟩

/-- What a version assumes besides the decisions in the methods that it is made of
is also assumed by another one. -/
structure SharesRest (method : UInt32) (v other : MethodVersion) : Prop where
  records : ∀ r ∈ v.speculations,
    (∀ m ∈ v.members method, r.belongsTo m = false) → r ∈ other.speculations
  dependencies : ∀ d ∈ v.dependencies, d ∈ other.dependencies

variable {method : UInt32} {v other : MethodVersion} {ctx : ScoreContext}

theorem exists_equivalent (hcovers : v.covers method other = true) {m : UInt32}
    (hm : m ∈ v.members method) {r : Speculation} (hr : r ∈ v.speculations)
    (hbelongs : r.belongsTo m = true) :
    ∃ s ∈ other.speculations, s.belongsTo m = true ∧ s.equivalent r = true := by
  have hdecides := List.all_eq_true.mp hcovers m hm
  exact decidesLess_iff.mp hdecides r hr hbelongs

/-- A version that covers another one stands wherever the other one does, if it
shares the rest of its assumptions with it. -/
theorem stands_of_covers (hcovers : v.covers method other = true)
    (hrest : v.SharesRest method other) (h : other.Stands ctx) :
    v.Stands ctx := by
  constructor
  · intro r hr
    by_cases hwalked : ∃ m ∈ v.members method, r.belongsTo m = true
    · rcases hwalked with ⟨m, hm, hbelongs⟩
      rcases exists_equivalent hcovers hm hr hbelongs with
        ⟨s, hs, howned, hequivalent⟩
      have hiff := Speculation.rejected_iff_of_equivalent ctx hequivalent
        (Speculation.owner?_of_belongsTo howned)
      exact fun hrejected => h.accepted s hs (hiff.mpr hrejected)
    · refine h.accepted r (hrest.records r hr ?_)
      intro m hm
      exact Bool.eq_false_iff.mpr fun hbelongs => hwalked ⟨m, hm, hbelongs⟩
  · intro d hd
    exact h.held d (hrest.dependencies d hd)

end MethodVersion

/-!
A method whose call is devirtualized. The profile agrees, the class `B` is a leaf,
and `A` is none.
-/

namespace MethodVersion.Devirtualized

def world : World :=
  let (w, a) := (World.empty 0).defineClass { name := "A", loader := .app }
  let (w, b) := w.defineClass { name := "B", loader := .app, superClass := some a }
  let (w, f) := w.defineMethod a "f" "()V"
  w.setCallProfile f 0 { count := 5, receivers := [⟨a, 2⟩, ⟨b, 3⟩] }

def ctx : ScoreContext :=
  { metas := [some (.klass ⟨0⟩), some (.klass ⟨1⟩), some (.method ⟨0⟩)]
    host := world.host }

def careful : MethodVersion :=
  { id := 0, count := 1, place := ⟨0, 0, 0, 0⟩
    speculations := [.deVirtual 3 0 1 (some 2) 2 true, .profiledReceiver 3 4 1]
    dependencies := [{ kind := .leafType, args := [2] }] }

def bold : MethodVersion :=
  { id := 1, count := 1, place := ⟨0, 0, 0, 0⟩
    speculations := [.deVirtual 3 0 2 (some 1) 2 true]
    dependencies := [{ kind := .leafType, args := [2] }] }

theorem bold_stands_in :
    bold.covers 3 careful = true ∧ careful.Stands ctx ∧ bold.Stands ctx := by
  have hcovers : bold.covers 3 careful = true := by decide +kernel
  have hstands : careful.Stands ctx := by decide +kernel
  have hroot : 3 ∈ bold.members 3 := by decide +kernel
  have howned : ∀ r ∈ bold.speculations, r.belongsTo 3 = true := by decide +kernel
  have hrest : bold.SharesRest 3 careful := by
    constructor
    · intro r hr hnone
      exact absurd (howned r hr) (Bool.eq_false_iff.mp (hnone 3 hroot))
    · decide +kernel
  exact ⟨hcovers, hstands, stands_of_covers hcovers hrest hstands⟩

def leafy : MethodVersion :=
  { id := 2, count := 1, place := ⟨0, 0, 0, 0⟩, speculations := []
    dependencies := [{ kind := .leafType, args := [1] }] }

def folded : MethodVersion :=
  { id := 3, count := 1, place := ⟨0, 0, 0, 0⟩
    speculations := [.constantReplace 1 0 .int 5], dependencies := [] }

/-- Neither a dependency nor a folded constant keeps a version from covering one
that does not have it. -/
theorem covers_without_standing_in :
    careful.Stands ctx ∧
      leafy.covers 3 careful = true ∧ ¬ leafy.Stands ctx ∧
      folded.covers 3 careful = true ∧ ¬ folded.Stands ctx := by
  decide +kernel

end MethodVersion.Devirtualized

end CodeCache
