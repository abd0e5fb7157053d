import CodeCache.Error
import Mathlib.Algebra.Ring.Nat
import Mathlib.Data.List.Forall2

/-!
# Work that comes out alike

Two pieces of work come out alike if, from related states, both answer and the
answers are related, or both fail and the failures are of one kind. What the
messages say may differ.
-/

namespace CodeCache

inductive SameOutcome {α β : Type} (R : α → β → Prop) :
    Except Error α → Except Error β → Prop where
  | ok {a : α} {b : β} (h : R a b) : SameOutcome R (.ok a) (.ok b)
  | error {e e' : Error} (h : e.className = e'.className) :
      SameOutcome R (.error e) (.error e')

namespace SameOutcome

variable {α β γ δ : Type} {R : α → β → Prop} {S : γ → δ → Prop}

theorem of_bind {x : Except Error α} {y : Except Error β}
    {f : α → Except Error γ} {g : β → Except Error δ} (h : SameOutcome R x y)
    (hnext : ∀ a b, R a b → SameOutcome S (f a) (g b)) :
    SameOutcome S (x >>= f) (y >>= g) := by
  cases h with
  | ok hab => exact hnext _ _ hab
  | error he => exact .error he

theorem of_eq (x : Except Error α) : SameOutcome Eq x x := by
  cases x with
  | ok a => exact .ok rfl
  | error e => exact .error rfl

theorem mono {x : Except Error α} {y : Except Error β} {Q : α → β → Prop}
    (h : SameOutcome R x y) (hQ : ∀ a b, R a b → Q a b) :
    SameOutcome Q x y := by
  cases h with
  | ok hab => exact .ok (hQ _ _ hab)
  | error he => exact .error he

theorem symm {x : Except Error α} {y : Except Error β} (h : SameOutcome R x y) :
    SameOutcome (fun b a => R a b) y x := by
  cases h with
  | ok hab => exact .ok hab
  | error he => exact .error he.symm

end SameOutcome

def Alike {σ σ' α β : Type} (inv : σ → σ' → Prop) (R : α → β → Prop)
    (work : StateT σ (Except Error) α) (work' : StateT σ' (Except Error) β) :
    Prop :=
  ∀ s s', inv s s' → SameOutcome (fun x y => R x.1 y.1 ∧ inv x.2 y.2)
    (work s) (work' s')

namespace Alike

variable {σ σ' α β γ δ : Type} {inv : σ → σ' → Prop} {R : α → β → Prop}
  {S : γ → δ → Prop}

theorem of_pure {a : α} {b : β} (h : R a b) :
    Alike inv R (pure a) (pure b) := by
  intro s s' hs
  exact .ok ⟨h, hs⟩

theorem of_throw {e e' : Error} (h : e.className = e'.className) :
    Alike inv R (throw e) (throw e') := by
  intro s s' _
  exact .error h

theorem of_bind {work : StateT σ (Except Error) α}
    {work' : StateT σ' (Except Error) β} {f : α → StateT σ (Except Error) γ}
    {g : β → StateT σ' (Except Error) δ} (h : Alike inv R work work')
    (hnext : ∀ a b, R a b → Alike inv S (f a) (g b)) :
    Alike inv S (work >>= f) (work' >>= g) := by
  intro s s' hs
  refine (h s s' hs).of_bind ?_
  rintro ⟨a, t⟩ ⟨b, t'⟩ ⟨hab, ht⟩
  exact hnext a b hab t t' ht

theorem of_lift {x : Except Error α} {y : Except Error β}
    (h : SameOutcome R x y) :
    Alike inv R (liftM x : StateT σ (Except Error) α)
      (liftM y : StateT σ' (Except Error) β) := by
  intro s s' hs
  refine h.of_bind ?_
  intro a b hab
  exact .ok ⟨hab, hs⟩

theorem of_get :
    Alike inv inv (get : StateT σ (Except Error) σ)
      (get : StateT σ' (Except Error) σ') := by
  intro s s' hs
  exact .ok ⟨hs, hs⟩

theorem of_modify {f : σ → σ} {g : σ' → σ'}
    (h : ∀ s s', inv s s' → inv (f s) (g s')) :
    Alike inv Eq (modify f : StateT σ (Except Error) PUnit)
      (modify g : StateT σ' (Except Error) PUnit) := by
  intro s s' hs
  exact .ok ⟨rfl, h s s' hs⟩

theorem of_mapM {P : γ → δ → Prop} {f : γ → StateT σ (Except Error) α}
    {g : δ → StateT σ' (Except Error) β} {as : List γ} {bs : List δ}
    (hall : List.Forall₂ P as bs)
    (h : ∀ a b, P a b → Alike inv R (f a) (g b)) :
    Alike inv (List.Forall₂ R) (as.mapM f) (bs.mapM g) := by
  induction hall with
  | nil => exact of_pure .nil
  | cons hab _ ih =>
      rw [List.mapM_cons, List.mapM_cons]
      refine (h _ _ hab).of_bind ?_
      intro a b hab
      refine ih.of_bind ?_
      intro as bs hall
      exact of_pure (.cons hab hall)

theorem of_forM {f : γ → StateT σ (Except Error) PUnit}
    {g : γ → StateT σ' (Except Error) PUnit} (as : List γ)
    (h : ∀ a, Alike inv Eq (f a) (g a)) :
    Alike inv Eq (as.forM f) (as.forM g) := by
  induction as with
  | nil => exact of_pure rfl
  | cons a as ih =>
      refine (h a).of_bind ?_
      intro _ _ _
      exact ih

end Alike

end CodeCache
