import CodeCache.Error
import Mathlib.Algebra.Ring.Nat
import Mathlib.Data.List.Forall2

/-!
# Work that keeps an invariant

Work on a metaspace or on a cache changes its state even when it fails. What is
said of it has therefore two parts: an invariant of the state, which every
outcome keeps, and a postcondition, which every answer satisfies.
-/

namespace CodeCache

/-- Work that keeps an invariant whatever its outcome, and whose answers satisfy
a postcondition. -/
def Ensures {ε σ α : Type} (inv : σ → Prop) (work : EStateM ε σ α)
    (Q : α → Prop) : Prop :=
  ∀ s, inv s →
    match work s with
    | .ok a s' => inv s' ∧ Q a
    | .error _ s' => inv s'

namespace Ensures

variable {ε σ α β : Type} {inv : σ → Prop}

theorem ok_and_post {work : EStateM ε σ α} {Q : α → Prop}
    (h : Ensures inv work Q) {s s' : σ} {a : α} (hs : inv s)
    (hrun : work s = .ok a s') :
    inv s' ∧ Q a := by
  have hout := h s hs
  rw [hrun] at hout
  exact hout

theorem inv_of_error {work : EStateM ε σ α} {Q : α → Prop}
    (h : Ensures inv work Q) {s s' : σ} {e : ε} (hs : inv s)
    (hrun : work s = .error e s') :
    inv s' := by
  have hout := h s hs
  rw [hrun] at hout
  exact hout

theorem of_pure {Q : α → Prop} {a : α} (h : Q a) :
    Ensures (ε := ε) inv (pure a) Q := by
  intro s hs
  exact ⟨hs, h⟩

theorem of_throw {Q : α → Prop} (e : ε) :
    Ensures inv (throw e : EStateM ε σ α) Q := by
  intro s hs
  exact hs

theorem of_get : Ensures (ε := ε) inv (get : EStateM ε σ σ) inv := by
  intro s hs
  exact ⟨hs, hs⟩

theorem of_modify {f : σ → σ} (h : ∀ s, inv s → inv (f s)) :
    Ensures (ε := ε) inv (modify f : EStateM ε σ PUnit)
      (fun _ => True) := by
  intro s hs
  exact ⟨h s hs, trivial⟩

theorem mono {work : EStateM ε σ α} {Q R : α → Prop}
    (h : Ensures inv work Q) (hQ : ∀ a, Q a → R a) :
    Ensures inv work R := by
  intro s hs
  have hout := h s hs
  cases hrun : work s with
  | ok a s' =>
      rw [hrun] at hout
      exact ⟨hout.1, hQ a hout.2⟩
  | error e s' =>
      rw [hrun] at hout
      exact hout

theorem of_bind {work : EStateM ε σ α} {next : α → EStateM ε σ β}
    {P : α → Prop} {Q : β → Prop} (h : Ensures inv work P)
    (hnext : ∀ a, P a → Ensures inv (next a) Q) :
    Ensures inv (work >>= next) Q := by
  intro s hs
  have hout := h s hs
  show match EStateM.bind work next s with
    | .ok b s' => inv s' ∧ Q b
    | .error _ s' => inv s'
  unfold EStateM.bind
  cases hrun : work s with
  | ok a s' =>
      rw [hrun] at hout
      exact hnext a hout.2 s' hout.1
  | error e s' =>
      rw [hrun] at hout
      exact hout

theorem of_map {work : EStateM ε σ α} {f : α → β} {Q : β → Prop}
    (h : Ensures inv work (fun a => Q (f a))) :
    Ensures inv (f <$> work) Q :=
  h.of_bind fun _ ha => Ensures.of_pure ha

theorem of_ofExcept {result : Except Error α} {Q : α → Prop}
    (h : ∀ a, result = .ok a → Q a) :
    Ensures inv (ofExcept result : EStateM Error σ α) Q := by
  cases result with
  | ok a => exact Ensures.of_pure (h a rfl)
  | error e => exact Ensures.of_throw e

theorem of_attempt {work : EStateM Error σ α} {Q : α → Prop}
    (h : Ensures inv work Q) :
    Ensures inv (attempt work)
      (fun result => ∀ a, result = .ok a → Q a) := by
  intro s hs
  have hout := h s hs
  unfold attempt
  cases hrun : work s with
  | ok a s' =>
      rw [hrun] at hout
      refine ⟨hout.1, ?_⟩
      intro b hb
      cases hb
      exact hout.2
  | error e s' =>
      rw [hrun] at hout
      refine ⟨hout, ?_⟩
      intro b hb
      cases hb

theorem of_ite {c : Prop} [Decidable c] {work₁ work₂ : EStateM ε σ α}
    {Q : α → Prop} (h₁ : c → Ensures inv work₁ Q)
    (h₂ : ¬ c → Ensures inv work₂ Q) :
    Ensures inv (if c then work₁ else work₂) Q := by
  by_cases hc : c
  · rw [if_pos hc]
    exact h₁ hc
  · rw [if_neg hc]
    exact h₂ hc

theorem of_check {c : Prop} [Decidable c] {e : ε} {f : α → EStateM ε σ β}
    {work : EStateM ε σ β} {Q : β → Prop} (h : ¬ c → Ensures inv work Q) :
    Ensures inv (if c then throw e >>= f else work) Q :=
  of_ite (fun _ => of_throw e) h

theorem of_mapM {work : α → EStateM ε σ β} {Q : α → β → Prop} {as : List α}
    (h : ∀ a ∈ as, Ensures inv (work a) (Q a)) :
    Ensures inv (as.mapM work) (List.Forall₂ Q as) := by
  induction as with
  | nil => exact of_pure .nil
  | cons a as ih =>
      rw [List.mapM_cons]
      refine (h a List.mem_cons_self).of_bind ?_
      intro b hb
      refine (ih fun c hc => h c (List.mem_cons_of_mem _ hc)).of_bind ?_
      intro bs hbs
      exact of_pure (.cons hb hbs)

theorem of_true (work : EStateM ε σ α) :
    Ensures (fun _ => True) work (fun _ => True) := by
  intro s _
  cases work s with
  | ok a s' => exact ⟨trivial, trivial⟩
  | error e s' => exact trivial

end Ensures

theorem of_bind_eq_ok {ε α β : Type} {first : Except ε α}
    {next : α → Except ε β} {b : β} (h : (first >>= next) = .ok b) :
    ∃ a, first = .ok a ∧ next a = .ok b := by
  cases first with
  | error e => cases h
  | ok a => exact ⟨a, rfl, h⟩

theorem bind_pure_eq_ok_iff {ε α β : Type} {f : α → β} {result : Except ε α} {b : β} :
    (result >>= fun a => pure (f a)) = .ok b ↔ ∃ a, result = .ok a ∧ b = f a := by
  constructor
  · intro h
    obtain ⟨a, ha, hb⟩ := of_bind_eq_ok h
    cases hb
    exact ⟨a, ha, rfl⟩
  · rintro ⟨a, rfl, rfl⟩
    rfl

theorem map_eq_ok_iff {ε α β : Type} {f : α → β} {result : Except ε α} {b : β} :
    f <$> result = .ok b ↔ ∃ a, result = .ok a ∧ b = f a := by
  rw [← bind_pure_comp, bind_pure_eq_ok_iff]

theorem exists_bind_eq_ok {ε α β : Type} {first : Except ε α}
    {next : α → Except ε β} (h : ∃ a, first = .ok a)
    (hnext : ∀ a, first = .ok a → ∃ b, next a = .ok b) :
    ∃ b, (first >>= next) = .ok b := by
  rcases h with ⟨a, ha⟩
  rcases hnext a ha with ⟨b, hb⟩
  rw [ha]
  exact ⟨b, hb⟩

theorem of_bind_run {ε σ α β : Type} {work : EStateM ε σ α}
    {next : α → EStateM ε σ β} {s s'' : σ} {b : β}
    (h : (work >>= next) s = .ok b s'') :
    ∃ a s', work s = .ok a s' ∧ next a s' = .ok b s'' := by
  change EStateM.bind work next s = _ at h
  unfold EStateM.bind at h
  split at h
  · rename_i a s' heq
    exact ⟨a, s', heq, h⟩
  · cases h

theorem run_bind {ε σ α β : Type} {work : EStateM ε σ α}
    {next : α → EStateM ε σ β} {s s' : σ} {a : α} (h : work s = .ok a s') :
    (work >>= next) s = next a s' := by
  change EStateM.bind work next s = _
  unfold EStateM.bind
  rw [h]

theorem run_bind_error {ε σ α β : Type} {work : EStateM ε σ α}
    {next : α → EStateM ε σ β} {s s' : σ} {e : ε} (h : work s = .error e s') :
    (work >>= next) s = .error e s' := by
  change EStateM.bind work next s = _
  unfold EStateM.bind
  rw [h]

theorem run_ofExcept_bind {σ α β : Type} {result : Except Error α} {a : α}
    (h : result = .ok a) (next : α → EStateM Error σ β) (s : σ) :
    (ofExcept result >>= next) s = next a s := by
  rw [h]
  rfl

theorem run_get_bind {ε σ α : Type} (next : σ → EStateM ε σ α) (s : σ) :
    (get >>= next) s = next s s :=
  rfl

theorem run_set_bind {ε σ α : Type} (next : PUnit → EStateM ε σ α) (s s' : σ) :
    (set s' >>= next) s = next ⟨⟩ s' :=
  rfl

theorem run_modify_bind {ε σ α : Type} (f : σ → σ) (next : PUnit → EStateM ε σ α) (s : σ) :
    (modify f >>= next) s = next ⟨⟩ (f s) :=
  rfl

theorem of_ofExcept_run {σ α : Type} {result : Except Error α} {s s' : σ}
    {a : α} (h : (ofExcept result : EStateM Error σ α) s = .ok a s') :
    result = .ok a ∧ s' = s := by
  cases result with
  | error e => cases h
  | ok a =>
      cases h
      exact ⟨rfl, rfl⟩

theorem of_foldlM_eq_ok {ε σ α : Type} {step : σ → α → Except ε σ}
    {P : σ → Prop} {as : List α}
    (hstep : ∀ s, ∀ a ∈ as, ∀ s', P s → step s a = .ok s' → P s') {s s' : σ}
    (hs : P s) (h : as.foldlM step s = .ok s') :
    P s' := by
  induction as generalizing s with
  | nil =>
      cases h
      exact hs
  | cons a as ih =>
      rw [List.foldlM_cons] at h
      rcases of_bind_eq_ok h with ⟨next, hfirst, hrest⟩
      exact ih (fun s b hb => hstep s b (List.mem_cons_of_mem a hb))
        (hstep s a List.mem_cons_self next hs hfirst) hrest

theorem of_foldlM_concat {ε σ α : Type} {step : σ → α → Except ε σ}
    {P : List α → σ → Prop}
    (hstep : ∀ before s a s', P before s → step s a = .ok s' →
      P (before ++ [a]) s')
    {before as : List α} {s s' : σ} (hs : P before s)
    (h : as.foldlM step s = .ok s') :
    P (before ++ as) s' := by
  induction as generalizing before s with
  | nil =>
      cases h
      rw [List.append_nil]
      exact hs
  | cons a as ih =>
      rw [List.foldlM_cons] at h
      rcases of_bind_eq_ok h with ⟨next, hfirst, hrest⟩
      rw [List.append_cons]
      exact ih (hstep before s a next hs hfirst) hrest

/-!
## Lists related entry by entry
-/

theorem exists_of_mem_right {α β : Type} {R : α → β → Prop} {as : List α}
    {bs : List β} (h : List.Forall₂ R as bs) {b : β} (hb : b ∈ bs) :
    ∃ a ∈ as, R a b := by
  induction h with
  | nil => cases hb
  | cons hab _ ih =>
      rcases List.mem_cons.mp hb with rfl | hrest
      · exact ⟨_, List.mem_cons_self, hab⟩
      · rcases ih hrest with ⟨a, ha, hR⟩
        exact ⟨a, List.mem_cons_of_mem _ ha, hR⟩

theorem exists_of_mem_left {α β : Type} {R : α → β → Prop} {as : List α}
    {bs : List β} (h : List.Forall₂ R as bs) {a : α} (ha : a ∈ as) :
    ∃ b ∈ bs, R a b :=
  exists_of_mem_right h.flip ha

theorem forall₂_trans {α β γ : Type} {R : α → β → Prop} {S : β → γ → Prop}
    {T : α → γ → Prop} {as : List α} {bs : List β} {cs : List γ}
    (h : List.Forall₂ R as bs) (h' : List.Forall₂ S bs cs)
    (hT : ∀ a b c, R a b → S b c → T a c) :
    List.Forall₂ T as cs := by
  induction h generalizing cs with
  | nil =>
      cases h'
      exact .nil
  | cons hab _ ih =>
      cases h' with
      | cons hbc hrest => exact .cons (hT _ _ _ hab hbc) (ih hrest)

theorem forall₂_append_left {α β : Type} {R : α → β → Prop} {as bs : List α}
    {cs : List β} (hall : List.Forall₂ R (as ++ bs) cs) :
    ∃ cs₁ cs₂, cs = cs₁ ++ cs₂ ∧ List.Forall₂ R as cs₁ ∧
      List.Forall₂ R bs cs₂ := by
  induction as generalizing cs with
  | nil => exact ⟨[], cs, rfl, .nil, hall⟩
  | cons a as ih =>
      cases hall with
      | cons hab hrest =>
          rcases ih hrest with ⟨cs₁, cs₂, rfl, h₁, h₂⟩
          exact ⟨_ :: cs₁, cs₂, rfl, .cons hab h₁, h₂⟩

theorem forall₂_of_mapM {ε α β : Type} {f : α → Except ε β} {as : List α}
    {bs : List β} (h : as.mapM f = .ok bs) :
    List.Forall₂ (fun a b => f a = .ok b) as bs := by
  induction as generalizing bs with
  | nil =>
      cases h
      exact .nil
  | cons a as ih =>
      rw [List.mapM_cons] at h
      rcases of_bind_eq_ok h with ⟨b, hb, h⟩
      rcases of_bind_eq_ok h with ⟨rest, hrest, hdone⟩
      cases hdone
      exact .cons hb (ih hrest)

theorem mapM_id_eq_ok_iff {ε α : Type} {answers : List (Except ε α)}
    {as : List α} :
    answers.mapM id = .ok as ↔ answers = as.map .ok := by
  constructor
  · intro h
    have hall : List.Forall₂ Eq answers (as.map .ok) :=
      List.forall₂_map_right_iff.mpr (forall₂_of_mapM h)
    rwa [List.forall₂_eq_eq_eq] at hall
  · rintro rfl
    induction as with
    | nil => rfl
    | cons a as ih =>
        rw [List.map_cons, List.mapM_cons, ih]
        rfl

/-- The second work succeeds where the first one does, with a related answer. -/
def Follows {ε α β : Type} (R : α → β → Prop) (x : Except ε α) (y : Except ε β) :
    Prop :=
  ∀ a, x = .ok a → ∃ b, y = .ok b ∧ R a b

namespace Follows

variable {ε α β γ δ : Type} {R : α → β → Prop} {S : γ → δ → Prop}

theorem of_pure {a : α} {b : β} (h : R a b) :
    Follows R (pure a : Except ε α) (pure b) := by
  intro a' ha
  cases ha
  exact ⟨b, rfl, h⟩

theorem of_bind {x : Except ε α} {y : Except ε β} {f : α → Except ε γ}
    {g : β → Except ε δ} (h : Follows R x y)
    (hnext : ∀ a b, R a b → Follows S (f a) (g b)) :
    Follows S (x >>= f) (y >>= g) := by
  intro c hc
  rcases of_bind_eq_ok hc with ⟨a, ha, hfa⟩
  rcases h a ha with ⟨b, rfl, hab⟩
  exact hnext a b hab c hfa

theorem of_mapM {f : γ → Except ε α} {g : γ → Except ε β}
    (h : ∀ c, Follows R (f c) (g c)) (cs : List γ) :
    Follows (List.Forall₂ R) (cs.mapM f) (cs.mapM g) := by
  induction cs with
  | nil => exact of_pure .nil
  | cons c cs ih =>
      rw [List.mapM_cons, List.mapM_cons]
      apply (h c).of_bind
      intro a b hab
      apply ih.of_bind
      intro as bs hall
      exact of_pure (.cons hab hall)

end Follows

theorem exists_mapM_eq_ok {ε α β : Type} {f : α → Except ε β} {as : List α}
    (h : ∀ a ∈ as, ∃ b, f a = .ok b) :
    ∃ bs, as.mapM f = .ok bs := by
  induction as with
  | nil => exact ⟨[], rfl⟩
  | cons a as ih =>
      rw [List.mapM_cons]
      refine exists_bind_eq_ok (h a List.mem_cons_self) fun _ _ => ?_
      exact exists_bind_eq_ok (ih fun b hb => h b (List.mem_cons_of_mem _ hb))
        fun _ _ => ⟨_, rfl⟩

theorem mapM_eq_ok_map {ε α β : Type} {f : α → Except ε β} {g : α → β}
    {as : List α} (h : ∀ a ∈ as, f a = .ok (g a)) :
    as.mapM f = .ok (as.map g) := by
  induction as with
  | nil => rfl
  | cons a as ih =>
      rw [List.mapM_cons, h a List.mem_cons_self,
        ih fun b hb => h b (List.mem_cons_of_mem _ hb)]
      rfl

/-!
## Work with a known answer
-/

/-- Work that answers the value whenever the invariant holds, and keeps it. -/
def Gives {ε σ α : Type} (inv : σ → Prop) (work : EStateM ε σ α) (a : α) :
    Prop :=
  ∀ s, inv s → ∃ s', work s = .ok a s' ∧ inv s'

namespace Gives

variable {ε σ α β : Type} {inv : σ → Prop}

theorem of_pure (a : α) : Gives (ε := ε) inv (pure a) a := by
  intro s hs
  exact ⟨s, rfl, hs⟩

theorem of_bind {work : EStateM ε σ α} {next : α → EStateM ε σ β} {a : α}
    {b : β} (h : Gives inv work a) (hnext : Gives inv (next a) b) :
    Gives inv (work >>= next) b := by
  intro s hs
  rcases h s hs with ⟨s', hrun, hs'⟩
  rcases hnext s' hs' with ⟨s'', hrun', hs''⟩
  refine ⟨s'', ?_, hs''⟩
  show EStateM.bind work next s = _
  unfold EStateM.bind
  rw [hrun]
  exact hrun'

theorem of_bind_pure {work : EStateM ε σ α} {f : α → β} {a : α}
    (h : Gives inv work a) :
    Gives inv (work >>= fun x => pure (f x)) (f a) :=
  h.of_bind (of_pure (f a))

theorem of_mapM {work : α → EStateM ε σ β} {as : List α} {bs : List β}
    (h : List.Forall₂ (fun a b => Gives inv (work a) b) as bs) :
    Gives inv (as.mapM work) bs := by
  induction h with
  | nil => exact of_pure []
  | cons hab _ ih =>
      rw [List.mapM_cons]
      exact hab.of_bind ih.of_bind_pure

end Gives

/-!
## Work with one outcome

A failure is an outcome as well. Work that comes out the same in every state with
the invariant tells nothing about the state that it started from.
-/

def ending {ε σ α : Type} (outcome : Except ε α) (s : σ) : EStateM.Result ε σ α :=
  match outcome with
  | .ok a => .ok a s
  | .error e => .error e s

/-- Work that has the given outcome whenever the invariant holds, and keeps it. -/
def Settles {ε σ α : Type} (inv : σ → Prop) (work : EStateM ε σ α)
    (outcome : Except ε α) : Prop :=
  ∀ s, inv s → ∃ s', inv s' ∧ work s = ending outcome s'

/-- Work whose outcome is the same in every state with the invariant. -/
def Steady {ε σ α : Type} (inv : σ → Prop) (work : EStateM ε σ α) : Prop :=
  ∃ outcome, Settles inv work outcome

namespace Settles

variable {ε σ α β : Type} {inv : σ → Prop}

theorem of_pure (a : α) : Settles inv (pure a : EStateM ε σ α) (.ok a) := by
  intro s hs
  exact ⟨s, hs, rfl⟩

theorem of_throw (e : ε) :
    Settles inv (throw e : EStateM ε σ α) (.error e) := by
  intro s hs
  exact ⟨s, hs, rfl⟩

theorem of_ofExcept (x : Except Error α) :
    Settles inv (ofExcept x : EStateM Error σ α) x := by
  cases x with
  | ok a => exact of_pure a
  | error e => exact of_throw e

theorem of_bind_ok {work : EStateM ε σ α} {next : α → EStateM ε σ β} {a : α}
    {outcome : Except ε β} (h : Settles inv work (.ok a))
    (hnext : Settles inv (next a) outcome) :
    Settles inv (work >>= next) outcome := by
  intro s hs
  rcases h s hs with ⟨s', hs', hrun⟩
  rcases hnext s' hs' with ⟨s'', hs'', hrun'⟩
  refine ⟨s'', hs'', ?_⟩
  show EStateM.bind work next s = _
  unfold EStateM.bind
  rw [hrun]
  exact hrun'

theorem of_bind_error {work : EStateM ε σ α} {next : α → EStateM ε σ β} {e : ε}
    (h : Settles inv work (.error e)) :
    Settles inv (work >>= next) (.error e) := by
  intro s hs
  rcases h s hs with ⟨s', hs', hrun⟩
  refine ⟨s', hs', ?_⟩
  show EStateM.bind work next s = _
  unfold EStateM.bind
  rw [hrun]
  rfl

theorem of_attempt {work : EStateM Error σ α} {outcome : Except Error α}
    (h : Settles inv work outcome) :
    Settles inv (attempt work) (.ok outcome) := by
  intro s hs
  rcases h s hs with ⟨s', hs', hrun⟩
  refine ⟨s', hs', ?_⟩
  unfold attempt
  rw [hrun]
  cases outcome with
  | ok a => rfl
  | error e => rfl

theorem of_mapM {work : α → EStateM ε σ β} {f : α → β}
    (h : ∀ a, Settles inv (work a) (.ok (f a))) (as : List α) :
    Settles inv (as.mapM work) (.ok (as.map f)) := by
  induction as with
  | nil => exact of_pure []
  | cons a as ih =>
      rw [List.mapM_cons, List.map_cons]
      exact (h a).of_bind_ok (ih.of_bind_ok (of_pure _))

theorem unique {work : EStateM ε σ α} {outcome outcome' : Except ε α} {s : σ}
    (h : Settles inv work outcome) (h' : Settles inv work outcome')
    (hs : inv s) :
    outcome = outcome' := by
  rcases h s hs with ⟨t, _, hrun⟩
  rcases h' s hs with ⟨t', _, hrun'⟩
  rw [hrun] at hrun'
  cases outcome <;> cases outcome' <;> cases hrun' <;> rfl

end Settles

namespace Steady

variable {ε σ α β : Type} {inv : σ → Prop}

theorem of_pure (a : α) : Steady inv (pure a : EStateM ε σ α) :=
  ⟨.ok a, .of_pure a⟩

theorem of_throw (e : ε) : Steady inv (throw e : EStateM ε σ α) :=
  ⟨.error e, .of_throw e⟩

theorem of_ofExcept (x : Except Error α) :
    Steady inv (ofExcept x : EStateM Error σ α) :=
  ⟨x, .of_ofExcept x⟩

theorem of_bind {work : EStateM ε σ α} {next : α → EStateM ε σ β}
    (h : Steady inv work) (hnext : ∀ a, Steady inv (next a)) :
    Steady inv (work >>= next) := by
  rcases h with ⟨outcome, h⟩
  cases outcome with
  | ok a =>
      rcases hnext a with ⟨outcome', h'⟩
      exact ⟨outcome', h.of_bind_ok h'⟩
  | error e => exact ⟨.error e, h.of_bind_error⟩

theorem of_bind_pure {work : EStateM ε σ α} (f : α → β)
    (h : Steady inv work) :
    Steady inv (work >>= fun a => pure (f a)) :=
  h.of_bind fun a => of_pure (f a)

theorem of_attempt {work : EStateM Error σ α} (h : Steady inv work) :
    Steady inv (attempt work) := by
  rcases h with ⟨outcome, hsettles⟩
  exact ⟨.ok outcome, hsettles.of_attempt⟩

theorem of_mapM {work : α → EStateM ε σ β} (h : ∀ a, Steady inv (work a))
    (as : List α) :
    Steady inv (as.mapM work) := by
  induction as with
  | nil => exact of_pure []
  | cons a as ih =>
      rw [List.mapM_cons]
      exact (h a).of_bind fun b => ih.of_bind_pure _

end Steady

/-!
## Work that does not fail
-/

def Returns {ε σ α : Type} (work : EStateM ε σ α) (Q : α → Prop) : Prop :=
  ∀ s, ∃ a s', work s = .ok a s' ∧ Q a

namespace Returns

variable {ε σ α β : Type} {Q : α → Prop} {R : β → Prop}

theorem of_pure {a : α} (h : Q a) : Returns (pure a : EStateM ε σ α) Q := by
  intro s
  exact ⟨a, s, rfl, h⟩

theorem of_bind {work : EStateM ε σ α} {next : α → EStateM ε σ β}
    (h : Returns work Q) (hnext : ∀ a, Q a → Returns (next a) R) :
    Returns (work >>= next) R := by
  intro s
  rcases h s with ⟨a, s', hrun, ha⟩
  rcases hnext a ha s' with ⟨b, s'', hrun', hb⟩
  refine ⟨b, s'', ?_, hb⟩
  show EStateM.bind work next s = _
  unfold EStateM.bind
  rw [hrun]
  exact hrun'

theorem of_attempt (work : EStateM Error σ α) :
    Returns (attempt work) (fun _ => True) := by
  intro s
  unfold attempt
  cases work s with
  | ok a s' => exact ⟨.ok a, s', rfl, trivial⟩
  | error e s' => exact ⟨.error e, s', rfl, trivial⟩

theorem mono {work : EStateM ε σ α} {P : α → Prop} (h : Returns work P)
    (hQ : ∀ a, P a → Q a) :
    Returns work Q := by
  intro s
  rcases h s with ⟨a, s', hrun, ha⟩
  exact ⟨a, s', hrun, hQ a ha⟩

end Returns

/-!
## Outcomes that are evaluated

A run on concrete inputs is too large to write its outcome down. Whether it ends well,
and with what it should, is a Boolean.
-/

section

variable {ε σ α : Type}

/-- Whether work succeeds with an answer that passes a test. -/
def okWith (test : α → Bool) : EStateM.Result ε σ α → Bool
  | .ok a _ => test a
  | .error _ _ => false

def errorWith (test : ε → Bool) : EStateM.Result ε σ α → Bool
  | .ok _ _ => false
  | .error e _ => test e

def valueWith (test : α → Bool) : Except ε α → Bool
  | .ok a => test a
  | .error _ => false

theorem of_okWith {test : α → Bool} {outcome : EStateM.Result ε σ α}
    (h : okWith test outcome = true) :
    ∃ a s, outcome = .ok a s ∧ test a = true := by
  cases outcome with
  | ok a s => exact ⟨a, s, rfl, h⟩
  | error e s => cases h

theorem of_errorWith {test : ε → Bool} {outcome : EStateM.Result ε σ α}
    (h : errorWith test outcome = true) :
    ∃ e s, outcome = .error e s ∧ test e = true := by
  cases outcome with
  | ok a s => cases h
  | error e s => exact ⟨e, s, rfl, h⟩

theorem of_valueWith {test : α → Bool} {result : Except ε α}
    (h : valueWith test result = true) :
    ∃ a, result = .ok a ∧ test a = true := by
  cases result with
  | ok a => exact ⟨a, rfl, h⟩
  | error e => cases h

theorem eq_ok_of_valueWith [DecidableEq α] {a : α} {result : Except ε α}
    (h : valueWith (fun b => decide (b = a)) result = true) :
    result = .ok a := by
  rcases of_valueWith h with ⟨b, rfl, hb⟩
  exact congrArg Except.ok (of_decide_eq_true hb)

end

end CodeCache
