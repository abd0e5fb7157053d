import CodeCache.Proofs.Store.Storage
import Mathlib.Data.List.Forall2
import Mathlib.Tactic.Tauto

/-!
# When fingerprints agree

Loading asks whether a fingerprint accepts the settings of the process; merging
asks whether two fingerprints are identical. Both look through the same normal
form, in which only the presence of a base counts. What is captured depends on
the collector in use, and the options that choose it are captured themselves: so
settings that are accepted capture the same options.
-/

namespace CodeCache

theorem map_filter_eq_of_forall₂ {α β γ : Type} {p : α → Bool} {q : β → Bool} {f : α → γ}
    {g : β → γ} {as : List α} {bs : List β}
    (h : List.Forall₂ (fun a b => p a = q b ∧ (p a = true → f a = g b)) as bs) :
    (as.filter p).map f = (bs.filter q).map g := by
  induction h with
  | nil => rfl
  | @cons a b as bs hab _ ih =>
      cases hp : p a with
      | false => simp [← hab.1, hp, ih]
      | true => simp [← hab.1, hp, hab.2 hp, ih]

/-!
## Normal forms
-/

namespace NarrowPointer

/-- The mode with one and the same base for all modes that have one. -/
def normalized (p : NarrowPointer) : NarrowPointer :=
  { p with base := if p.base = 0 then 0 else 1 }

theorem sameShape_iff {p q : NarrowPointer} :
    p.sameShape q = true ↔ p.normalized = q.normalized := by
  by_cases hp : p.base = 0 <;> by_cases hq : q.base = 0 <;>
    simp [sameShape, normalized, hp, hq]

theorem sameShape_normalized (p q : NarrowPointer) :
    p.normalized.sameShape q = p.sameShape q := by
  rw [Bool.eq_iff_iff, sameShape_iff, sameShape_iff]
  by_cases hp : p.base = 0 <;> simp [normalized, hp]

end NarrowPointer

namespace Fingerprint

variable {f g : Fingerprint} {s : Settings}

def normalized (f : Fingerprint) : Fingerprint :=
  { f with
    narrowOop := f.narrowOop.normalized
    narrowKlass := f.narrowKlass.normalized }

theorem identical_iff : f.identical g = true ↔ f.normalized = g.normalized := by
  simp only [identical, normalized, Bool.and_eq_true, NarrowPointer.sameShape_iff,
    beq_iff_eq, Fingerprint.mk.injEq]
  tauto

theorem identical_self (f : Fingerprint) : f.identical f = true :=
  identical_iff.mpr rfl

theorem identical_equivalence :
    Equivalence fun f g : Fingerprint => f.identical g = true where
  refl := identical_self
  symm := fun h => identical_iff.mpr (identical_iff.mp h).symm
  trans := fun h h' =>
    identical_iff.mpr ((identical_iff.mp h).trans (identical_iff.mp h'))

theorem accepts_normalized (f : Fingerprint) (s : Settings) :
    f.normalized.accepts s = f.accepts s := by
  simp [accepts, normalized, NarrowPointer.sameShape_normalized]

theorem accepts_eq_of_identical (h : f.identical g = true) (s : Settings) :
    f.accepts s = g.accepts s := by
  rw [← accepts_normalized f, identical_iff.mp h, accepts_normalized]

/-!
## Captured options
-/

def Holds (s : Settings) (flag : UInt32 × Bool) : Prop :=
  ∃ f, s.flags[flag.1.toNat]? = some f ∧ f.value = flag.2

theorem flagMismatch?_eq_none_iff {flag : UInt32 × Bool} :
    flagMismatch? s flag = none ↔ Holds s flag := by
  unfold flagMismatch? Holds
  cases hf : s.flags[flag.1.toNat]? with
  | none => simp [hf]
  | some f => simp [hf]

theorem accepts_eq_ok_iff :
    f.accepts s = .ok () ↔
      f.objectAlignment = s.objectAlignment ∧ f.paddingWidth = s.paddingWidth ∧
        f.allocationStyle = s.allocationStyle ∧ (∀ flag ∈ f.flags, Holds s flag) ∧
        f.narrowOop.sameShape s.narrowOop = true ∧
        f.narrowKlass.sameShape s.narrowKlass = true := by
  have hflags : (∀ flag ∈ f.flags, Holds s flag) ↔
      f.flags.findSome? (flagMismatch? s) = none := by
    simp only [List.findSome?_eq_none_iff, flagMismatch?_eq_none_iff]
  rw [hflags]
  by_cases halignment : f.objectAlignment = s.objectAlignment
  · by_cases hpadding : f.paddingWidth = s.paddingWidth
    · by_cases hstyle : f.allocationStyle = s.allocationStyle
      · cases hfound : f.flags.findSome? (flagMismatch? s) with
        | some name => simp [accepts, halignment, hpadding, hstyle, hfound]
        | none => simp [accepts, halignment, hpadding, hstyle, hfound]
      · simp [accepts, halignment, hpadding, hstyle]
    · simp [accepts, halignment, hpadding]
  · simp [accepts, halignment]

theorem mem_captureFlags_iff (hsize : s.flags.length ≤ 2 ^ 32) {flag : UInt32 × Bool} :
    flag ∈ captureFlags s ↔
      ∃ f, s.flags[flag.1.toNat]? = some f ∧ s.isCaptured f = true ∧
        f.value = flag.2 := by
  unfold captureFlags
  rw [List.mem_map]
  constructor
  · rintro ⟨⟨i, f⟩, hmem, rfl⟩
    obtain ⟨hentry, hcaptured⟩ := List.mem_filter.mp hmem
    obtain ⟨j, hj, heq⟩ := List.mem_mapIdx.mp hentry
    cases heq
    refine ⟨_, ?_, hcaptured, rfl⟩
    rw [UInt32.toNat_ofNat_of_lt' (Nat.lt_of_lt_of_le hj hsize)]
    exact List.getElem?_eq_getElem hj
  · rintro ⟨f, hf, hcaptured, hvalue⟩
    obtain ⟨hlt, rfl⟩ := List.getElem?_eq_some_iff.mp hf
    refine ⟨(flag.1.toNat, s.flags[flag.1.toNat]), List.mem_filter.mpr ⟨?_, hcaptured⟩, ?_⟩
    · exact List.mem_mapIdx.mpr ⟨_, hlt, rfl⟩
    · simp [hvalue]

theorem accepts_capture (hsize : s.flags.length ≤ 2 ^ 32) :
    (capture s).accepts s = .ok () := by
  rw [accepts_eq_ok_iff]
  refine ⟨rfl, rfl, rfl, ?_, by simp [capture, NarrowPointer.sameShape_iff],
    by simp [capture, NarrowPointer.sameShape_iff]⟩
  intro flag hflag
  obtain ⟨f, hf, -, hvalue⟩ := (mem_captureFlags_iff hsize).mp hflag
  exact ⟨f, hf, hvalue⟩

end Fingerprint

/-!
## Settings with the same options
-/

namespace Settings

def options (s : Settings) : List (String × Bool) :=
  s.flags.map fun f => (f.name, f.product)

def collectorFlags : List String :=
  ["UseG1GC", "UseConcMarkSweepGC"]

/-- The collector is told by product options only. -/
def TellsCollector (s : Settings) : Prop :=
  ∀ f ∈ s.flags, f.name ∈ collectorFlags → f.product = true

variable {a b : Settings} {name : String}

theorem isCaptured_of_tells {f : Flag} (hname : f.name ∈ collectorFlags)
    (hproduct : f.product = true) :
    a.isCaptured f = true := by
  have hidle : a.isIdleCollectorFlag f.name = false := by
    unfold isIdleCollectorFlag
    rcases List.mem_pair.mp hname with h | h
    · rw [h, show startsWithText "UseG1GC" "G1" = false by decide,
        show startsWithText "UseG1GC" "CMS" = false by decide,
        show startsWithText "UseG1GC" "UseCMS" = false by decide]
      simp
    · rw [h, show startsWithText "UseConcMarkSweepGC" "G1" = false by decide,
        show startsWithText "UseConcMarkSweepGC" "CMS" = false by decide,
        show startsWithText "UseConcMarkSweepGC" "UseCMS" = false by decide]
      simp
  have hkept : ignoredFlagStarts.any (startsWithText f.name) = false := by
    rcases List.mem_pair.mp hname with h | h
    · rw [h]
      decide
    · rw [h]
      decide
  simp [isCaptured, hproduct, hidle, hkept]

theorem exists_flag_of_options (h : a.options = b.options) {i : Nat} {f : Flag}
    (hf : a.flags[i]? = some f) :
    ∃ g, b.flags[i]? = some g ∧ g.name = f.name ∧ g.product = f.product := by
  have hsame : b.options[i]? = some (f.name, f.product) := by
    rw [← h]
    simp [options, hf]
  unfold options at hsame
  rw [List.getElem?_map, Option.map_eq_some_iff] at hsame
  obtain ⟨g, hg, heq⟩ := hsame
  exact ⟨g, hg, congrArg Prod.fst heq, congrArg Prod.snd heq⟩

theorem isEnabled_iff :
    a.isEnabled name = true ↔
      ∃ (i : Nat) (f : Flag), a.flags[i]? = some f ∧ f.name = name ∧ f.value = true := by
  simp only [isEnabled, List.any_eq_true, List.mem_iff_getElem?, Bool.and_eq_true, beq_iff_eq]
  constructor
  · rintro ⟨f, ⟨i, hf⟩, hname, hvalue⟩
    exact ⟨i, f, hf, hname, hvalue⟩
  · rintro ⟨i, f, hf, hname, hvalue⟩
    exact ⟨f, ⟨i, hf⟩, hname, hvalue⟩

section

variable (hsize : a.flags.length ≤ 2 ^ 32)
  (hholds : ∀ flag ∈ Fingerprint.captureFlags a, Fingerprint.Holds b flag)

include hsize hholds

theorem value_eq_of_captured {i : Nat} {f g : Flag} (hf : a.flags[i]? = some f)
    (hg : b.flags[i]? = some g) (hcaptured : a.isCaptured f = true) :
    g.value = f.value := by
  have hlt := (List.getElem?_eq_some_iff.mp hf).1
  have hplace : (UInt32.ofNat i).toNat = i :=
    UInt32.toNat_ofNat_of_lt' (Nat.lt_of_lt_of_le hlt hsize)
  have hmem : (UInt32.ofNat i, f.value) ∈ Fingerprint.captureFlags a :=
    (Fingerprint.mem_captureFlags_iff hsize).mpr ⟨f, by rw [hplace]; exact hf, hcaptured, rfl⟩
  obtain ⟨g', hg', hvalue⟩ := hholds _ hmem
  rw [hplace, hg] at hg'
  cases hg'
  exact hvalue

variable (hoptions : a.options = b.options) (htells : a.TellsCollector)

include hoptions htells

theorem isEnabled_eq (hname : name ∈ collectorFlags) :
    a.isEnabled name = b.isEnabled name := by
  have hsame : ∀ {i : Nat} {f g : Flag}, a.flags[i]? = some f → b.flags[i]? = some g →
      f.name = name → g.value = f.value := by
    intro i f g hf hg hf'
    have hproduct := htells f (List.mem_of_getElem? hf) (hf' ▸ hname)
    exact value_eq_of_captured hsize hholds hf hg
      (isCaptured_of_tells (hf' ▸ hname) hproduct)
  rw [Bool.eq_iff_iff, isEnabled_iff, isEnabled_iff]
  constructor
  · rintro ⟨i, f, hf, hf', hvalue⟩
    obtain ⟨g, hg, hg', -⟩ := exists_flag_of_options hoptions hf
    exact ⟨i, g, hg, hg'.trans hf', (hsame hf hg hf').trans hvalue⟩
  · rintro ⟨i, g, hg, hg', hvalue⟩
    obtain ⟨f, hf, hf', -⟩ := exists_flag_of_options hoptions.symm hg
    have hfname := hf'.trans hg'
    exact ⟨i, f, hf, hfname, (hsame hf hg hfname).symm.trans hvalue⟩

theorem isCaptured_eq {f g : Flag} (hname : g.name = f.name) (hproduct : g.product = f.product) :
    b.isCaptured g = a.isCaptured f := by
  have hfirst := isEnabled_eq hsize hholds hoptions htells
    (show "UseG1GC" ∈ collectorFlags by simp [collectorFlags])
  have hsecond := isEnabled_eq hsize hholds hoptions htells
    (show "UseConcMarkSweepGC" ∈ collectorFlags by simp [collectorFlags])
  simp [isCaptured, isIdleCollectorFlag, hfirst, hsecond, hname, hproduct]

theorem captureFlags_eq : Fingerprint.captureFlags a = Fingerprint.captureFlags b := by
  have hlength : a.flags.length = b.flags.length := by
    simpa [options] using congrArg List.length hoptions
  have hall : List.Forall₂
      (fun x y : Nat × Flag => a.isCaptured x.2 = b.isCaptured y.2 ∧
        (a.isCaptured x.2 = true →
          (UInt32.ofNat x.1, x.2.value) = (UInt32.ofNat y.1, y.2.value)))
      (a.flags.mapIdx fun i f => (i, f)) (b.flags.mapIdx fun i f => (i, f)) := by
    rw [List.forall₂_iff_get]
    refine ⟨by simpa using hlength, ?_⟩
    intro i hi hi'
    rw [List.length_mapIdx] at hi hi'
    have hf := List.getElem?_eq_getElem hi
    obtain ⟨g, hg, hname, hproduct⟩ := exists_flag_of_options hoptions hf
    obtain ⟨_, rfl⟩ := List.getElem?_eq_some_iff.mp hg
    simp only [List.get_eq_getElem, List.getElem_mapIdx]
    refine ⟨(isCaptured_eq hsize hholds hoptions htells hname hproduct).symm, ?_⟩
    intro hcaptured
    rw [value_eq_of_captured hsize hholds hf hg hcaptured]
  exact map_filter_eq_of_forall₂ hall

end

end Settings

namespace Fingerprint

/-- Under the same options, what was captured under one settings is accepted under
other ones exactly if these capture something identical. -/
theorem accepts_capture_iff {a b : Settings} (hsize : a.flags.length ≤ 2 ^ 32)
    (hoptions : a.options = b.options) (htells : a.TellsCollector) :
    (capture a).accepts b = .ok () ↔ (capture a).identical (capture b) = true := by
  constructor
  · intro h
    obtain ⟨halignment, hpadding, hstyle, hholds, hoop, hklass⟩ := accepts_eq_ok_iff.mp h
    have hflags := Settings.captureFlags_eq hsize hholds hoptions htells
    rw [identical_iff]
    simp only [normalized, capture, Fingerprint.mk.injEq] at *
    exact ⟨halignment, hpadding, hstyle, NarrowPointer.sameShape_iff.mp hoop,
      NarrowPointer.sameShape_iff.mp hklass, hflags⟩
  · intro h
    have hlength : a.flags.length = b.flags.length := by
      simpa [Settings.options] using congrArg List.length hoptions
    rw [accepts_eq_of_identical h]
    exact accepts_capture (hlength ▸ hsize)

end Fingerprint

end CodeCache
