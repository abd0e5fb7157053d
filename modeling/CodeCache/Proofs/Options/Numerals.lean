import CodeCache.Options.Parse
import Mathlib.Algebra.Ring.Nat
import Mathlib.Data.List.Basic
import Mathlib.Data.List.Induction

/-!
# Numerals

A number of an option is meant to be written with digits only, with no zero in front.
The reader takes a plus sign as well, and behind that sign any number of zeros, for it
looks for a zero only at the very front.
-/

namespace CodeCache.Options

inductive Numeral where
  | plain (n : Nat)
  /-- A plus sign, and digits with any number of zeros in front. -/
  | signed (digits : List Char) (hne : digits ≠ [])
    (hdigits : ∀ c ∈ digits, c.isDigit = true)

namespace Numeral

def text : Numeral → String
  | plain n => toString n
  | signed digits _ _ => String.ofList ('+' :: digits)

def value : Numeral → Nat
  | plain n => n
  | signed digits _ _ => Nat.ofDigitChars 10 digits 0

def isPlain : Numeral → Bool
  | plain _ => true
  | signed .. => false

theorem toList_text_plain (n : Nat) : (plain n).text.toList = Nat.toDigits 10 n := by
  change (toString n).toList = _
  rw [Nat.toString_eq_ofList_toDigits, String.toList_ofList]

theorem toList_text_signed {ds : List Char} (hne : ds ≠ [])
    (hdigits : ∀ c ∈ ds, c.isDigit = true) :
    (signed ds hne hdigits).text.toList = '+' :: ds :=
  String.toList_ofList

theorem isDigit_or_eq (m : Numeral) {c : Char} (h : c ∈ m.text.toList) :
    c.isDigit = true ∨ c = '+' := by
  cases m with
  | plain n =>
      rw [toList_text_plain] at h
      exact Or.inl (Nat.isDigit_of_mem_toDigits (by decide) (by decide) h)
  | signed digits hne hdigits =>
      rw [toList_text_signed] at h
      rcases List.mem_cons.mp h with rfl | hmem
      · exact Or.inr rfl
      · exact Or.inl (hdigits c hmem)

theorem plus_mem_text_iff (m : Numeral) : '+' ∈ m.text.toList ↔ m.isPlain = false := by
  cases m with
  | plain n =>
      rw [toList_text_plain]
      refine ⟨fun h => ?_, fun h => nomatch h⟩
      exact absurd (Nat.isDigit_of_mem_toDigits (by decide) (by decide) h) (by decide)
  | signed digits hne hdigits => simp [toList_text_signed, isPlain]

end Numeral

/-!
## Digits
-/

theorem foldl_digits (ds : List Char) (n : Nat) :
    ds.foldl (fun n c => n * 10 + (c.toNat - '0'.toNat)) n = Nat.ofDigitChars 10 ds n := by
  rw [Nat.ofDigitChars_eq_foldl]
  simp only [Nat.mul_comm 10]

theorem digitChar_of_isDigit {c : Char} (h : c.isDigit = true) :
    c.toNat - '0'.toNat < 10 ∧ (c.toNat - '0'.toNat).digitChar = c := by
  obtain ⟨hlow, hhigh⟩ := Char.isDigit_iff_toNat.mp h
  change 48 ≤ c.toNat at hlow
  change c.toNat ≤ 57 at hhigh
  change c.toNat - 48 < 10 ∧ (c.toNat - 48).digitChar = c
  have hlt : c.toNat - 48 < 10 := by omega
  refine ⟨hlt, Char.toNat_inj.mp ?_⟩
  rw [Nat.toNat_digitChar_of_lt_ten hlt]
  omega

/-- Digits with no zero in front are those of their value, which is not zero. The
induction is on the digits before the last: they are those of the quotient by ten. -/
theorem toDigits_ofDigitChars {ds : List Char} (hne : ds ≠ [])
    (hdigits : ∀ c ∈ ds, c.isDigit = true) (hhead : ds.head? ≠ some '0') :
    0 < Nat.ofDigitChars 10 ds 0 ∧ Nat.toDigits 10 (Nat.ofDigitChars 10 ds 0) = ds := by
  induction ds using List.reverseRecOn with
  | nil => exact absurd rfl hne
  | append_singleton ds d ih =>
      obtain ⟨hlt, hchar⟩ := digitChar_of_isDigit (hdigits d (by simp))
      rw [Nat.ofDigitChars_append, Nat.ofDigitChars_cons, Nat.ofDigitChars_nil]
      by_cases hnil : ds = []
      · subst hnil
        have hzero : d.toNat - '0'.toNat ≠ 0 := by
          intro hzero
          rw [hzero] at hchar
          exact hhead (congrArg some hchar.symm)
        rw [Nat.ofDigitChars_nil, Nat.mul_zero, Nat.zero_add, Nat.toDigits_of_lt_base hlt,
          hchar]
        exact ⟨Nat.pos_of_ne_zero hzero, rfl⟩
      · rw [List.head?_append_of_ne_nil _ hnil] at hhead
        obtain ⟨hpos, hds⟩ := ih hnil (fun c hc => hdigits c (by simp [hc])) hhead
        generalize Nat.ofDigitChars 10 ds 0 = n at *
        have hdiv : (10 * n + (d.toNat - '0'.toNat)) / 10 = n := by omega
        have hmod : (10 * n + (d.toNat - '0'.toNat)) % 10 = d.toNat - '0'.toNat := by omega
        refine ⟨by omega, ?_⟩
        rw [Nat.toDigits_of_base_le (by decide) (by omega), hdiv, hmod, hds, hchar]

theorem head?_toDigits_ne {n : Nat} (h : 0 < n) : (Nat.toDigits 10 n).head? ≠ some '0' := by
  induction n using Nat.strong_induction_on with
  | _ n ih =>
      by_cases hlt : n < 10
      · rw [Nat.toDigits_of_lt_base hlt, List.head?_cons]
        intro hzero
        exact absurd (Nat.digitChar_eq_zero.mp (Option.some.inj hzero)) (Nat.ne_of_gt h)
      · rw [Nat.toDigits_of_base_le (by decide) (Nat.not_lt.mp hlt),
          List.head?_append_of_ne_nil _ Nat.toDigits_ne_nil]
        exact ih (n / 10) (by omega) (by omega)

/-!
## Reading a number
-/

def wordOf? (ds : List Char) : Option Nat :=
  if ds.isEmpty || !ds.all Char.isDigit then none
  else if Nat.ofDigitChars 10 ds 0 < UInt32.size then some (Nat.ofDigitChars 10 ds 0)
  else none

theorem wordOf?_eq_some_iff {ds : List Char} {n : Nat} :
    wordOf? ds = some n ↔ ds ≠ [] ∧ (∀ c ∈ ds, c.isDigit = true) ∧
      Nat.ofDigitChars 10 ds 0 = n ∧ n < UInt32.size := by
  unfold wordOf?
  split
  · rename_i hbad
    rw [Bool.or_eq_true, List.isEmpty_iff, Bool.not_eq_true', ← Bool.not_eq_true,
      List.all_eq_true] at hbad
    refine ⟨(fun h => nomatch h), ?_⟩
    rintro ⟨hne, hdigits, -, -⟩
    exact absurd hbad (not_or.mpr ⟨hne, not_not_intro hdigits⟩)
  · rename_i hgood
    rw [Bool.or_eq_true, List.isEmpty_iff, Bool.not_eq_true', ← Bool.not_eq_true,
      List.all_eq_true, not_or, not_not] at hgood
    rw [Option.ite_none_right_eq_some, Option.some.injEq]
    constructor
    · rintro ⟨hlt, rfl⟩
      exact ⟨hgood.1, hgood.2, rfl, hlt⟩
    · rintro ⟨-, -, rfl, hlt⟩
      exact ⟨hlt, rfl⟩

theorem number?_of_sign {s : String} {ds : List Char} (h : s.toList = '+' :: ds) :
    number? s = wordOf? ds := by
  unfold number? wordOf?
  simp only [foldl_digits, h]

theorem number?_of_no_sign {s : String} (h : s.toList.head? ≠ some '+') :
    number? s = wordOf? s.toList := by
  unfold number? wordOf?
  simp only [foldl_digits]
  split
  · rename_i ds hds
    rw [hds] at h
    exact absurd rfl h
  · rfl

theorem exists_numeral {s : String} {n : Nat} (h : number? s = some n)
    (hhead : s.toList.head? ≠ some '0') :
    ∃ m : Numeral, m.text = s ∧ m.value = n := by
  by_cases hsign : s.toList.head? = some '+'
  · have hs : s.toList = '+' :: s.toList.tail := List.eq_cons_of_mem_head? hsign
    rw [number?_of_sign hs, wordOf?_eq_some_iff] at h
    obtain ⟨hne, hdigits, hvalue, -⟩ := h
    refine ⟨.signed s.toList.tail hne hdigits, ?_, hvalue⟩
    rw [← String.toList_inj, Numeral.toList_text_signed]
    exact hs.symm
  · rw [number?_of_no_sign hsign, wordOf?_eq_some_iff] at h
    obtain ⟨hne, hdigits, hvalue, -⟩ := h
    refine ⟨.plain n, ?_, rfl⟩
    rw [← String.toList_inj, Numeral.toList_text_plain, ← hvalue]
    exact (toDigits_ofDigitChars hne hdigits hhead).2

theorem number?_text {m : Numeral} (h : m.value < UInt32.size) :
    number? m.text = some m.value := by
  cases m with
  | plain n =>
      have hdigits : ∀ c ∈ (Numeral.plain n).text.toList, c.isDigit = true := by
        rw [Numeral.toList_text_plain]
        exact fun c hc => Nat.isDigit_of_mem_toDigits (by decide) (by decide) hc
      have hsign : (Numeral.plain n).text.toList.head? ≠ some '+' := fun hhead =>
        absurd (hdigits _ (List.mem_of_head? hhead)) (by decide)
      rw [number?_of_no_sign hsign, wordOf?_eq_some_iff]
      refine ⟨?_, hdigits, ?_, h⟩
      · rw [Numeral.toList_text_plain]
        exact Nat.toDigits_ne_nil
      · rw [Numeral.toList_text_plain]
        exact Nat.ofDigitChars_ten_toDigits
  | signed ds hne hdigits =>
      rw [number?_of_sign (Numeral.toList_text_signed hne hdigits), wordOf?_eq_some_iff]
      exact ⟨hne, hdigits, rfl, h⟩

theorem head?_text_ne {m : Numeral} (h : 0 < m.value) : m.text.toList.head? ≠ some '0' := by
  cases m with
  | plain n =>
      rw [Numeral.toList_text_plain]
      exact head?_toDigits_ne h
  | signed ds hne hdigits => simp [Numeral.toList_text_signed]

theorem readNumber_eq_ok_iff {key s : String} {low high n : Nat} (hlow : 0 < low)
    (hhigh : high < UInt32.size) :
    readNumber key s low high = .ok n ↔
      ∃ m : Numeral, m.text = s ∧ m.value = n ∧ low ≤ n ∧ n ≤ high := by
  unfold readNumber
  constructor
  · intro h
    split at h
    · cases h
    · rename_i hhead
      split at h
      · cases h
      · rename_i v hnumber
        split at h
        · cases h
        · cases h
          obtain ⟨m, htext, hvalue⟩ := exists_numeral hnumber hhead
          exact ⟨m, htext, hvalue, by omega, by omega⟩
  · rintro ⟨m, rfl, rfl, hle, hge⟩
    rw [if_neg (head?_text_ne (by omega)), number?_text (by omega)]
    exact if_neg (by omega)

end CodeCache.Options
