/-!
# Rounding to binary and decimal fractions

Reports show times as decimal fractions of binary floating-point numbers. A double-precision number
is held here as a multiple of the smallest positive one, so that rounding to binary and to decimal
places are both one division of natural numbers, rounded to the nearest, ties to even.
-/

namespace CodeCache.Decimal

/-- The integer nearest to `num / den`; of two equally near ones the even one. -/
def roundDiv (num den : Nat) : Nat :=
  let q := num / den
  let twice := 2 * (num % den)
  if den < twice ∨ (twice = den ∧ q % 2 = 1) then q + 1 else q

/-- Rounding moves a quotient by at most one half. -/
theorem roundDiv_error {num den : Nat} (h : 0 < den) :
    2 * num ≤ 2 * (roundDiv num den * den) + den
      ∧ 2 * (roundDiv num den * den) ≤ 2 * num + den := by
  have split : den * (num / den) + num % den = num := Nat.div_add_mod num den
  have comm : num / den * den = den * (num / den) := Nat.mul_comm ..
  have small : num % den < den := Nat.mod_lt _ h
  unfold roundDiv
  by_cases up : den < 2 * (num % den) ∨ (2 * (num % den) = den ∧ num / den % 2 = 1)
  · simp only [if_pos up, Nat.add_mul, Nat.one_mul]
    omega
  · simp only [if_neg up]
    omega

theorem roundDiv_mul (q : Nat) {den : Nat} (h : 0 < den) : roundDiv (q * den) den = q := by
  have nonzero : 0 ≠ den := by omega
  simp [roundDiv, Nat.mul_div_cancel q h, nonzero]

def unitsPerOne : Nat := 1 <<< 1074

/-- The double nearest to `num / den`, in units of the smallest one. It has 53 significant bits. -/
def nearestDouble (num den : Nat) : Nat :=
  let scale := 1 <<< ((num * unitsPerOne / den).log2 - 52)
  roundDiv (num * unitsPerOne) (den * scale) * scale

def divDouble (units divisor : Nat) : Nat :=
  nearestDouble units (unitsPerOne * divisor)

def thousandths (n : Nat) : String :=
  let places := toString (n % 1000)
  toString (n / 1000) ++ "." ++ String.ofList (List.replicate (3 - places.length) '0') ++ places

def threePlaces (units : Nat) : String :=
  thousandths (roundDiv (units * 1000) unitsPerOne)

end CodeCache.Decimal
