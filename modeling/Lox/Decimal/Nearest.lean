import Lox.Decimal.Binary

/-!
# The double nearest to a fraction

A fraction of natural numbers is rounded to a double by one exact division: its
binary magnitude says which bit is the last one a double can hold, the quotient
is taken in units of that bit, and the rest decides which way to round.
-/

namespace Lox.Decimal

/-- The natural number nearest to a fraction, the even one if two are. -/
def nearestNat (num den : Nat) : Nat :=
  let below := num / den
  match compare (2 * (num % den)) den with
  | .lt => below
  | .gt => below + 1
  | .eq => if below % 2 = 0 then below else below + 1

/-- The nearest natural number is within half a unit of the fraction. -/
theorem nearestNat_near (num den : Nat) (positive : 0 < den) :
    2 * (nearestNat num den * den) ≤ 2 * num + den ∧
      2 * num ≤ 2 * (nearestNat num den * den) + den := by
  have split : num / den * den + num % den = num := Nat.div_add_mod' num den
  have above : (num / den + 1) * den = num / den * den + den := Nat.succ_mul _ _
  have small : num % den < den := Nat.mod_lt num positive
  simp only [nearestNat]
  split
  · rename_i order
    rw [Nat.compare_eq_lt] at order
    omega
  · rename_i order
    rw [Nat.compare_eq_gt] at order
    omega
  · rename_i order
    rw [Nat.compare_eq_eq] at order
    split <;> omega

/-- The exponent of the greatest power of two that a positive fraction is not below. -/
def binaryMagnitude (num den : Nat) : Int :=
  let guess : Int := num.log2 - den.log2
  if den * twoTo guess.toNat ≤ num * twoTo (-guess).toNat then guess else guess - 1

/-- The exponent of the last bit of the doubles next to a positive fraction. -/
def lastBit (num den : Nat) : Int := max (binaryMagnitude num den - fractionBits) leastExponent

def greatestExponent : Int := 971

/-- The double nearest to a fraction; beyond the greatest double it is infinite. -/
def nearest (num den : Nat) : Reading :=
  if num = 0 then .finite ⟨false, 0, leastExponent⟩
  else
    let exponent := lastBit num den
    let significand := nearestNat (num * twoTo (-exponent).toNat) (den * twoTo exponent.toNat)
    let value : Binary :=
      if significand = twoTo (fractionBits + 1) then ⟨false, twoTo fractionBits, exponent + 1⟩
      else ⟨false, significand, exponent⟩
    if greatestExponent < value.exponent then .infinite false else .finite value

end Lox.Decimal
