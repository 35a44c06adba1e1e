import Lox.Proofs.Decimal.Doubles

/-!
# Which fractions are rounded to a double

A double is what a fraction is rounded to when the fraction lies between the midpoints
with the two doubles next to it; a midpoint counts itself when the significand is even.
In units of the last bit of the double, the fraction is then at most one half away, so
that the quotient is rounded to the significand.  Only just below a power of two this is
different.  The last bit is one place further down there, and rounding carries over into
the power of two.
-/

namespace Lox.Decimal

/-! ### Values -/

theorem twoTo_pos (k : Nat) : 0 < twoTo k := Nat.two_pow_pos k

def Binary.magnitude (b : Binary) : ℚ := b.significand * 2 ^ b.exponent

def Binary.value (b : Binary) : ℚ := if b.negative then -b.magnitude else b.magnitude

/-- A power with an integer exponent, as a quotient of natural powers. -/
theorem toNat_pow_div (base : Nat) (hbase : 0 < base) (k : Int) :
    ((base ^ k.toNat : Nat) : ℚ) / ((base ^ (-k).toNat : Nat) : ℚ) = (base : ℚ) ^ k := by
  have hne : (base : ℚ) ≠ 0 := by positivity
  rw [Nat.cast_pow, Nat.cast_pow, ← zpow_natCast, ← zpow_natCast, ← zpow_sub₀ hne]
  congr 1
  omega

theorem Binary.scale_eq (b : Binary) : (b.scaleUp : ℚ) / b.scaleDown = 2 ^ b.exponent :=
  toNat_pow_div 2 (by decide) b.exponent

/-! ### The nearest natural number -/

/-- A natural number is the nearest one within half a unit, on the edge only if it is even. -/
theorem nearestNat_eq {num den n : Nat} (hden : 0 < den)
    (hlow : (n : ℚ) - 1 / 2 ≤ (num : ℚ) / den) (hhigh : (num : ℚ) / den ≤ n + 1 / 2)
    (hties : n % 2 = 0 ∨ ((n : ℚ) - 1 / 2 < (num : ℚ) / den ∧ (num : ℚ) / den < n + 1 / 2)) :
    nearestNat num den = n := by
  -- The bounds are put into natural numbers, with the quotient and the rest of the division.
  have hpos : (0 : ℚ) < den := by exact_mod_cast hden
  have hsplit : num / den * den + num % den = num := Nat.div_add_mod' num den
  have hrest : num % den < den := Nat.mod_lt num hden
  have hlow' : 2 * (n * den) ≤ 2 * num + den := by
    rw [le_div_iff₀ hpos] at hlow
    have : (2 * (n * den) : ℚ) ≤ 2 * num + den := by linarith
    exact_mod_cast this
  have hhigh' : 2 * num ≤ 2 * (n * den) + den := by
    rw [div_le_iff₀ hpos] at hhigh
    have : (2 * num : ℚ) ≤ 2 * (n * den) + den := by linarith
    exact_mod_cast this
  have hties' : n % 2 = 0 ∨ (2 * (n * den) < 2 * num + den ∧ 2 * num < 2 * (n * den) + den) := by
    rcases hties with h | ⟨hl, hh⟩
    · exact Or.inl h
    · rw [lt_div_iff₀ hpos] at hl
      rw [div_lt_iff₀ hpos] at hh
      have hl' : (2 * (n * den) : ℚ) < 2 * num + den := by linarith
      have hh' : (2 * num : ℚ) < 2 * (n * den) + den := by linarith
      exact Or.inr ⟨by exact_mod_cast hl', by exact_mod_cast hh'⟩
  -- The quotient is `n` or the number below.
  have hle : num / den ≤ n := by
    by_contra hlt
    have : (n + 1) * den ≤ num / den * den := Nat.mul_le_mul_right den (by omega)
    rw [Nat.succ_mul] at this
    omega
  have hge : n ≤ num / den + 1 := by
    by_contra hlt
    have : (num / den + 2) * den ≤ n * den := Nat.mul_le_mul_right den (by omega)
    rw [Nat.add_mul] at this
    omega
  simp only [nearestNat]
  -- The number below `n` is the quotient: the rest is above the middle, or on it with `n` even.
  rcases Nat.lt_or_eq_of_le hle with hlt | heq
  · obtain rfl : n = num / den + 1 := by omega
    rw [Nat.succ_mul (num / den) den] at hlow' hhigh' hties'
    split
    · rename_i order
      rw [Nat.compare_eq_lt] at order
      omega
    · rfl
    · rename_i order
      rw [Nat.compare_eq_eq] at order
      rw [if_neg (by omega)]
  · -- The quotient is `n` itself, and the rest below the middle or on it.
    rw [← heq] at hlow' hhigh' hties'
    rw [← heq]
    split
    · rfl
    · rename_i order
      rw [Nat.compare_eq_gt] at order
      omega
    · rename_i order
      rw [Nat.compare_eq_eq] at order
      rw [if_pos (by omega)]

/-! ### The last bit -/

theorem two_zpow_log2_le {n : Nat} (hn : 0 < n) : (2 : ℚ) ^ (n.log2 : Int) ≤ n := by
  rw [zpow_natCast]
  exact_mod_cast Nat.log2_self_le (Nat.ne_of_gt hn)

theorem lt_two_zpow_log2 (n : Nat) : (n : ℚ) < (2 : ℚ) ^ (n.log2 + 1 : Int) := by
  have : (n : ℚ) < (2 : ℚ) ^ (n.log2 + 1) := by exact_mod_cast Nat.lt_log2_self
  exact_mod_cast this

/-- The test in `binaryMagnitude` compares the fraction with a power of two. -/
theorem two_zpow_le_div_iff {num den : Nat} (hden : 0 < den) (k : Int) :
    (2 : ℚ) ^ k ≤ (num : ℚ) / den ↔ den * twoTo k.toNat ≤ num * twoTo (-k).toNat := by
  have hpos : (0 : ℚ) < den := by exact_mod_cast hden
  have hdown : (0 : ℚ) < ((2 ^ (-k).toNat : Nat) : ℚ) := by positivity
  have hpower := toNat_pow_div 2 (by decide) k
  rw [Nat.cast_ofNat] at hpower
  rw [← hpower, div_le_div_iff₀ hdown hpos, twoTo_eq, twoTo_eq, mul_comm den]
  exact_mod_cast Iff.rfl

theorem two_zpow_binaryMagnitude_le {num den : Nat} (hnum : 0 < num) (hden : 0 < den) :
    (2 : ℚ) ^ binaryMagnitude num den ≤ (num : ℚ) / den := by
  simp only [binaryMagnitude]
  split
  · rename_i h
    exact (two_zpow_le_div_iff hden _).mpr h
  · have hpos : (0 : ℚ) < den := by exact_mod_cast hden
    rw [le_div_iff₀ hpos]
    calc (2 : ℚ) ^ ((num.log2 : Int) - den.log2 - 1) * den
        ≤ 2 ^ ((num.log2 : Int) - den.log2 - 1) * 2 ^ (den.log2 + 1 : Int) := by
          gcongr
          exact (lt_two_zpow_log2 den).le
      _ = 2 ^ (num.log2 : Int) := by
          rw [← zpow_add₀ two_ne_zero]
          congr 1
          omega
      _ ≤ num := two_zpow_log2_le hnum

theorem lt_two_zpow_binaryMagnitude {num den : Nat} (hden : 0 < den) :
    (num : ℚ) / den < (2 : ℚ) ^ (binaryMagnitude num den + 1) := by
  simp only [binaryMagnitude]
  split
  · have hpos : (0 : ℚ) < den := by exact_mod_cast hden
    rw [div_lt_iff₀ hpos]
    calc (num : ℚ) < 2 ^ (num.log2 + 1 : Int) := lt_two_zpow_log2 num
      _ = 2 ^ ((num.log2 : Int) - den.log2 + 1) * 2 ^ (den.log2 : Int) := by
          rw [← zpow_add₀ two_ne_zero]
          congr 1
          omega
      _ ≤ 2 ^ ((num.log2 : Int) - den.log2 + 1) * den := by
          gcongr
          exact two_zpow_log2_le hden
  · rename_i h
    rw [← two_zpow_le_div_iff hden, not_le] at h
    rwa [sub_add_cancel]

/-- The exponent is the one for which the fraction lies between two powers of two. -/
theorem binaryMagnitude_eq {num den : Nat} {k : Int} (hnum : 0 < num) (hden : 0 < den)
    (hlow : (2 : ℚ) ^ k ≤ (num : ℚ) / den) (hhigh : (num : ℚ) / den < (2 : ℚ) ^ (k + 1)) :
    binaryMagnitude num den = k := by
  have hle := (two_zpow_binaryMagnitude_le hnum hden).trans_lt hhigh
  have hlt := hlow.trans_lt (@lt_two_zpow_binaryMagnitude num den hden)
  rw [zpow_lt_zpow_iff_right₀ one_lt_two] at hle hlt
  omega

/-! ### The numbers that round to a double -/

namespace Binary

/-- The midpoint with the next smaller double. -/
def low (b : Binary) : ℚ := (b.significand - b.quartersBelow / 4) * 2 ^ b.exponent

/-- The midpoint with the next greater double. -/
def high (b : Binary) : ℚ := (b.significand + 1 / 2) * 2 ^ b.exponent

/-- Whether `q` lies between the midpoints; they count themselves when the significand is even. -/
structure Surrounds (b : Binary) (q : ℚ) : Prop where
  low_le : b.low ≤ q
  le_high : q ≤ b.high
  inside : b.significand % 2 = 0 ∨ (b.low < q ∧ q < b.high)

variable {b : Binary} {num den : Nat}

theorem quartersBelow_pos (b : Binary) : 0 < b.quartersBelow := by
  simp only [quartersBelow]
  split <;> omega

theorem quartersBelow_le (b : Binary) : b.quartersBelow ≤ 2 := by
  simp only [quartersBelow]
  split <;> omega

/-- A number in units of the last bit. -/
theorem scaled_eq (num den : Nat) (k : Int) :
    ((num * twoTo (-k).toNat : Nat) : ℚ) / ((den * twoTo k.toNat : Nat) : ℚ) =
      (num : ℚ) / den / 2 ^ k := by
  have hpower := toNat_pow_div 2 (by decide) k
  rw [Nat.cast_ofNat] at hpower
  rw [← hpower, twoTo_eq, twoTo_eq]
  push_cast
  rw [div_div_eq_mul_div, div_mul_eq_mul_div, div_div]

/-- The bounds in units of the last bit. -/
theorem Surrounds.scaled {q : ℚ} (h : b.Surrounds q) :
    (b.significand : ℚ) - b.quartersBelow / 4 ≤ q / 2 ^ b.exponent ∧
      q / 2 ^ b.exponent ≤ b.significand + 1 / 2 ∧
      (b.significand % 2 = 0 ∨ ((b.significand : ℚ) - b.quartersBelow / 4 < q / 2 ^ b.exponent ∧
        q / 2 ^ b.exponent < b.significand + 1 / 2)) := by
  have hunit : (0 : ℚ) < 2 ^ b.exponent := by positivity
  simp only [le_div_iff₀ hunit, div_le_iff₀ hunit, lt_div_iff₀ hunit, div_lt_iff₀ hunit]
  exact ⟨h.low_le, h.le_high, h.inside⟩

theorem quarters_le_half (b : Binary) : (b.quartersBelow : ℚ) / 4 ≤ 1 / 2 := by
  have : (b.quartersBelow : ℚ) ≤ 2 := by exact_mod_cast b.quartersBelow_le
  linarith

/-- What rounds to `b` is rounded to `b` where the last bit is that of `b`. -/
theorem Surrounds.nearest_of_lastBit (hb : b.Canonical) (hnum : 0 < num) (hden : 0 < den)
    (h : b.Surrounds ((num : ℚ) / den)) (hlast : lastBit num den = b.exponent) :
    nearest num den = .finite ⟨false, b.significand, b.exponent⟩ := by
  obtain ⟨hlow, hhigh, hinside⟩ := h.scaled
  have hhalf := b.quarters_le_half
  have hsignificand : nearestNat (num * twoTo (-b.exponent).toNat)
      (den * twoTo b.exponent.toNat) = b.significand := by
    apply nearestNat_eq (Nat.mul_pos hden (twoTo_pos _))
    all_goals rw [scaled_eq]
    · linarith
    · exact hhigh
    · rcases hinside with heven | ⟨hl, hh⟩
      · exact Or.inl heven
      · exact Or.inr ⟨by linarith, hh⟩
  have hfull : b.significand ≠ twoTo (fractionBits + 1) := Nat.ne_of_lt hb.significand_lt
  have hgreatest : ¬ greatestExponent < b.exponent := not_lt.mpr hb.greatest
  simp only [nearest, Nat.ne_of_gt hnum, if_false, hlast, hsignificand, hfull, hgreatest]

/-- A power of two is also reached from below, where the doubles lie twice as dense. -/
theorem Surrounds.nearest_of_dense (hb : b.Canonical) (hnum : 0 < num) (hden : 0 < den)
    (hpower : b.significand = 2 ^ 52) (hleast : leastExponent < b.exponent)
    (h : b.Surrounds ((num : ℚ) / den)) (hbelow : (num : ℚ) / den / 2 ^ b.exponent < 2 ^ 52) :
    nearest num den = .finite ⟨false, b.significand, b.exponent⟩ := by
  have hquarter : b.quartersBelow = 1 := by
    rw [quartersBelow, if_pos]
    exact ⟨hpower, hleast⟩
  have hlow := h.scaled.1
  rw [hpower, hquarter] at hlow
  push_cast at hlow
  have hdouble : (num : ℚ) / den / 2 ^ (b.exponent - 1) = 2 * ((num : ℚ) / den / 2 ^ b.exponent) := by
    rw [zpow_sub_one₀ two_ne_zero]
    field_simp
  have hmagnitude : binaryMagnitude num den = b.exponent + 51 := by
    have hunit : (0 : ℚ) < 2 ^ b.exponent := by positivity
    apply binaryMagnitude_eq hnum hden
    · rw [zpow_add₀ two_ne_zero, ← le_div_iff₀' hunit]
      norm_num
      linarith
    · rw [add_assoc, zpow_add₀ two_ne_zero, ← div_lt_iff₀' hunit]
      norm_num
      linarith
  -- Below the power of two the last bit is worth half as much,
  have hlast : lastBit num den = b.exponent - 1 := by
    simp only [lastBit, hmagnitude, fractionBits]
    omega
  -- and in that unit the fraction is nearest to twice the significand, which carries over.
  have hsignificand : nearestNat (num * twoTo (-(b.exponent - 1)).toNat)
      (den * twoTo (b.exponent - 1).toNat) = 2 ^ 53 := by
    apply nearestNat_eq (Nat.mul_pos hden (twoTo_pos _))
    all_goals rw [scaled_eq, hdouble]
    · push_cast
      linarith
    · push_cast
      linarith
    · exact Or.inl (by decide)
  have hgreatest : ¬ greatestExponent < b.exponent := not_lt.mpr hb.greatest
  have hcarry : twoTo (fractionBits + 1) = 2 ^ 53 := rfl
  simp only [nearest, Nat.ne_of_gt hnum, if_false, hlast, hsignificand, hcarry, if_true,
    sub_add_cancel, hgreatest, hpower]
  rfl

/-- Every fraction between the midpoints is rounded to the double. -/
theorem Surrounds.nearest_eq (hb : b.Canonical) (hden : 0 < den)
    (h : b.Surrounds ((num : ℚ) / den)) :
    nearest num den = .finite ⟨false, b.significand, b.exponent⟩ := by
  obtain ⟨hlow, hhigh, -⟩ := h.scaled
  have hhalf := b.quarters_le_half
  have hunit : (0 : ℚ) < 2 ^ b.exponent := by positivity
  -- Zero is the nearest double only of zero here: within half a unit of it.
  by_cases hnum : num = 0
  · subst hnum
    rw [Nat.cast_zero, zero_div, zero_div] at hlow
    have hzero : b.significand = 0 := by
      have : (b.significand : ℚ) < 1 := by linarith
      exact_mod_cast Nat.lt_one_iff.mp (by exact_mod_cast this)
    have hleast : b.exponent = leastExponent := hb.full.resolve_left (by omega)
    rw [nearest, if_pos rfl, hzero, hleast]
  · -- The fraction is below the next power of two, so its magnitude is that of the double.
    have hpos : 0 < num := Nat.pos_of_ne_zero hnum
    have hupper : binaryMagnitude num den ≤ b.exponent + 52 := by
      have hlt : (num : ℚ) / den < 2 ^ (b.exponent + 53) := by
        rw [zpow_add₀ two_ne_zero, ← div_lt_iff₀' hunit]
        have : (b.significand : ℚ) + 1 ≤ 2 ^ 53 := by exact_mod_cast hb.significand_lt
        norm_num at this ⊢
        linarith
      have hle := (two_zpow_binaryMagnitude_le hpos hden).trans_lt hlt
      rw [zpow_lt_zpow_iff_right₀ one_lt_two] at hle
      omega
    -- Subnormal: the least exponent decides the last bit.
    by_cases hleast : b.exponent = leastExponent
    · apply h.nearest_of_lastBit hb hpos hden
      simp only [lastBit, fractionBits]
      omega
    · -- Normal: at a power of two the fraction may lie below, where the doubles are twice as dense.
      have hfull : 2 ^ 52 ≤ b.significand := hb.full.resolve_right hleast
      have hmore : leastExponent < b.exponent := lt_of_le_of_ne hb.least (Ne.symm hleast)
      by_cases hbelow : (num : ℚ) / den / 2 ^ b.exponent < 2 ^ 52
      · have hpower : b.significand = 2 ^ 52 := by
          have : (b.significand : ℚ) < 2 ^ 52 + 1 := by linarith
          have : b.significand < 2 ^ 52 + 1 := by exact_mod_cast this
          omega
        exact h.nearest_of_dense hb hpos hden hpower hmore hbelow
      · apply h.nearest_of_lastBit hb hpos hden
        have hlower : b.exponent + 52 ≤ binaryMagnitude num den := by
          have hle : (2 : ℚ) ^ (b.exponent + 52) ≤ (num : ℚ) / den := by
            rw [zpow_add₀ two_ne_zero, ← le_div_iff₀' hunit]
            norm_num at hbelow ⊢
            linarith
          have hlt := hle.trans_lt (@lt_two_zpow_binaryMagnitude num den hden)
          rw [zpow_lt_zpow_iff_right₀ one_lt_two] at hlt
          omega
        simp only [lastBit, fractionBits]
        omega

end Binary

/-! ### What is rounded to -/

variable {num den n : Nat} {b : Binary}

theorem nearestNat_le (hden : 0 < den) (h : (num : ℚ) / den ≤ n) : nearestNat num den ≤ n := by
  have hpos : (0 : ℚ) < den := by exact_mod_cast hden
  rw [div_le_iff₀ hpos] at h
  have hle : num ≤ n * den := by exact_mod_cast h
  have hnear := (nearestNat_near num den hden).1
  by_contra hlt
  have : (n + 1) * den ≤ nearestNat num den * den := Nat.mul_le_mul_right den (by omega)
  rw [Nat.succ_mul n den] at this
  omega

theorem le_nearestNat (hden : 0 < den) (h : (n : ℚ) ≤ (num : ℚ) / den) : n ≤ nearestNat num den := by
  have hpos : (0 : ℚ) < den := by exact_mod_cast hden
  rw [le_div_iff₀ hpos] at h
  have hle : n * den ≤ num := by exact_mod_cast h
  have hnear := (nearestNat_near num den hden).2
  by_contra hlt
  have : (nearestNat num den + 1) * den ≤ n * den := Nat.mul_le_mul_right den (by omega)
  rw [Nat.succ_mul (nearestNat num den) den] at this
  omega

/-- In units of its last bit a fraction is rounded to at most 53 bits, and to all of them if it can be. -/
theorem nearestNat_lastBit (hnum : 0 < num) (hden : 0 < den) :
    nearestNat (num * twoTo (-lastBit num den).toNat) (den * twoTo (lastBit num den).toNat) ≤ 2 ^ 53 ∧
      (lastBit num den ≠ leastExponent →
        2 ^ 52 ≤ nearestNat (num * twoTo (-lastBit num den).toNat)
          (den * twoTo (lastBit num den).toNat)) := by
  have hunits : 0 < den * twoTo (lastBit num den).toNat := Nat.mul_pos hden (twoTo_pos _)
  have hunit : (0 : ℚ) < 2 ^ lastBit num den := by positivity
  have hlow := two_zpow_binaryMagnitude_le hnum hden
  have hhigh := @lt_two_zpow_binaryMagnitude num den hden
  constructor
  · apply nearestNat_le hunits
    rw [Binary.scaled_eq, div_le_iff₀ hunit]
    push_cast
    have hexponent : binaryMagnitude num den + 1 ≤ 53 + lastBit num den := by
      simp only [lastBit, fractionBits]
      omega
    calc (num : ℚ) / den ≤ 2 ^ (binaryMagnitude num den + 1) := hhigh.le
      _ ≤ 2 ^ (53 + lastBit num den) := zpow_le_zpow_right₀ one_le_two hexponent
      _ = 2 ^ 53 * 2 ^ lastBit num den := by
          rw [zpow_add₀ two_ne_zero]
          norm_cast
  · intro hleast
    apply le_nearestNat hunits
    rw [Binary.scaled_eq, le_div_iff₀ hunit]
    push_cast
    have hexponent : 52 + lastBit num den = binaryMagnitude num den := by
      simp only [lastBit, fractionBits] at hleast ⊢
      omega
    calc (2 : ℚ) ^ 52 * 2 ^ lastBit num den = 2 ^ (52 + lastBit num den) := by
          rw [zpow_add₀ two_ne_zero]
          norm_cast
      _ ≤ num / den := by
          rw [hexponent]
          exact hlow

/-- A fraction is rounded to a number without sign that a double stands for. -/
theorem canonical_nearest (hden : 0 < den) (h : nearest num den = .finite b) :
    b.Canonical ∧ b.negative = false := by
  -- Zero is zero, with the least exponent.
  by_cases hnum : num = 0
  · rw [nearest, if_pos hnum] at h
    cases h
    exact ⟨⟨by decide, by decide, by decide, Or.inr rfl⟩, rfl⟩
  · obtain ⟨hle, hge⟩ := nearestNat_lastBit (Nat.pos_of_ne_zero hnum) hden
    have hleast : leastExponent ≤ lastBit num den := le_max_right _ _
    simp only [nearest, if_neg hnum] at h
    split at h
    · split at h
      · cases h
      · rename_i hgreatest
        cases h
        have hshort : twoTo fractionBits < 2 ^ 53 := by decide
        exact ⟨⟨hshort, hleast.trans (Int.le_add_one (Int.le_refl _)), not_lt.mp hgreatest,
          Or.inl (Nat.le_refl _)⟩, rfl⟩
    · rename_i hfull
      split at h
      · cases h
      · rename_i hgreatest
        cases h
        refine ⟨⟨lt_of_le_of_ne hle hfull, hleast, not_lt.mp hgreatest, ?_⟩, rfl⟩
        by_cases heq : lastBit num den = leastExponent
        · exact Or.inr heq
        · exact Or.inl (hge heq)

end Lox.Decimal
