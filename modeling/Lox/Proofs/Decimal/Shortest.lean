import Lox.Decimal.Shortest
import Lox.Proofs.Decimal.Rounding

/-!
# The shortest decimal is rounded back

The search for the shortest decimal compares multiples of a power of ten with the two
midpoints, all of them measured in one unit.  A decimal that passes this comparison lies
between the midpoints, and is rounded back to the double therefore.  When no grid has a
decimal that passes, the number itself is written out on the grid of which it is a
multiple.
-/

namespace Lox.Decimal

def Numeral.value (d : Numeral) : ℚ := d.coefficient * 10 ^ d.exponent

theorem tenTo_eq (k : Nat) : tenTo k = 10 ^ k := rfl

theorem tenTo_zero : tenTo 0 = 1 := rfl

theorem tenTo_pos (k : Nat) : 0 < tenTo k := Nat.pow_pos (by decide)

namespace Binary

variable {b : Binary} {tie : Tie} {p : Int} {d : Nat}

/-! ### Measuring -/

theorem unit_pos (b : Binary) (p : Int) : 0 < b.unit p := Nat.mul_pos (twoTo_pos _) (tenTo_pos _)

/-- A measure over the common denominator is the number of units on the grid. -/
theorem measure_div_unit (b : Binary) (p : Int) (count : Nat) :
    (b.measure p count : ℚ) / b.unit p = count * 2 ^ b.exponent / 10 ^ p := by
  have hscale := scale_eq b
  have hgrid := toNat_pow_div 10 (by decide) p
  rw [Nat.cast_ofNat] at hgrid
  rw [← hscale, ← hgrid, measure, unit, tenTo_eq, tenTo_eq]
  push_cast
  rw [div_div_eq_mul_div, mul_div_assoc', div_mul_eq_mul_div, div_div]

/-- A point of the grid above so many units of the last bit. -/
theorem measure_le_iff {count n : Nat} :
    b.measure p count ≤ n * b.unit p ↔ (count : ℚ) * 2 ^ b.exponent ≤ n * 10 ^ p := by
  have hunit : (0 : ℚ) < b.unit p := by exact_mod_cast b.unit_pos p
  have hgrid : (0 : ℚ) < 10 ^ p := by positivity
  rw [← div_le_iff₀ hgrid, ← measure_div_unit, div_le_iff₀ hunit]
  exact_mod_cast Iff.rfl

/-- A point of the grid below so many units of the last bit. -/
theorem le_measure_iff {count n : Nat} :
    n * b.unit p ≤ b.measure p count ↔ (n : ℚ) * 10 ^ p ≤ count * 2 ^ b.exponent := by
  have hunit : (0 : ℚ) < b.unit p := by exact_mod_cast b.unit_pos p
  have hgrid : (0 : ℚ) < 10 ^ p := by positivity
  rw [← le_div_iff₀ hgrid, ← measure_div_unit, le_div_iff₀ hunit]
  exact_mod_cast Iff.rfl

/-- The test of a point of the grid is that it lies between the midpoints. -/
theorem surrounds_of_readsBack (hpos : 0 < b.significand) (h : b.readsBack p d = true) :
    b.Surrounds (d * 10 ^ p) := by
  have hquarters : b.quartersBelow ≤ 4 * b.significand := b.quartersBelow_le.trans (by omega)
  simp only [readsBack] at h
  split at h
  · rename_i heven
    simp only [Bool.and_eq_true, decide_eq_true_eq, measure_le_iff, le_measure_iff] at h
    push_cast [hquarters] at h
    exact ⟨by rw [low]; linarith, by rw [high]; linarith, Or.inl heven⟩
  · simp only [Bool.and_eq_true, decide_eq_true_eq, ← not_le, measure_le_iff, le_measure_iff] at h
    push_cast [hquarters] at h
    simp only [not_le] at h
    have hlow : b.low < d * 10 ^ p := by
      rw [low]
      linarith
    have hhigh : d * 10 ^ p < b.high := by
      rw [high]
      linarith
    exact ⟨hlow.le, hhigh.le, Or.inr ⟨hlow, hhigh⟩⟩

/-! ### Searching -/

theorem readsBack_of_nearestOnGrid (h : b.nearestOnGrid tie p = some d) :
    b.readsBack p d = true := by
  simp only [nearestOnGrid] at h
  split at h
  · rename_i hbelow habove
    split at h <;> cases h
    · exact hbelow
    · exact habove
    · exact habove
    · split <;> assumption
  · rename_i hbelow habove
    cases h
    exact hbelow
  · rename_i hbelow habove
    cases h
    exact habove
  · cases h

theorem readsBack_of_searchGrids {count : Nat} {d : Numeral}
    (h : b.searchGrids tie p count = some d) : b.readsBack d.exponent d.coefficient = true := by
  induction count generalizing p with
  | zero => cases h
  | succ count ih =>
    rw [searchGrids] at h
    split at h
    · rename_i hgrid
      cases h
      exact readsBack_of_nearestOnGrid hgrid
    · exact ih h

/-! ### The decimal that is written -/

/-- A number lies between its own midpoints. -/
theorem surrounds_magnitude (b : Binary) : b.Surrounds b.magnitude := by
  have hunit : (0 : ℚ) < 2 ^ b.exponent := by positivity
  have hquarters : (0 : ℚ) < b.quartersBelow := by exact_mod_cast b.quartersBelow_pos
  have hlow : b.low < b.magnitude := by
    simp only [low, magnitude]
    gcongr
    linarith
  have hhigh : b.magnitude < b.high := by
    simp only [high, magnitude]
    gcongr
    linarith
  exact ⟨hlow.le, hhigh.le, Or.inr ⟨hlow, hhigh⟩⟩

/-- On the grid of its own exponent the magnitude is written out exactly. -/
theorem value_exact (b : Binary) : b.exact.value = b.magnitude := by
  have hgrid : (0 : ℚ) < 10 ^ b.exactGrid := by positivity
  have hunit : (b.unit b.exactGrid : ℚ) ≠ 0 := by exact_mod_cast (b.unit_pos _).ne'
  have hdvd : b.unit b.exactGrid ∣ b.measure b.exactGrid b.significand := by
    have hup : b.exactGrid.toNat = 0 := by
      simp only [exactGrid]
      omega
    have hdown : (-b.exactGrid).toNat = (-b.exponent).toNat := by
      simp only [exactGrid]
      omega
    rw [unit, measure, scaleDown, hup, hdown, tenTo_zero, mul_one]
    apply Dvd.dvd.mul_left
    exact pow_dvd_pow_of_dvd (by decide : 2 ∣ 10) (-b.exponent).toNat
  simp only [Numeral.value, exact, magnitude]
  rw [Nat.cast_div hdvd hunit, measure_div_unit, div_mul_cancel₀ _ hgrid.ne']

/-- The decimal that is written for a number rounds to it. -/
theorem surrounds_shortest (hpos : 0 < b.significand) (tie : Tie) :
    b.Surrounds (b.shortest tie).value := by
  simp only [shortest]
  cases hsearch : b.searchGrids tie b.coarsestGrid ((b.coarsestGrid - b.exactGrid).toNat + 1) with
  | none =>
    rw [Option.getD_none, value_exact]
    exact b.surrounds_magnitude
  | some d => exact surrounds_of_readsBack hpos (readsBack_of_searchGrids hsearch)

end Binary

end Lox.Decimal
