import Lox.Proofs.Decimal.Layout

/-!
# The texts of numbers

Whether it is the exact digits of a whole number or the shortest decimal, what `print`
writes for a finite number, and what the printed form of a tree shows for it, are digits
that denote a number between the midpoints of the double.  So either text, read as a
literal of the language, is the same double again, up to the sign.
-/

namespace Lox

open Decimal

variable {x : Float} {b : Binary} {n : Nat}

/-! ### Whole numbers -/

theorem Decimal.Binary.magnitude_eq (b : Binary) :
    b.magnitude = ((b.significand * b.scaleUp : Nat) : ℚ) / (b.scaleDown : Nat) := by
  rw [magnitude, ← scale_eq]
  push_cast
  rw [mul_div_assoc]

theorem Decimal.Binary.magnitude_nonneg (b : Binary) : 0 ≤ b.magnitude := by
  rw [magnitude]
  positivity

/-- A number is whole when its magnitude is a natural number. -/
theorem Decimal.Binary.whole?_eq_some_iff : b.whole? = some n ↔ b.magnitude = n := by
  have hdown : 0 < b.scaleDown := twoTo_pos _
  have hne : (b.scaleDown : ℚ) ≠ 0 := by exact_mod_cast hdown.ne'
  have hexact : b.magnitude = n ↔ b.significand * b.scaleUp = n * b.scaleDown := by
    rw [b.magnitude_eq, div_eq_iff hne]
    exact_mod_cast Iff.rfl
  rw [hexact, whole?]
  constructor
  · intro h
    split at h
    · rename_i hmod
      cases h
      exact (Nat.div_mul_cancel (Nat.dvd_of_mod_eq_zero hmod)).symm
    · cases h
  · intro h
    rw [h, Nat.mul_mod_left, if_pos rfl, Nat.mul_div_cancel n hdown]

theorem Decimal.Binary.magnitude_eq_zero_iff : b.magnitude = 0 ↔ b.significand = 0 := by
  have hunit : (2 : ℚ) ^ b.exponent ≠ 0 := by positivity
  rw [magnitude, mul_eq_zero, or_iff_left hunit, Nat.cast_eq_zero]

theorem Decimal.Stands.whole?_eq (h : Stands x b) : Number.whole? x = b.whole? := by
  rw [Number.whole?, h.ofFloat]

theorem Decimal.Stands.isNegative_eq (h : Stands x b) : Number.isNegative x = b.negative := by
  have hread := h.ofFloat
  simp only [Reading.ofFloat, Reading.ofBits] at hread
  split at hread
  · split at hread <;> cases hread
  · split at hread <;> cases hread <;> rfl

namespace Number

/-! ### Texts as digits -/

def minus (negative : Bool) : String := if negative then "-" else ""

theorem signed_eq (negative : Bool) (n : Nat) :
    signed negative n = minus negative ++ String.ofList (digitsOf n) := by
  rw [← String.toList_inj]
  cases negative <;> simp [signed, minus]

/-- The digits of a natural number, with as many zeros behind the point. -/
def wholeFigures (n places : Nat) : Figures := ⟨digitsOf n, zeros places⟩

theorem proper_wholeFigures (n places : Nat) : (wholeFigures n places).Proper :=
  ⟨Nat.toDigits_ne_nil, fun _ => isDigit_of_mem_digitsOf, fun _ => isDigit_of_mem_zeros⟩

theorem value_wholeFigures (n places : Nat) : (wholeFigures n places).value = n := by
  have hpower : (10 : ℚ) ^ places ≠ 0 := by positivity
  simp only [wholeFigures, Figures.value, ofDigits_append, ofDigits_digitsOf, ofDigits_zeros,
    Nat.add_zero]
  push_cast
  rw [zeros, List.length_replicate, mul_div_cancel_left₀ _ hpower]

/-- A whole number, written out, lies between its midpoints. -/
theorem surrounds_wholeFigures (hwhole : b.whole? = some n) (places : Nat) :
    b.Surrounds (wholeFigures n places).value := by
  rw [value_wholeFigures, ← Binary.whole?_eq_some_iff.mp hwhole]
  exact b.surrounds_magnitude

/-- A whole number is zero when its significand is. -/
theorem eq_zero_iff_of_whole (hwhole : b.whole? = some n) : n = 0 ↔ b.significand = 0 := by
  rw [← Binary.magnitude_eq_zero_iff, Binary.whole?_eq_some_iff.mp hwhole, Nat.cast_eq_zero]

/-- A number that is not whole is not zero. -/
theorem significand_pos_of_not_whole (h : b.whole? = none) : 0 < b.significand := by
  apply Nat.pos_of_ne_zero
  intro hzero
  have hwhole : b.whole? = some 0 := by
    rw [Binary.whole?_eq_some_iff, Nat.cast_zero, Binary.magnitude_eq_zero_iff, hzero]
  rw [hwhole] at h
  cases h

/-- The digits of the text denote a number that is rounded to this one, and the text has no others. -/
structure Writes (b : Binary) (negative : Bool) (text : String) (figures : Figures) : Prop where
  proper : figures.Proper
  surrounds : b.Surrounds figures.value
  text_eq : text = minus negative ++ String.ofList figures.text

theorem render_eq (h : Stands x b) (hpos : 0 < b.significand) :
    plainStyle.render x = minus b.negative ++ String.ofList (b.shortest .up).figures.text := by
  have hpointed : ∀ whole fraction, plainStyle.pointed whole fraction =
      String.ofList (Figures.text ⟨whole, fraction⟩) := by
    intro whole fraction
    rw [Style.pointed, Figures.text]
    split
    · exact String.append_empty
    · rfl
  rw [Style.render, h.ofFloat]
  show minus b.negative ++ plainStyle.magnitude b = _
  rw [Style.magnitude, if_neg (Nat.ne_of_gt hpos)]
  simp only [hpointed]
  rfl

/-- Written as the shortest decimal. -/
theorem writes_render (h : Stands x b) (hpos : 0 < b.significand) :
    Writes b b.negative (plainStyle.render x) (b.shortest .up).figures := by
  refine ⟨Numeral.proper_figures _, ?_, render_eq h hpos⟩
  rw [Numeral.value_figures]
  exact Binary.surrounds_shortest hpos .up

/-- What `print` writes has a sign unless the number is zero. -/
theorem exists_writes_display (h : Stands x b) :
    ∃ figures, Writes b (b.negative && b.significand ≠ 0) (display x) figures := by
  have hrender : 0 < b.significand → ∃ figures,
      Writes b (b.negative && b.significand ≠ 0) (plainStyle.render x) figures := by
    intro hpos
    have hsign : (b.negative && decide (b.significand ≠ 0)) = b.negative := by
      simp [Nat.ne_of_gt hpos]
    rw [hsign]
    exact ⟨_, writes_render h hpos⟩
  rw [display, h.whole?_eq]
  cases hwhole : b.whole? with
  | none => exact hrender (significand_pos_of_not_whole hwhole)
  | some n =>
    have hzero := eq_zero_iff_of_whole hwhole
    simp only
    split
    · refine ⟨wholeFigures n 0, proper_wholeFigures n 0, surrounds_wholeFigures hwhole 0, ?_⟩
      rw [signed_eq, h.isNegative_eq]
      simp only [ne_eq, hzero]
      rfl
    · rename_i hlarge
      apply hrender
      apply Nat.pos_of_ne_zero
      intro hsignificand
      rw [hzero.mpr hsignificand] at hlarge
      exact hlarge (twoTo_pos 63)

/-- What the printed form of a tree shows has the sign of the number. -/
theorem exists_writes_treeText (h : Stands x b) :
    ∃ figures, Writes b b.negative (treeText x) figures := by
  rw [treeText, h.whole?_eq]
  cases hwhole : b.whole? with
  | none => exact ⟨_, writes_render h (significand_pos_of_not_whole hwhole)⟩
  | some n =>
    refine ⟨wholeFigures n 1, proper_wholeFigures n 1, surrounds_wholeFigures hwhole 1, ?_⟩
    show signed (isNegative x) n ++ ".0" = _
    rw [signed_eq, h.isNegative_eq, String.append_assoc]
    congr 1
    exact String.ofList_append.symm

/-! ### Texts as literals -/

variable {negative : Bool} {text : String} {figures : Figures}

/-- The digits, read as a literal, give the double without its sign. -/
theorem Writes.ofLexeme_eq (h : Writes b negative text figures) (hx : Stands x b) :
    ofLexeme figures.text = if b.negative then -x else x := by
  rw [h.proper.ofLexeme_eq hx.canonical h.surrounds]
  split
  · rename_i hsign
    rw [← hx.neg.toFloat_eq, Binary.negated, hsign]
    rfl
  · rename_i hsign
    rw [← hx.toFloat_eq]
    obtain ⟨sign, significand, exponent⟩ := b
    cases sign
    · rfl
    · exact absurd rfl hsign

/-- A literal stands for a number without sign. -/
theorem exists_stands_ofLexeme {lexeme : List Char} (h : (ofLexeme lexeme).isFinite = true) :
    ∃ b, Stands (ofLexeme lexeme) b ∧ b.negative = false := by
  obtain ⟨b, hnearest⟩ := exists_finite_of_isFinite_toFloat h
  obtain ⟨hcanonical, hsign⟩ := canonical_nearest (tenTo_pos _) hnearest
  refine ⟨b, ?_, hsign⟩
  rw [ofLexeme, hnearest]
  exact stands_toFloat hcanonical

/-- The text that a tree shows for a finite literal is a numeral for the same double. -/
theorem exists_figures_treeText {lexeme : List Char} (h : (ofLexeme lexeme).isFinite = true) :
    ∃ figures : Figures, figures.Proper ∧
      treeText (ofLexeme lexeme) = String.ofList figures.text ∧
      ofLexeme figures.text = ofLexeme lexeme := by
  obtain ⟨b, hx, hsign⟩ := exists_stands_ofLexeme h
  obtain ⟨figures, hwrites⟩ := exists_writes_treeText hx
  refine ⟨figures, hwrites.proper, ?_, ?_⟩
  · rw [hwrites.text_eq, hsign]
    exact String.empty_append
  · rw [hwrites.ofLexeme_eq hx, hsign, if_neg Bool.false_ne_true]

end Number

end Lox
