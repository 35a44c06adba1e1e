import Lox.Number
import Lox.Proofs.Decimal.Shortest
import Lox.Proofs.Token.Respaced

/-!
# Digits and the number they denote

The digits of a number are those before the point and those behind it.  However many
zeros the layout of a decimal fills in, and wherever it puts the point, the digits denote
the decimal.  Read as a literal of the language, they give the double between whose
midpoints the decimal lies.
-/

namespace Lox.Decimal

open Lox.Number

/-- The digits before the point, and those behind it. -/
structure Figures where
  whole : List Char
  decimals : List Char

namespace Figures

/-- The text has a point only if there are digits behind it. -/
def text (figures : Figures) : List Char :=
  if figures.decimals.isEmpty then figures.whole else figures.whole ++ '.' :: figures.decimals

def value (figures : Figures) : ℚ :=
  (ofDigits (figures.whole ++ figures.decimals) : ℚ) / 10 ^ figures.decimals.length

/-- There are digits only, and at least one before the point. -/
structure Proper (figures : Figures) : Prop where
  whole_ne_nil : figures.whole ≠ []
  whole : ∀ c ∈ figures.whole, c.isDigit = true
  decimals : ∀ c ∈ figures.decimals, c.isDigit = true

end Figures

/-! ### The digits of natural numbers -/

theorem ofDigits_eq (digits : List Char) : ofDigits digits = Nat.ofDigitChars 10 digits 0 :=
  Nat.ofDigitChars_eq_foldl.symm

theorem ofDigits_append (first second : List Char) :
    ofDigits (first ++ second) = 10 ^ second.length * ofDigits first + ofDigits second := by
  rw [ofDigits_eq, Nat.ofDigitChars_append, Nat.ofDigitChars_eq_ofDigitChars_zero, ofDigits_eq,
    ofDigits_eq]

theorem ofDigits_digitsOf (n : Nat) : ofDigits (digitsOf n) = n := by
  rw [ofDigits_eq, digitsOf, Nat.ofDigitChars_ten_toDigits]

theorem ofDigits_zeros (count : Nat) : ofDigits (zeros count) = 0 := by
  rw [ofDigits_eq, zeros, Nat.ofDigitChars_replicate_zero, Nat.mul_zero]

theorem isDigit_of_mem_digitsOf {n : Nat} {c : Char} (h : c ∈ digitsOf n) : c.isDigit = true :=
  Nat.isDigit_of_mem_toDigits (by decide) (by decide) h

theorem isDigit_of_mem_zeros {count : Nat} {c : Char} (h : c ∈ zeros count) : c.isDigit = true := by
  rw [List.eq_of_mem_replicate h]
  rfl

/-! ### Layout -/

/-- The digits of a decimal that is laid out without exponent. -/
def Numeral.figures (d : Numeral) : Figures := ⟨d.positional.1, d.positional.2⟩

theorem Numeral.proper_figures (d : Numeral) : d.figures.Proper := by
  have hdigits : ∀ c ∈ digitsOf d.coefficient, c.isDigit = true :=
    fun c hc => isDigit_of_mem_digitsOf hc
  simp only [figures, positional]
  split
  · refine ⟨?_, ?_, by simp⟩
    · simp [digitsOf, Nat.toDigits_ne_nil]
    · intro c hc
      rcases List.mem_append.mp hc with hc | hc
      · exact hdigits c hc
      · exact isDigit_of_mem_zeros hc
  · split
    · rename_i hplaces
      refine ⟨?_, fun c hc => hdigits c (List.mem_of_mem_take hc),
        fun c hc => hdigits c (List.mem_of_mem_drop hc)⟩
      apply List.ne_nil_of_length_pos
      rw [List.length_take]
      omega
    · refine ⟨List.cons_ne_nil _ _, by simp, ?_⟩
      intro c hc
      rcases List.mem_append.mp hc with hc | hc
      · exact isDigit_of_mem_zeros hc
      · exact hdigits c hc

/-- The layout does not change the number. -/
theorem Numeral.value_figures (d : Numeral) : d.figures.value = d.value := by
  have hpower := toNat_pow_div 10 (by decide) d.exponent
  rw [Nat.cast_ofNat] at hpower
  push_cast at hpower
  rw [value, ← hpower]
  simp only [figures, positional]
  split
  · rename_i hplaces
    simp only [Figures.value, List.append_nil, ofDigits_append, ofDigits_digitsOf, ofDigits_zeros,
      hplaces, List.length_nil]
    simp [zeros, mul_comm]
  · rename_i hplaces
    have hup : d.exponent.toNat = 0 := by omega
    rw [hup, pow_zero, mul_one_div]
    split
    · rename_i hless
      simp only [Figures.value, List.take_append_drop, ofDigits_digitsOf, List.length_drop]
      rw [Nat.sub_sub_self (by omega)]
    · rename_i hmore
      have hlength : (zeros ((-d.exponent).toNat - (digitsOf d.coefficient).length) ++
          digitsOf d.coefficient).length = (-d.exponent).toNat := by
        rw [List.length_append, zeros, List.length_replicate]
        omega
      have hzero : ofDigits ['0'] = 0 := rfl
      simp only [Figures.value, hlength, ofDigits_append, ofDigits_zeros, ofDigits_digitsOf, hzero,
        Nat.mul_zero, Nat.zero_add]

/-! ### Reading -/

variable {figures : Figures}

theorem Figures.Proper.reads (h : figures.Proper) :
    Piece.Reads (.token .number) figures.text := by
  rw [text]
  split
  · exact .integer h.whole_ne_nil h.whole
  · rename_i hsome
    exact .fraction h.whole_ne_nil h.whole (by simpa using hsome) h.decimals

/-- The first character is a digit. -/
theorem Figures.Proper.exists_head? (h : figures.Proper) :
    ∃ c, figures.text.head? = some c ∧ c.isDigit = true := by
  obtain ⟨c, more, hwhole⟩ := List.exists_cons_of_ne_nil h.whole_ne_nil
  refine ⟨c, ?_, h.whole c (hwhole ▸ List.mem_cons_self)⟩
  rw [text, hwhole]
  split <;> rfl

theorem Figures.Proper.isDigit_or_point (h : figures.Proper) :
    ∀ c ∈ figures.text, c.isDigit = true ∨ c = '.' := by
  rw [text]
  split
  · exact fun c hc => Or.inl (h.whole c hc)
  · intro c hc
    rcases List.mem_append.mp hc with hc | hc
    · exact Or.inl (h.whole c hc)
    · rcases List.mem_cons.mp hc with hc | hc
      · exact Or.inr hc
      · exact Or.inl (h.decimals c hc)

theorem ne_point_of_isDigit {c : Char} (h : c.isDigit = true) : decide (c ≠ '.') = true := by
  apply decide_eq_true
  rintro rfl
  cases h

/-- A literal is the double nearest to the number that its digits denote. -/
theorem Figures.Proper.ofLexeme_text (h : figures.Proper) :
    ofLexeme figures.text = (nearest (ofDigits (figures.whole ++ figures.decimals))
      (tenTo figures.decimals.length)).toFloat := by
  have hrun : ∀ c ∈ figures.whole, decide (c ≠ '.') = true :=
    fun c hc => ne_point_of_isDigit (h.whole c hc)
  rw [text]
  split
  · rename_i hnone
    have hnil : figures.decimals = [] := List.isEmpty_iff.mp hnone
    have hend : Piece.StartsWith? (fun c => decide (c ≠ '.')) [] = false := rfl
    have htake := Piece.takeWhile_run hrun hend
    have hdrop := Piece.dropWhile_run hrun hend
    rw [List.append_nil] at htake hdrop
    simp only [ofLexeme, htake, hdrop, hnil, List.drop_nil]
  · have hpoint : Piece.StartsWith? (fun c => decide (c ≠ '.')) ('.' :: figures.decimals) = false :=
      rfl
    have htake := Piece.takeWhile_run hrun hpoint
    have hdrop := Piece.dropWhile_run hrun hpoint
    simp only [ofLexeme, htake, hdrop, List.drop_one, List.tail_cons]

/-- Digits that lie between the midpoints of a double are read back as this double. -/
theorem Figures.Proper.ofLexeme_eq {b : Binary} (h : figures.Proper) (hb : b.Canonical)
    (hsurrounds : b.Surrounds figures.value) :
    ofLexeme figures.text = (Reading.finite ⟨false, b.significand, b.exponent⟩).toFloat := by
  have hfraction : figures.value = (ofDigits (figures.whole ++ figures.decimals) : ℚ) /
      (tenTo figures.decimals.length : Nat) := by
    rw [value, tenTo_eq]
    push_cast
    rfl
  rw [hfraction] at hsurrounds
  rw [h.ofLexeme_text, hsurrounds.nearest_eq hb (tenTo_pos _)]

end Lox.Decimal
