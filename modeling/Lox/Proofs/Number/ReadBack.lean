import Lox.Proofs.Number.Texts
import Lox.Token.Item
import Lox.Value

/-!
# Printed numbers are read back

What `print` writes for a finite number is a numeral of the language, with a minus sign
in front of it if the number is below zero.  The numeral denotes the number again.  A
whole number of at most 63 bits is written with exactly its own digits.
-/

namespace Lox

open Decimal

variable {x : Float} {b : Binary}

/-! ### A number as a source -/

/-- A numeral stays on its line. -/
theorem Decimal.Figures.Proper.count_newline {figures : Figures} (h : figures.Proper) :
    figures.text.count '\n' = 0 := by
  rw [List.count_eq_zero]
  intro hmem
  rcases h.isDigit_or_point _ hmem with hdigit | hpoint
  · cases hdigit
  · cases hpoint

namespace Item

/-- A numeral at the end of a line. -/
theorem ofPieces_numeral {figures : Figures} (h : figures.Proper) {progress : Progress}
    (hcrossed : progress.crossed = false) :
    ofPieces progress (Piece.divide figures.text) =
      [.token ⟨.number, String.ofList figures.text, progress.line⟩,
        .token (.suppliedSemicolon progress.line), .token (.endOfInput progress.line)] := by
  have hend : Piece.AtSpace [] := Or.inl rfl
  have hdivide := h.reads.divide_append hend
  rw [List.append_nil, Piece.divide] at hdivide
  have hbreaks : Piece.lineBreaks ⟨.token .number, figures.text⟩ = 0 := h.count_newline
  rw [hdivide]
  simp only [ofPieces, Progress.emit, Progress.advance, Progress.semicolonIfCrossed, hcrossed,
    hbreaks, Progress.semicolon, Nat.add_zero]
  rfl

/-- A numeral as a whole source, with or without a minus sign in front of it. -/
theorem scan_numeral {figures : Figures} (h : figures.Proper) (negative : Bool) :
    scan (Number.minus negative ++ String.ofList figures.text) =
      (if negative then [.token ⟨.minus, "-", 1⟩] else []) ++
        [.token ⟨.number, String.ofList figures.text, 1⟩, .token (.suppliedSemicolon 1),
          .token (.endOfInput 1)] := by
  cases negative
  · simp only [scan, Number.minus, String.toList_append, String.toList_ofList]
    exact ofPieces_numeral h rfl
  · have hdivide : Piece.divide ('-' :: figures.text) =
        ⟨.token .minus, ['-']⟩ :: Piece.divide figures.text := Piece.divide_cons '-' figures.text
    have hlist : (Number.minus true ++ String.ofList figures.text).toList = '-' :: figures.text := by
      simp [Number.minus]
    rw [scan, hlist, hdivide, ofPieces]
    congr 1
    exact ofPieces_numeral h rfl

end Item

namespace Number

/-- A text starts with a minus sign if it has one: digits do not start with it. -/
theorem head?_minus_append {figures : Figures} (h : figures.Proper) (negative : Bool) :
    (minus negative ++ String.ofList figures.text).toList.head? = some '-' ↔ negative = true := by
  obtain ⟨c, hhead, hdigit⟩ := h.exists_head?
  have hne : c ≠ '-' := by
    rintro rfl
    cases hdigit
  rw [String.toList_append, String.toList_ofList]
  cases negative
  · simp [minus, hhead, hne]
  · simp [minus]

/-- A numeral with its sign denotes the double; a zero denotes it without its sign. -/
theorem Writes.beq {figures : Figures} {text : String}
    (h : Writes b (b.negative && b.significand ≠ 0) text figures) (hx : Stands x b) :
    ((if b.negative && b.significand ≠ 0 then -ofLexeme figures.text else ofLexeme figures.text)
      == x) = true := by
  rw [h.ofLexeme_eq hx]
  by_cases hsign : b.negative = true
  · by_cases hzero : b.significand = 0
    · simp only [hsign, hzero, ne_eq, not_true, decide_false, Bool.and_false, Bool.false_eq_true,
        if_true, if_false]
      exact hx.neg.beq hx rfl rfl (Or.inr hzero)
    · simp only [hsign, hzero, ne_eq, not_false_eq_true, decide_true, Bool.and_true, if_true]
      exact hx.neg.neg.beq hx rfl rfl (Or.inl (Bool.not_not _))
  · simp only [hsign, Bool.false_and, Bool.false_eq_true, if_false]
    exact hx.beq hx rfl rfl (Or.inl rfl)

/-! ### Whole numbers -/

/-- The sign and the magnitude of a whole number; zero can have either sign. -/
theorem natAbs_of_value {k : ℤ} (h : b.value = k) :
    b.magnitude = (k.natAbs : ℕ) ∧ (k = if b.negative then -(k.natAbs : ℤ) else k.natAbs) := by
  have hnonneg := b.magnitude_nonneg
  rw [Binary.value] at h
  split at h
  · rename_i hsign
    have hk : k ≤ 0 := by
      have : (k : ℚ) ≤ 0 := by linarith
      exact_mod_cast this
    have habs : (k.natAbs : ℤ) = -k := by omega
    have hcast : ((k.natAbs : ℤ) : ℚ) = -k := by exact_mod_cast habs
    rw [Int.cast_natCast] at hcast
    exact ⟨by linarith, by rw [if_pos hsign]; omega⟩
  · rename_i hsign
    have hk : 0 ≤ k := by
      have : (0 : ℚ) ≤ k := by linarith
      exact_mod_cast this
    have habs : (k.natAbs : ℤ) = k := by omega
    have hcast : ((k.natAbs : ℤ) : ℚ) = k := by exact_mod_cast habs
    rw [Int.cast_natCast] at hcast
    exact ⟨by linarith, by rw [if_neg hsign]; omega⟩

/-- A minus sign and digits are the text of an integer, without a sign for zero. -/
theorem signed_natAbs {negative : Bool} {k : ℤ}
    (h : k = if negative then -(k.natAbs : ℤ) else k.natAbs) :
    signed (negative && k.natAbs ≠ 0) k.natAbs = toString k := by
  rw [Int.toString_eq_repr, Int.repr_eq_if, signed_eq, digitsOf, ← Nat.repr_eq_ofList_toDigits]
  by_cases hk : 0 ≤ k
  · have hsign : (negative && decide (k.natAbs ≠ 0)) = false := by
      cases negative
      · rfl
      · rw [if_pos rfl] at h
        simp only [Bool.true_and, decide_eq_false_iff_not, not_not]
        omega
    have hnat : k.natAbs = k.toNat := by omega
    rw [hsign, if_pos hk, hnat]
    exact String.empty_append
  · have hsign : (negative && decide (k.natAbs ≠ 0)) = true := by
      cases negative
      · rw [if_neg Bool.false_ne_true] at h
        omega
      · simp only [Bool.true_and, decide_eq_true_eq]
        omega
    have hnat : k.natAbs = (-k).toNat := by omega
    rw [hsign, if_neg hk, hnat]
    rfl

/-- A whole number of at most 63 bits is written with its own digits, and the cast keeps it. -/
theorem display_whole (h : Stands x b) {k : ℤ} (hvalue : b.value = k) (hk : k.natAbs < 2 ^ 63) :
    display x = toString k ∧ x.toModel.toInt64.toInt = k := by
  obtain ⟨hmagnitude, hsign⟩ := natAbs_of_value hvalue
  have hwhole : b.whole? = some k.natAbs := Binary.whole?_eq_some_iff.mpr hmagnitude
  constructor
  · rw [display, h.whole?_eq, hwhole, h.isNegative_eq]
    exact (if_pos hk).trans (signed_natAbs hsign)
  · rw [h.toInt64_eq hwhole hk]
    exact hsign.symm

/--
What `print` writes for a finite number is scanned as one numeral, behind one minus sign if
the text starts with one, and the number that this denotes is equal to the printed one.  A
whole number of at most 63 bits is written with its own digits; it is not changed by a
conversion to a 64 bit integer.
-/
theorem display_reads_back (x : Float) (hfinite : x.isFinite = true) :
    (∃ (negative : Bool) (lexeme : String) (v : Float),
      (Value.number x).display = (if negative then "-" else "") ++ lexeme ∧
      ((Value.number x).display.toList.head? = some '-' ↔ negative = true) ∧
      Item.scan (Value.number x).display =
        (if negative then [.token ⟨.minus, "-", 1⟩] else []) ++
          [.token ⟨.number, lexeme, 1⟩, .token (.suppliedSemicolon 1), .token (.endOfInput 1)] ∧
      Token.literal? ⟨.number, lexeme, 1⟩ = some (.number v) ∧
      (Value.number (if negative then -v else v)).equals (.number x) = true) ∧
    ∃ b, Reading.ofFloat x = .finite b ∧ ∀ k : ℤ, b.value = k → k.natAbs < 2 ^ 63 →
      (Value.number x).display = toString k ∧ x.toModel.toInt64.toInt = k := by
  obtain ⟨b, hx⟩ := exists_stands_of_isFinite hfinite
  constructor
  · obtain ⟨figures, hwrites⟩ := exists_writes_display hx
    refine ⟨b.negative && b.significand ≠ 0, String.ofList figures.text, ofLexeme figures.text,
      hwrites.text_eq, ?_, ?_, ?_, hwrites.beq hx⟩
    · rw [Value.display, hwrites.text_eq]
      exact head?_minus_append hwrites.proper _
    · rw [Value.display, hwrites.text_eq]
      exact Item.scan_numeral hwrites.proper _
    · rw [Token.literal?, String.toList_ofList]
  · exact ⟨b, hx.ofFloat, fun k hvalue hk => display_whole hx hvalue hk⟩

/-- A sum that is not whole, and a whole number below zero. -/
theorem sumAndPower_read_back :
    ((-(0.1 + 0.2) : Float).isFinite = true ∧
      ∃ (negative : Bool) (lexeme : String) (v : Float),
        (Value.number (-(0.1 + 0.2))).display = (if negative then "-" else "") ++ lexeme ∧
        ((Value.number (-(0.1 + 0.2))).display.toList.head? = some '-' ↔ negative = true) ∧
        Item.scan (Value.number (-(0.1 + 0.2))).display =
          (if negative then [.token ⟨.minus, "-", 1⟩] else []) ++
            [.token ⟨.number, lexeme, 1⟩, .token (.suppliedSemicolon 1), .token (.endOfInput 1)] ∧
        Token.literal? ⟨.number, lexeme, 1⟩ = some (.number v) ∧
        (Value.number (if negative then -v else v)).equals (.number (-(0.1 + 0.2))) = true) ∧
    ((-4096.0 : Float).isFinite = true ∧
      Reading.ofFloat (-4096.0) = .finite ⟨true, 2 ^ 52, -40⟩ ∧
      Binary.value ⟨true, 2 ^ 52, -40⟩ = (-4096 : ℤ) ∧
      (Value.number (-4096.0)).display = toString (-4096 : ℤ) ∧
      (-4096.0 : Float).toModel.toInt64.toInt = -4096) := by
  have hsum : (-(0.1 + 0.2) : Float).isFinite = true := by decide +kernel
  have hpower : (-4096.0 : Float).isFinite = true := by decide +kernel
  have hread : Reading.ofFloat (-4096.0) = .finite ⟨true, 2 ^ 52, -40⟩ := by decide +kernel
  have hvalue : Binary.value ⟨true, 2 ^ 52, -40⟩ = (-4096 : ℤ) := by
    norm_num [Binary.value, Binary.magnitude]
  obtain ⟨b, hb, hwhole⟩ := (display_reads_back _ hpower).2
  obtain rfl : b = ⟨true, 2 ^ 52, -40⟩ := Reading.finite.inj (hb.symm.trans hread)
  exact ⟨⟨hsum, (display_reads_back _ hsum).1⟩, hpower, hread, hvalue,
    hwhole (-4096) hvalue (by decide)⟩

end Number

end Lox
