import Mathlib
import Lox.Decimal.Nearest

/-!
# Doubles and what they stand for

A pattern of 64 bits has three fields: a sign, eleven bits of exponent, and 52 bits of
fraction.  Unless the exponent has all its bits set, the double with this pattern is
finite, and the fields tell which number it stands for.  A finite double can be put
together again from this number, its negative stands for the number with the other sign,
two doubles that stand for one number compare equal, and a whole number of at most 63
bits is what is left when everything behind the point is cut off.
-/

namespace Lox.Decimal

open Float.Model Float.Model.UnpackedFloat

variable {s : Sign} {e : BitVec 11} {m : BitVec 52}

theorem twoTo_eq (k : Nat) : twoTo k = 2 ^ k := rfl

/-! ### The fields of a pattern -/

def isMinus : Sign → Bool
  | .negative => true
  | .positive => false

theorem toNat_packComponents (s : Sign) (e : BitVec 11) (m : BitVec 52) :
    (packComponents .binary64 s e m).toNat = signBit (isMinus s) + e.toNat * 2 ^ 52 + m.toNat := by
  have he := e.isLt
  have hm := m.isLt
  simp only [packComponents, BitVec.toNat_append]
  rw [← Nat.shiftLeft_add_eq_or_of_lt hm, ← Nat.shiftLeft_add_eq_or_of_lt he]
  cases s <;> simp [signBit, isMinus, Sign.toBitVec, twoTo_eq, Nat.shiftLeft_eq]
  omega

/-- An exponent field that is not full leaves room above it. -/
theorem toNat_succ_lt (he : e ≠ -1#11) : e.toNat + 1 < 2 ^ 11 := by
  have hlt := e.isLt
  have hne : e.toNat ≠ 2047 := by
    intro h
    apply he
    apply BitVec.eq_of_toNat_eq
    rw [h]
    rfl
  omega

/-- Every pattern has three fields. -/
theorem exists_packComponents (bits : BitVec 64) :
    ∃ s e m, bits = packComponents .binary64 s e m :=
  ⟨_, _, _, (@packComponents_unpackSign_unpackExponent_unpackMantissa .binary64 bits).symm⟩

/-! ### The number of a pattern -/

/--
The numbers that doubles stand for: the significand has at most 53 bits, and it has all of
them unless the exponent is the least one.
-/
structure Binary.Canonical (b : Binary) : Prop where
  significand_lt : b.significand < 2 ^ 53
  least : leastExponent ≤ b.exponent
  greatest : b.exponent ≤ greatestExponent
  full : 2 ^ 52 ≤ b.significand ∨ b.exponent = leastExponent

def ofFields (s : Sign) (e : BitVec 11) (m : BitVec 52) : Binary :=
  if e = 0#11 then ⟨isMinus s, m.toNat, -1074⟩
  else ⟨isMinus s, 2 ^ 52 + m.toNat, e.toNat - 1075⟩

theorem biased_packComponents (s : Sign) (e : BitVec 11) (m : BitVec 52) :
    (packComponents .binary64 s e m).toNat / twoTo fractionBits % twoTo 11 = e.toNat := by
  have helt := e.isLt
  have hmlt := m.isLt
  rw [toNat_packComponents]
  cases s <;> simp [signBit, isMinus, twoTo_eq, fractionBits] <;> omega

theorem ofBits_packComponents (he : e ≠ -1#11) :
    Reading.ofBits (packComponents .binary64 s e m).toNat = .finite (ofFields s e m) := by
  have helt := toNat_succ_lt he
  have hmlt := m.isLt
  have hsign : decide (twoTo 63 ≤ (packComponents .binary64 s e m).toNat) = isMinus s := by
    rw [toNat_packComponents]
    cases s <;> simp [signBit, isMinus, twoTo_eq] <;> omega
  have hfraction : (packComponents .binary64 s e m).toNat % twoTo fractionBits = m.toNat := by
    rw [toNat_packComponents]
    cases s <;> simp [signBit, isMinus, twoTo_eq, fractionBits] <;> omega
  have hzero : e.toNat = 0 ↔ e = 0#11 := BitVec.toNat_inj (y := 0#11)
  have hlast : e.toNat ≠ twoTo 11 - 1 := by
    simp only [twoTo_eq]
    omega
  simp only [Reading.ofBits, biased_packComponents, hfraction, hsign, if_neg hlast, ofFields,
    ← hzero]
  split
  · rfl
  · have hexponent : leastExponent + ((e.toNat - 1 : Nat) : Int) = e.toNat - 1075 := by
      simp only [leastExponent]
      omega
    rw [hexponent]
    rfl

/-- The pattern of the number with these fields has these fields. -/
theorem toBits_ofFields (he : e ≠ -1#11) :
    (ofFields s e m).toBits = (packComponents .binary64 s e m).toNat := by
  have hmlt := m.isLt
  have helt := toNat_succ_lt he
  rw [toNat_packComponents]
  by_cases hzero : e = 0#11
  · subst hzero
    simp only [ofFields, if_true, Binary.toBits, leastExponent, fractionBits, twoTo_eq]
    simp [hmlt]
  · have hpos : 0 < e.toNat := Nat.pos_of_ne_zero fun h => hzero (BitVec.eq_of_toNat_eq h)
    have hlog : (2 ^ 52 + m.toNat).log2 = 52 := by
      rw [Nat.log2_eq_iff (by omega)]
      omega
    simp only [ofFields, if_neg hzero, Binary.toBits, leastExponent, fractionBits, twoTo_eq, hlog]
    simp
    omega

/-! ### The number as arithmetic sees it -/

/-- The number in the form in which doubles are added, compared and negated. -/
def Binary.unpacked (b : Binary) : UnpackedFloat :=
  let sign := if b.negative then Sign.negative else .positive
  if h : b.significand = 0 then .zero sign
  else .finite sign b.significand b.exponent (Nat.pos_of_ne_zero h)

def Binary.negated (b : Binary) : Binary := ⟨!b.negative, b.significand, b.exponent⟩

theorem sign_isMinus (s : Sign) : (if isMinus s then Sign.negative else .positive) = s := by
  cases s <;> rfl

theorem unpacked_finite (s : Sign) {n : Nat} (k : Int) (hn : 0 < n) :
    Binary.unpacked ⟨isMinus s, n, k⟩ = .finite s n k hn := by
  simp only [Binary.unpacked, sign_isMinus, dif_neg (Nat.ne_of_gt hn)]

theorem unpacked_zero (s : Sign) (k : Int) : Binary.unpacked ⟨isMinus s, 0, k⟩ = .zero s := by
  simp only [Binary.unpacked, sign_isMinus, dite_true]

theorem unpack_packComponents (he : e ≠ -1#11) :
    UnpackedFloat.unpack .binary64 (packComponents .binary64 s e m) = (ofFields s e m).unpacked := by
  simp only [UnpackedFloat.unpack, unpackMantissa_packComponents, unpackExponent_packComponents,
    unpackSign_packComponents, Sign.ofBitVec_toBitVec, he, if_false]
  by_cases hzero : e = 0#11
  · by_cases hm : m = 0#52
    · simp [hzero, hm, ofFields, unpacked_zero]
    · have hpos : 0 < m.toNat := Nat.pos_of_ne_zero fun h => hm (BitVec.eq_of_toNat_eq h)
      simp [hzero, hm, ofFields, unpacked_finite s _ hpos, Format.exponentBias]
  · have hpos : 0 < 2 ^ 52 + m.toNat := by omega
    have hsum : (1#1 ++ m).toNat = 2 ^ 52 + m.toNat := by
      rw [BitVec.toNat_append, ← Nat.shiftLeft_add_eq_or_of_lt m.isLt]
      simp [Nat.shiftLeft_eq]
    have hexponent : (e.toNat : Int) - ((2 ^ (11 - 1) - 1 : Nat) + (52 : Nat)) = e.toNat - 1075 := by
      omega
    simp only [hzero, ofFields, if_false, unpacked_finite s _ hpos, Format.exponentBias, hsum,
      hexponent]

theorem pack_unpacked (he : e ≠ -1#11) :
    UnpackedFloat.pack .binary64 (ofFields s e m).unpacked = packComponents .binary64 s e m := by
  have hnumber : ¬ isNaNBits (packComponents .binary64 s e m) = true := by
    rw [isNaNBits, unpackExponent_packComponents, decide_eq_true_eq]
    exact fun h => he h.1
  rw [← unpack_packComponents he, pack_unpack, if_neg hnumber]

theorem neg_unpacked (b : Binary) : b.unpacked.neg = b.negated.unpacked := by
  obtain ⟨negative, n, k⟩ := b
  by_cases hn : n = 0
  · cases negative <;> simp [Binary.unpacked, Binary.negated, hn, UnpackedFloat.neg] <;> rfl
  · cases negative <;> simp [Binary.unpacked, Binary.negated, hn, UnpackedFloat.neg] <;> rfl

theorem ofFields_neg (s : Sign) (e : BitVec 11) (m : BitVec 52) :
    ofFields (-s) e m = (ofFields s e m).negated := by
  have hsign : isMinus (-s) = !isMinus s := by cases s <;> rfl
  simp only [ofFields, hsign]
  split <;> rfl

/-! ### Doubles -/

/-- The double is finite and stands for the number. -/
def Stands (x : Float) (b : Binary) : Prop :=
  ∃ s e m, e ≠ -1#11 ∧ x.toBits.toBitVec = packComponents .binary64 s e m ∧ b = ofFields s e m

variable {x y : Float} {b c : Binary}

theorem Stands.unpack_eq (h : Stands x b) : x.toModel.unpack = b.unpacked := by
  obtain ⟨s, e, m, he, hbits, rfl⟩ := h
  rw [← unpack_packComponents he, ← hbits]
  rfl

theorem Stands.ofFloat (h : Stands x b) : Reading.ofFloat x = .finite b := by
  obtain ⟨s, e, m, he, hbits, rfl⟩ := h
  rw [← ofBits_packComponents he, ← hbits]
  rfl

theorem exists_stands_of_isFinite (h : x.isFinite = true) : ∃ b, Stands x b := by
  obtain ⟨s, e, m, hbits⟩ := exists_packComponents x.toBits.toBitVec
  by_cases he : e = -1#11
  · subst he
    have hunpack : x.isFinite = (UnpackedFloat.unpack .binary64
        (packComponents .binary64 s (-1#11) m)).isFinite := by
      rw [← hbits]
      rfl
    rw [hunpack] at h
    simp only [UnpackedFloat.unpack, unpackExponent_packComponents, if_true] at h
    split at h <;> cases h
  · exact ⟨ofFields s e m, s, e, m, he, hbits, rfl⟩

/-- The double put together from the number with these fields has these fields. -/
theorem toBits_toFloat (he : e ≠ -1#11) :
    (Reading.finite (ofFields s e m)).toFloat.toBits.toBitVec = packComponents .binary64 s e m := by
  have hpattern : (Reading.finite (ofFields s e m)).toBits.toUInt64.toBitVec =
      packComponents .binary64 s e m := by
    rw [Reading.toBits, toBits_ofFields he]
    exact (BitVec.ofNat_toNat 64 _).trans (BitVec.setWidth_eq _)
  calc (Reading.finite (ofFields s e m)).toFloat.toBits.toBitVec
      = UnpackedFloat.pack .binary64 (UnpackedFloat.unpack .binary64
          (Reading.finite (ofFields s e m)).toBits.toUInt64.toBitVec) := rfl
    _ = packComponents .binary64 s e m := by
        rw [hpattern, unpack_packComponents he, pack_unpacked he]

/-- A finite double is put together again from what it stands for. -/
theorem Stands.toFloat_eq (h : Stands x b) : (Reading.finite b).toFloat = x := by
  obtain ⟨s, e, m, he, hbits, rfl⟩ := h
  exact Float.toBits_inj.mp (UInt64.toBitVec_inj.mp ((toBits_toFloat he).trans hbits.symm))

theorem Stands.neg (h : Stands x b) : Stands (-x) b.negated := by
  have hunpack := h.unpack_eq
  obtain ⟨s, e, m, he, hbits, rfl⟩ := h
  refine ⟨-s, e, m, he, ?_, (ofFields_neg s e m).symm⟩
  calc (-x).toBits.toBitVec
      = UnpackedFloat.pack .binary64 x.toModel.unpack.neg := rfl
    _ = packComponents .binary64 (-s) e m := by
        rw [hunpack, neg_unpacked, ← ofFields_neg, pack_unpacked he]

/-- Doubles that stand for the same number compare equal, whatever the sign of zero. -/
theorem Stands.beq (hx : Stands x b) (hy : Stands y c) (hsignificand : b.significand = c.significand)
    (hexponent : b.exponent = c.exponent) (hsign : b.negative = c.negative ∨ b.significand = 0) :
    (x == y) = true := by
  have hbeq : (x == y) = x.toModel.unpack.beq y.toModel.unpack := rfl
  rw [hbeq, hx.unpack_eq, hy.unpack_eq]
  obtain ⟨negative, n, k⟩ := b
  obtain ⟨negative', n', k'⟩ := c
  simp only at hsignificand hexponent hsign
  subst hsignificand hexponent
  by_cases hn : n = 0
  · simp [Binary.unpacked, hn, UnpackedFloat.beq, UnpackedFloat.compare]
  · obtain rfl : negative = negative' := hsign.resolve_right hn
    cases negative <;>
      simp [Binary.unpacked, hn, UnpackedFloat.beq, UnpackedFloat.compare]

theorem Stands.canonical (h : Stands x b) : b.Canonical := by
  obtain ⟨s, e, m, he, -, rfl⟩ := h
  have hmlt : m.toNat < 2 ^ 52 := m.isLt
  have helt := toNat_succ_lt he
  by_cases hzero : e = 0#11
  · simp only [ofFields, hzero, if_true]
    exact ⟨hmlt.trans (by decide), Int.le_refl _, by simp only [greatestExponent]; omega, Or.inr rfl⟩
  · have hpos : 0 < e.toNat := Nat.pos_of_ne_zero fun h => hzero (BitVec.eq_of_toNat_eq h)
    simp only [ofFields, hzero, if_false]
    refine ⟨?_, ?_, ?_, Or.inl ?_⟩ <;> simp only [leastExponent, greatestExponent] <;> omega

/-- A number with a significand of the right length has fields. -/
theorem exists_fields_of_canonical (hb : b.Canonical) :
    ∃ s e m, e ≠ -1#11 ∧ b = ofFields s e m := by
  obtain ⟨negative, n, k⟩ := b
  obtain ⟨hlt, hleast, hgreatest, hfull⟩ := hb
  simp only [leastExponent, greatestExponent] at hlt hleast hgreatest hfull
  have hsign : isMinus (if negative then .negative else .positive) = negative := by
    cases negative <;> rfl
  by_cases hshort : n < 2 ^ 52
  · have hexponent : k = -1074 := hfull.resolve_left (Nat.not_le.mpr hshort)
    refine ⟨if negative then .negative else .positive, 0#11, BitVec.ofNat 52 n, by decide, ?_⟩
    simp only [ofFields, if_true, hsign, BitVec.toNat_ofNat, Nat.mod_eq_of_lt hshort, hexponent]
  · have hbiased : (k + 1075).toNat < 2 ^ 11 := by omega
    have hfield : (BitVec.ofNat 11 (k + 1075).toNat).toNat = (k + 1075).toNat := by
      rw [BitVec.toNat_ofNat, Nat.mod_eq_of_lt hbiased]
    have hfraction : (BitVec.ofNat 52 (n - 2 ^ 52)).toNat = n - 2 ^ 52 := by
      rw [BitVec.toNat_ofNat, Nat.mod_eq_of_lt (by omega)]
    have hzero : BitVec.ofNat 11 (k + 1075).toNat ≠ 0#11 := by
      intro h
      have := congrArg BitVec.toNat h
      rw [hfield, BitVec.toNat_ofNat] at this
      omega
    refine ⟨if negative then .negative else .positive, BitVec.ofNat 11 (k + 1075).toNat,
      BitVec.ofNat 52 (n - 2 ^ 52), ?_, ?_⟩
    · intro h
      have hlast : (-1#11).toNat = 2047 := rfl
      have := congrArg BitVec.toNat h
      rw [hfield, hlast] at this
      omega
    · rw [ofFields, if_neg hzero, hsign, hfield, hfraction, Nat.add_sub_cancel' (by omega)]
      have hexponent : k = ((k + 1075).toNat : Int) - 1075 := by omega
      rw [← hexponent]

/-- The double put together from such a number stands for it. -/
theorem stands_toFloat (hb : b.Canonical) : Stands (Reading.finite b).toFloat b := by
  obtain ⟨s, e, m, he, rfl⟩ := exists_fields_of_canonical hb
  exact ⟨s, e, m, he, toBits_toFloat he, rfl⟩

/-- What is put together to a finite double is a finite number. -/
theorem exists_finite_of_isFinite_toFloat {reading : Reading}
    (h : reading.toFloat.isFinite = true) : ∃ b, reading = .finite b := by
  have hinfinite : ∀ negative, (Reading.infinite negative).toFloat.isFinite = false := by
    decide +kernel
  have hnone : Reading.notANumber.toFloat.isFinite = false := by decide +kernel
  cases reading with
  | finite b => exact ⟨b, rfl⟩
  | infinite negative =>
    rw [hinfinite] at h
    cases h
  | notANumber =>
    rw [hnone] at h
    cases h

/-! ### The whole part -/

theorem mantissa_shiftRight (em : ExtendedMantissa) (k : Nat) :
    (em >>> k).mantissa = em.mantissa / 2 ^ k := by
  induction k generalizing em with
  | zero => exact (Nat.div_one em.mantissa).symm
  | succ k ih =>
    calc (em >>> (k + 1)).mantissa = (em >>> k).mantissa / 2 := rfl
      _ = em.mantissa / 2 ^ (k + 1) := by rw [ih, Nat.div_div_eq_div_mul, ← Nat.pow_succ]

/-- What is behind the point is cut off. -/
theorem roundToInt_eq (s : Sign) (n : Nat) (k : Int) :
    roundToInt s n k = s.apply ((n * 2 ^ k.toNat / 2 ^ (-k).toNat : Nat) : Int) := by
  have hdown : (0 - (k - (k.toNat : Int))).toNat = (-k).toNat := by omega
  simp only [roundToInt, decreaseExponent, shiftToExponent, Int.sub_zero, hdown,
    mantissa_shiftRight, ExtendedMantissa.ofMantissaAndAccuracy, Nat.shiftLeft_eq]

/-- A whole number of at most 63 bits is its own whole part. -/
theorem Stands.toInt64_eq {n : Nat} (h : Stands x b) (hwhole : b.whole? = some n)
    (hn : n < 2 ^ 63) : x.toModel.toInt64.toInt = if b.negative then -(n : Int) else n := by
  have hquotient : b.significand * 2 ^ b.exponent.toNat / 2 ^ (-b.exponent).toNat = n := by
    simp only [Binary.whole?] at hwhole
    split at hwhole
    · exact Option.some.inj hwhole
    · cases hwhole
  have hint : x.toModel.unpack.toInt Int64.minValue.toInt Int64.maxValue.toInt =
      if b.negative then -(n : Int) else n := by
    rw [h.unpack_eq]
    by_cases hzero : b.significand = 0
    · have : n = 0 := by simp [← hquotient, hzero]
      simp [Binary.unpacked, hzero, UnpackedFloat.toInt, this]
    · simp only [Binary.unpacked, hzero, dite_false, UnpackedFloat.toInt, roundToInt_eq, hquotient]
      cases b.negative <;> rfl
  have hleast : Int64.minValue.toInt = -2 ^ 63 := rfl
  have hgreatest : Int64.maxValue.toInt = 2 ^ 63 - 1 := rfl
  calc x.toModel.toInt64.toInt
      = (Int64.ofIntClamp (x.toModel.unpack.toInt Int64.minValue.toInt Int64.maxValue.toInt)).toInt :=
        rfl
    _ = if b.negative then -(n : Int) else n := by
        rw [hint]
        apply Int64.toInt_ofIntClamp
        · split <;> omega
        · split <;> omega

end Lox.Decimal
