/-!
# Double precision numbers as exact integers

A finite double is an integer times a power of two.  This module takes a double
apart into that pair and puts it together again, so that everything said about
its decimal text is integer arithmetic and involves no rounding.
-/

namespace Lox.Decimal

def twoTo (exponent : Nat) : Nat := Nat.pow 2 exponent

def tenTo (exponent : Nat) : Nat := Nat.pow 10 exponent

/-- The number `± significand · 2 ^ exponent`. -/
structure Binary where
  negative : Bool
  significand : Nat
  exponent : Int
  deriving DecidableEq, Repr

inductive Reading where
  | finite (value : Binary)
  | infinite (negative : Bool)
  | notANumber
  deriving DecidableEq, Repr

def fractionBits : Nat := 52

/-- The exponent of the last bit of the smallest doubles. -/
def leastExponent : Int := -1074

/--
Reads the three fields of a 64 bit pattern: one sign bit, eleven bits of biased
exponent, and the fraction.  A zero exponent field means that the fraction has
no leading one; the largest field is kept for the infinities and for values that
are no number.
-/
def Reading.ofBits (bits : Nat) : Reading :=
  let negative := twoTo 63 ≤ bits
  let biased := bits / twoTo fractionBits % twoTo 11
  let fraction := bits % twoTo fractionBits
  if biased = twoTo 11 - 1 then
    if fraction = 0 then .infinite negative else .notANumber
  else if biased = 0 then
    .finite ⟨negative, fraction, leastExponent⟩
  else
    .finite ⟨negative, twoTo fractionBits + fraction, leastExponent + (biased - 1 : Nat)⟩

def Reading.ofFloat (x : Float) : Reading := .ofBits x.toBits.toNat

def signBit (negative : Bool) : Nat := if negative then twoTo 63 else 0

/--
The pattern of a number whose significand has at most 53 bits: the significand is
moved up until it has 53 of them or the exponent cannot shrink any more.
-/
def Binary.toBits (b : Binary) : Nat :=
  let shift := min (fractionBits - b.significand.log2) (b.exponent - leastExponent).toNat
  let significand := b.significand * twoTo shift
  let biased := (b.exponent - leastExponent).toNat - shift + 1
  signBit b.negative +
    if significand < twoTo fractionBits then significand
    else biased * twoTo fractionBits + (significand - twoTo fractionBits)

def Reading.toBits : Reading → Nat
  | .finite value => value.toBits
  | .infinite negative => signBit negative + (twoTo 11 - 1) * twoTo fractionBits
  | .notANumber => (twoTo 12 - 1) * twoTo (fractionBits - 1)

def Reading.toFloat (reading : Reading) : Float := Float.ofBits reading.toBits.toUInt64

namespace Binary

/-- The factor two carries in the numerator of the magnitude. -/
def scaleUp (b : Binary) : Nat := twoTo b.exponent.toNat

/-- The factor two carries in the denominator of the magnitude. -/
def scaleDown (b : Binary) : Nat := twoTo (-b.exponent).toNat

def whole? (b : Binary) : Option Nat :=
  if b.significand * b.scaleUp % b.scaleDown = 0 then
    some (b.significand * b.scaleUp / b.scaleDown)
  else
    none

/--
The distance, in quarters of the last bit, down to the midpoint with the next
smaller double.  Just above a power of two the smaller neighbours lie twice as
dense, unless the exponent cannot shrink any more.
-/
def quartersBelow (b : Binary) : Nat :=
  if b.significand = twoTo fractionBits ∧ leastExponent < b.exponent then 1 else 2

end Binary

end Lox.Decimal
