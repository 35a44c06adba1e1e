import Lox.Decimal.Layout
import Lox.Decimal.Nearest

/-!
# Numbers of the language

Numbers are doubles.  They have three texts: what `print` writes, what a listing
of tokens shows, and what the printed form of a tree shows.  A fourth style is
that of a token in JSON.  The remainder is the exact one, with the sign of the
dividend.
-/

namespace Lox.Number

open Lox.Decimal

/-! ### Texts -/

/-- Never an exponent, nothing after the digits of a whole number, ties upwards. -/
def plainStyle : Style where
  tie := .up
  isPositional := fun _ => true
  wholeEnding := ""
  infinity := "inf"
  negativeInfinity := "-inf"
  notANumber := "NaN"

/-- Without exponent from `10 ^ -5` to below `10 ^ 16`; what is no finite number is `null`. -/
def jsonStyle : Style where
  tie := .toEven
  isPositional := fun e => -5 ≤ e && e < 16
  wholeEnding := ".0"
  infinity := "null"
  negativeInfinity := "null"
  notANumber := "null"

/-- Whole magnitudes below this one are written as exact integers. -/
def exactBound : Nat := twoTo 63

def whole? (x : Float) : Option Nat :=
  match Reading.ofFloat x with
  | .finite b => b.whole?
  | _ => none

def isNegative (x : Float) : Bool := twoTo 63 ≤ x.toBits.toNat

def signed (negative : Bool) (n : Nat) : String :=
  String.ofList (if negative then '-' :: digitsOf n else digitsOf n)

/-- What `print` writes: a whole number has no point, and zero has no sign. -/
def display (x : Float) : String :=
  match whole? x with
  | some n => if n < exactBound then signed (isNegative x && n ≠ 0) n else plainStyle.render x
  | none => plainStyle.render x

/-- What the listing of tokens shows: a whole number below the bound ends in `.0`. -/
def tokenText (x : Float) : String :=
  match whole? x with
  | some n =>
    if n < exactBound then signed (isNegative x && n ≠ 0) n ++ ".0" else plainStyle.render x
  | none => plainStyle.render x

/-- What the printed form of a tree shows: every whole number is exact and ends in `.0`. -/
def treeText (x : Float) : String :=
  match whole? x with
  | some n => signed (isNegative x) n ++ ".0"
  | none => plainStyle.render x

def jsonText (x : Float) : String := jsonStyle.render x

/-! Where the four texts of a number differ. -/

example : display 3.0 = "3" ∧ tokenText 3.0 = "3.0" ∧ treeText 3.0 = "3.0" := by decide +kernel

example : display 1.0e22 = "10000000000000000000000" ∧ jsonText 1.0e22 = "1e+22" := by
  decide +kernel

example : treeText 1.0e23 = "99999999999999991611392.0" ∧ jsonText 1.0e23 = "1e+23" := by
  decide +kernel

example : display (0.1 + 0.2) = "0.30000000000000004" ∧ jsonText 0.000001 = "1e-6" := by
  decide +kernel

example : display (-0.0) = "0" ∧ treeText (-0.0) = "-0.0" := by decide +kernel

/-! A decimal tie: the exact value ends in `3125`, and both `312` and `313` read back. -/

example : display (1.0 / 33554432.0) = "0.000000029802322387695313" := by decide +kernel

example : jsonText (1.0 / 33554432.0) = "2.9802322387695312e-8" := by decide +kernel

/-! ### Literals -/

def digitValue (c : Char) : Nat := c.toNat - '0'.toNat

def ofDigits (digits : List Char) : Nat :=
  digits.foldl (fun n c => 10 * n + digitValue c) 0

/-- The double nearest to digits with an optional point among them. -/
def ofLexeme (lexeme : List Char) : Float :=
  let whole := lexeme.takeWhile (· ≠ '.')
  let fraction := (lexeme.dropWhile (· ≠ '.')).drop 1
  (nearest (ofDigits (whole ++ fraction)) (tenTo fraction.length)).toFloat

/-! ### Remainder -/

/--
The remainder of magnitudes, exact because both are multiples of the smaller of
the two last bits, and with few enough bits to be a double again.
-/
def remainderOf (x y : Binary) : Binary :=
  let exponent := min x.exponent y.exponent
  let dividend := x.significand * twoTo (x.exponent - exponent).toNat
  let divisor := y.significand * twoTo (y.exponent - exponent).toNat
  ⟨x.negative, dividend % divisor, exponent⟩

/-- What the remainder of a division that truncates stands for; its sign is that of the dividend. -/
def remainderReading : Reading → Reading → Reading
  | .finite x, .finite y =>
    if y.significand = 0 then .notANumber else .finite (remainderOf x y)
  | .finite x, .infinite _ => .finite x
  | _, _ => .notANumber

def remainder (x y : Float) : Float :=
  (remainderReading (Reading.ofFloat x) (Reading.ofFloat y)).toFloat

end Lox.Number
