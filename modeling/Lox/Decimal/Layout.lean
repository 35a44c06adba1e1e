import Lox.Decimal.Shortest

/-!
# Writing a decimal down

A chosen decimal is laid out either positionally, padded with zeros as far as
the point, or with an exponent.  What differs between the formats of this
library is one `Style`.
-/

namespace Lox.Decimal

def digitsOf (n : Nat) : List Char := Nat.toDigits 10 n

def zeros (count : Nat) : List Char := List.replicate count '0'

namespace Numeral

def leadingExponent (d : Numeral) : Int :=
  d.exponent + (digitsOf d.coefficient).length - 1

def positional (d : Numeral) : List Char × List Char :=
  let digits := digitsOf d.coefficient
  let places := (-d.exponent).toNat
  if places = 0 then
    (digits ++ zeros d.exponent.toNat, [])
  else if places < digits.length then
    (digits.take (digits.length - places), digits.drop (digits.length - places))
  else
    (['0'], zeros (places - digits.length) ++ digits)

end Numeral

structure Style where
  /-- Which of two equally near decimals is written. -/
  tie : Tie
  /-- Whether a number whose leading digit stands for this power of ten is written without exponent. -/
  isPositional : Int → Bool
  /-- What follows the digits of a whole number written without exponent. -/
  wholeEnding : String
  /-- The texts of positive infinity, negative infinity and a value that is no number. -/
  infinity : String
  negativeInfinity : String
  notANumber : String

namespace Style

/-- Digits, a point, and the digits after it; without any of those, the ending of whole numbers. -/
def pointed (style : Style) (whole fraction : List Char) : String :=
  if fraction.isEmpty then String.ofList whole ++ style.wholeEnding
  else String.ofList (whole ++ '.' :: fraction)

def scientific (d : Numeral) : String :=
  let mantissa := match digitsOf d.coefficient with
    | [] => []
    | [digit] => [digit]
    | digit :: more => digit :: '.' :: more
  let sign := if d.leadingExponent < 0 then '-' else '+'
  String.ofList (mantissa ++ 'e' :: sign :: digitsOf d.leadingExponent.natAbs)

def magnitude (style : Style) (b : Binary) : String :=
  if b.significand = 0 then style.pointed ['0'] []
  else
    let d := b.shortest style.tie
    if style.isPositional d.leadingExponent then style.pointed d.positional.1 d.positional.2
    else scientific d

def render (style : Style) (x : Float) : String :=
  match Reading.ofFloat x with
  | .notANumber => style.notANumber
  | .infinite negative => if negative then style.negativeInfinity else style.infinity
  | .finite b => (if b.negative then "-" else "") ++ style.magnitude b

end Style

end Lox.Decimal
