import Lox.Decimal.Binary

/-!
# The shortest decimal that reads back

Of all decimals that round to a given double, the printed one has the fewest
digits, and among those it is the nearest to the exact value.  A decimal rounds
to the double when it lies between the midpoints with the two neighbouring
doubles, the midpoints themselves counting when the significand is even.

The search walks from coarse to fine powers of ten.  On each grid only the two
points next to the exact value can be the nearest ones, so these two are tested,
and the first grid on which one of them passes has the fewest digits.
-/

namespace Lox.Decimal

inductive Tie where
  | up
  | toEven
  deriving DecidableEq, Repr

/-- The number `coefficient · 10 ^ exponent`. -/
structure Numeral where
  coefficient : Nat
  exponent : Int
  deriving DecidableEq, Repr

namespace Binary

/--
`count` units of the last bit, measured in units of `10 ^ p` and multiplied by
`unit b p`: the numerator over the common denominator.
-/
def measure (b : Binary) (p : Int) (count : Nat) : Nat :=
  count * b.scaleUp * tenTo (-p).toNat

/-- The common denominator of all measures on the grid of `10 ^ p`. -/
def unit (b : Binary) (p : Int) : Nat := b.scaleDown * tenTo p.toNat

/-- Whether `d · 10 ^ p` rounds to the magnitude of `b`. -/
def readsBack (b : Binary) (p : Int) (d : Nat) : Bool :=
  let low := b.measure p (4 * b.significand - b.quartersBelow)
  let high := b.measure p (4 * b.significand + 2)
  let point := 4 * d * b.unit p
  if b.significand % 2 = 0 then low ≤ point && point ≤ high
  else low < point && point < high

/-- The nearest point of the grid of `10 ^ p` that rounds to `b`, if there is one. -/
def nearestOnGrid (b : Binary) (tie : Tie) (p : Int) : Option Nat :=
  let value := b.measure p b.significand
  let below := value / b.unit p
  let rest := value % b.unit p
  match b.readsBack p below, b.readsBack p (below + 1) with
  | true, true =>
    match compare (2 * rest) (b.unit p), tie with
    | .lt, _ => some below
    | .gt, _ => some (below + 1)
    | .eq, .up => some (below + 1)
    | .eq, .toEven => some (if below % 2 = 0 then below else below + 1)
  | true, false => some below
  | false, true => some (below + 1)
  | false, false => none

/-- A power of ten too coarse for any of its multiples to round to `b`. -/
def coarsestGrid (b : Binary) : Int :=
  (b.significand.log2 + b.exponent + 2) * 30103 / 100000 + 2

/-- The power of ten of which the magnitude of `b` is a multiple. -/
def exactGrid (b : Binary) : Int := min b.exponent 0

def exact (b : Binary) : Numeral :=
  ⟨b.measure b.exactGrid b.significand / b.unit b.exactGrid, b.exactGrid⟩

/-- Tries `count` grids downwards from that of `10 ^ p`. -/
def searchGrids (b : Binary) (tie : Tie) (p : Int) : Nat → Option Numeral
  | 0 => none
  | count + 1 =>
    match b.nearestOnGrid tie p with
    | some d => some ⟨d, p⟩
    | none => searchGrids b tie (p - 1) count

/-- The shortest decimal that rounds to the magnitude of `b`, zero excepted. -/
def shortest (b : Binary) (tie : Tie) : Numeral :=
  let grids := (b.coarsestGrid - b.exactGrid).toNat + 1
  (b.searchGrids tie b.coarsestGrid grids).getD b.exact

end Binary

end Lox.Decimal
