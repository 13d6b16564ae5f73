/-
# PegMachine.Decimal.Shortest — the fewest digits that read back

Every real in a small interval around a double rounds to that double; the ends
belong to the interval iff the significand is even. `shortest` writes the double
with as few digits as possible: for one digit, two digits and so on it looks at
the two neighbours of the value on the decimal grid with that many digits, and
the first grid with a neighbour inside the interval wins. Of two the nearer is
taken, of two equally near the upper. Seventeen digits always suffice.

All comparisons are between naturals: a decimal `count · 10 ^ place` is compared
with the value by cross-multiplication.
-/
import PegMachine.Decimal.Digits

namespace PegMachine.Decimal

set_option autoImplicit false

/-- A decimal `0.d₁d₂… · 10 ^ point`, its digits as one natural number. -/
structure Scientific where
  digits : List Char
  point : Int
  deriving DecidableEq, Repr

/-- A positive value `num / den` together with the interval of reals that round to it:
`num - below` to `num + above`, over the same denominator. -/
structure Target where
  num : Nat
  den : Nat
  below : Nat
  above : Nat
  closed : Bool

/-- The interval of a double with the given significand and exponent, in quarters of a
unit in the last place. The gap below a power of two is half as wide, except at the
bottom of the exponent range. -/
def Target.ofDouble (significand : Nat) (exponent : Int) (hidden : Nat) (least : Int) : Target :=
  let half := significand = hidden ∧ least < exponent
  let quarter := exponent - 2
  let scale := 1 <<< quarter.toNat
  { num := 4 * significand * scale
    den := 1 <<< (-quarter).toNat
    below := if half then scale else 2 * scale
    above := 2 * scale
    closed := significand % 2 = 0 }

/-- A decimal exponent as a pair of factors: one for the value, one for the grid. -/
structure Grid where
  /-- The value is multiplied by this. -/
  up : Nat
  /-- The denominator is multiplied by this. -/
  down : Nat

/-- The grid of multiples of `10 ^ place`. -/
def Grid.ofPlace (place : Int) : Grid := ⟨Nat.pow 10 (-place).toNat, Nat.pow 10 place.toNat⟩

/-- Whether `count` steps of the grid lie in the interval. -/
def Target.admits (t : Target) (g : Grid) (count : Nat) : Bool :=
  let point := count * g.down * t.den
  let low := (t.num - t.below) * g.up
  let high := (t.num + t.above) * g.up
  if t.closed then low ≤ point && point ≤ high else low < point && point < high

/-- The value in steps of the grid, rounded down. -/
def Target.floor (t : Target) (g : Grid) : Nat := t.num * g.up / (t.den * g.down)

/-- Whether the upper neighbour on the grid is at least as near as the lower. -/
def Target.nearerAbove (t : Target) (g : Grid) : Bool :=
  t.den * g.down ≤ 2 * (t.num * g.up % (t.den * g.down))

/-- The best neighbour of the value on a grid, if one lies in the interval. -/
def Target.neighbour? (t : Target) (g : Grid) : Option Nat :=
  let lower := t.floor g
  let upper := lower + 1
  match t.admits g lower, t.admits g upper with
  | true, true => some (if t.nearerAbove g then upper else lower)
  | true, false => some lower
  | false, true => some upper
  | false, false => none

/-- The place of the decimal point: `10 ^ (point - 1) ≤ num / den < 10 ^ point`, for
values of at least `10 ^ -400`. -/
def Target.point (t : Target) : Int :=
  (digitCount (t.num * Nat.pow 10 400 / t.den) : Int) - 400

/-- Try grids of more and more digits; `tries` bounds the search. -/
def Target.search (t : Target) (point : Int) : Nat → Nat → Nat × Int
  | 0, used => (t.floor (.ofPlace (point - used)), point - used)
  | tries + 1, used =>
    match t.neighbour? (.ofPlace (point - used)) with
    | some count => (count, point - used)
    | none => Target.search t point tries (used + 1)

/-- Digits without the zeros at their end. -/
def withoutTrailingZeros (text : List Char) : List Char :=
  (text.reverse.dropWhile (· = '0')).reverse

/-- The fewest digits inside the interval. -/
def Target.shortest (t : Target) : Scientific :=
  let (count, place) := t.search t.point 17 1
  let written := digits count
  ⟨withoutTrailingZeros written, written.length + place⟩

end PegMachine.Decimal
