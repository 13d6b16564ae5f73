/-
# PegMachine.Decimal.Binary64 — binary floating point, exactly

A finite double is a whole number of units in the last place: `decode` takes its
bits apart into a sign, a significand and an exponent, so that its magnitude is
`significand · 2 ^ exponent`. In the other direction `nearestBits` rounds a ratio
of naturals to the nearest double, a tie going to the even significand; a result
past the largest double becomes an infinity. Both work in exact natural
arithmetic.
-/
namespace PegMachine.Decimal

set_option autoImplicit false

/-- A double taken apart. -/
inductive Binary64 where
  | finite (negative : Bool) (significand : Nat) (exponent : Int)
  | infinite (negative : Bool)
  | notANumber
  deriving DecidableEq, Repr

/-- The exponent of the smallest unit in the last place. -/
def leastExponent : Int := -1074

/-- Significands of normal numbers start here. -/
def hiddenBit : Nat := 1 <<< 52

/-- Take the bits of a double apart. -/
def Binary64.decode (bits : Nat) : Binary64 :=
  let negative := (bits >>> 63) % 2 = 1
  let biased := (bits >>> 52) % 0x800
  let fraction := bits % hiddenBit
  if biased = 0x7FF then
    if fraction = 0 then .infinite negative else .notANumber
  else if biased = 0 then .finite negative fraction leastExponent
  else .finite negative (hiddenBit + fraction) (leastExponent + (biased - 1 : Nat))

/-- The double taken apart. -/
def Binary64.ofFloat (x : Float) : Binary64 := .decode x.toBits.toNat

/-- A ratio rounded to the nearest natural, a tie to the even one. -/
def roundHalfEven (num den : Nat) : Nat :=
  let quotient := num / den
  let twice := 2 * (num % den)
  if twice < den then quotient
  else if den < twice then quotient + 1
  else quotient + quotient % 2

/-- The ratio `num / den` in units of `2 ^ exponent`, rounded. -/
def inUnits (num den : Nat) (exponent : Int) : Nat :=
  if 0 ≤ exponent then roundHalfEven num (den <<< exponent.toNat)
  else roundHalfEven (num <<< (-exponent).toNat) den

/-- The exponent of the last place of a double near `num / den`: the largest at which
the rounded significand still has its hidden bit, but not below the least one. -/
def exponentFor (num den : Nat) : Int :=
  let guess : Int := (num.log2 : Int) - den.log2 - 53
  let fits (e : Int) : Bool :=
    if 0 ≤ e then (den <<< e.toNat) * hiddenBit ≤ num
    else den * hiddenBit ≤ num <<< (-e).toNat
  max leastExponent (if fits (guess + 1) then guess + 1 else guess)

/-- The bits of the double nearest to `num / den`, without a sign. The bits of doubles
count upwards through their significands, and through their exponents in steps of
the hidden bit, so a significand that rounds up to the next power of two carries
into the exponent by itself. -/
def nearestBits (num den : Nat) : Nat :=
  if num = 0 then 0
  else
    let exponent := exponentFor num den
    let bits := (exponent - leastExponent).toNat * hiddenBit + inUnits num den exponent
    min bits (0x7FF * hiddenBit)

/-- The double nearest to `± num / den`. -/
def nearestFloat (negative : Bool) (num den : Nat) : Float :=
  Float.ofBits (UInt64.ofNat (nearestBits num den + if negative then 1 <<< 63 else 0))

end PegMachine.Decimal
