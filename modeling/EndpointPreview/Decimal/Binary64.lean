/-!
Double precision numbers as bit patterns. A magnitude is the pattern without its
sign bit: patterns below `infinity` are finite and are ordered like the numbers
they stand for. Everything is exact arithmetic on natural numbers.
-/

namespace EndpointPreview.Decimal

def infinity : Nat := 0x7FF0000000000000
def quietNaN : Nat := 0x7FF8000000000000
def signBit : Nat := 0x8000000000000000

-- The least significand of 53 bits, which is also where the exponent's bits begin.
def leadingBit : Nat := 0x10000000000000

def parts (magnitude : Nat) : Nat × Int :=
  let exponent : Nat := magnitude / leadingBit
  let low : Nat := magnitude % leadingBit
  if exponent = 0 then (low, -1074) else (leadingBit + low, (exponent : Int) - 1075)

def scaled (n base : Nat) (e : Int) : Nat × Nat :=
  if e < 0 then (n, Nat.pow base e.natAbs) else (n * Nat.pow base e.natAbs, 1)

def fraction (magnitude : Nat) : Nat × Nat :=
  let (significand, exponent) := parts magnitude
  scaled significand 2 exponent

def divNearest (num den : Nat) : Nat :=
  let quotient := num / den
  let twice := 2 * (num % den)
  if twice < den then quotient
  else if den < twice then quotient + 1
  else quotient + quotient % 2

def overPower (num den : Nat) (exponent : Int) : Nat × Nat :=
  if exponent < 0 then (num * Nat.pow 2 exponent.natAbs, den)
  else (num, den * Nat.pow 2 exponent.natAbs)

def leadingExponent (num den : Nat) : Int :=
  let guess : Int := (num.log2 : Int) - (den.log2 : Int) - 53
  let (a, b) := overPower num den guess
  if 2 * leadingBit ≤ a / b then guess + 1 else guess

def leastExponent : Int := -1074

-- Binary exponent at which the fraction has 53 significant bits, or the least one.
def exponentFor (num den : Nat) : Int := max (leadingExponent num den) leastExponent

/--
The magnitude nearest to a positive fraction, ties to the even pattern. A result
of `infinity` or more means that the fraction is too large.
-/
def nearest (num den : Nat) : Nat :=
  if num = 0 then 0
  else
    let exponent := exponentFor num den
    let (a, b) := overPower num den exponent
    (exponent - leastExponent).toNat * leadingBit + divNearest a b

def isTiny (num den : Nat) : Bool := num * Nat.pow 2 1076 < den * (4 * leadingBit - 1)

def isExact (magnitude num den : Nat) : Bool :=
  let (a, b) := fraction magnitude
  a * den == num * b

inductive Rounded where
  | finite (magnitude : Nat)
  | underflow (magnitude : Nat)
  | overflow
  deriving DecidableEq, Repr

/--
The fraction as rounding takes it. Below the normal numbers it is first cut to 53
bits, and a remainder of exactly half a unit there leaves no trace. This reaches down
over `reach` binary exponents.
-/
def taken (reach : Int) (num den : Nat) : Nat × Nat :=
  let exponent := leadingExponent num den
  let (a, b) := overPower num den exponent
  if num ≠ 0 ∧ exponent < leastExponent ∧ leastExponent - reach ≤ exponent ∧ 2 * (a % b) = b then
    scaled (a / b) 2 exponent
  else (num, den)

def roundFraction (reach : Int) (num den : Nat) : Rounded :=
  let (a, b) := taken reach num den
  let magnitude := nearest a b
  if infinity ≤ magnitude then .overflow
  else if num ≠ 0 && isTiny num den && !isExact magnitude a b then .underflow magnitude
  else .finite magnitude

def digitCount (n : Nat) : Nat := (Nat.toDigits 10 n).length

def decimalReach : Int := 1

-- Rounding of `n * 10 ^ e`. Exponents far outside the range are settled unexpanded.
def roundDecimal (n : Nat) (e : Int) : Rounded :=
  if n = 0 then .finite 0
  else if 400 < e + digitCount n then .overflow
  else if e + digitCount n < -400 then .underflow 0
  else
    let (num, den) := scaled n 10 e
    roundFraction decimalReach num den

def withSign (negative : Bool) (magnitude : Nat) : UInt64 :=
  UInt64.ofNat (if negative then signBit + magnitude else magnitude)

def isNegative (bits : UInt64) : Bool := signBit ≤ bits.toNat

def magnitude (bits : UInt64) : Nat := bits.toNat % signBit

def negate (bits : UInt64) : UInt64 := withSign (!isNegative bits) (magnitude bits)

end EndpointPreview.Decimal
