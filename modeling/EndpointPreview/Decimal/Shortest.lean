import EndpointPreview.Decimal.Binary64

/-!
Shortest digits that read back. A decimal with `count` digits near a number is
one of the two neighbours of the number on a grid of powers of ten; the first
grid with a neighbour that rounds to the number gives the digits, the nearer of
two such neighbours wins.
-/

namespace EndpointPreview.Decimal

structure Digits where
  digits : List (Fin 10)
  point : Int
  deriving DecidableEq, Repr

def digitList (n : Nat) : List (Fin 10) :=
  (Nat.toDigits 10 n).map fun c => Fin.ofNat 10 (c.toNat - 48)

def readsBack (magnitude m : Nat) (e : Int) : Bool :=
  let (num, den) := scaled m 10 e
  nearest num den == magnitude

def belowPower (num den : Nat) (e : Int) : Bool :=
  let (a, b) := scaled 1 10 e
  num * b < den * a

def pointFrom (num den : Nat) : Nat → Int → Int
  | 0, p => p
  | steps + 1, p => if belowPower num den p then p else pointFrom num den steps (p + 1)

def pointOf (num den : Nat) : Int :=
  let guess := ((num.log2 : Int) - (den.log2 : Int) - 1) * 30103 / 100000
  pointFrom num den 8 (guess - 1)

-- The neighbour of the number on the grid `10 ^ e` that reads back, if any.
def onGrid (magnitude num den : Nat) (e : Int) : Option Nat :=
  let (a, b) := scaled 1 10 e
  let low := num * b / (den * a)
  let twiceRest := 2 * (num * b % (den * a))
  let nearLow := twiceRest < den * a || (twiceRest == den * a && low % 2 == 0)
  match readsBack magnitude low e, readsBack magnitude (low + 1) e with
  | true, true => some (if nearLow then low else low + 1)
  | true, false => some low
  | false, true => some (low + 1)
  | false, false => none

def shortestFrom (magnitude num den : Nat) (point : Int) : Nat → Nat → Digits
  | 0, _ => ⟨[], 0⟩
  | grids + 1, count =>
      match onGrid magnitude num den (point - count) with
      | some m =>
          let all := digitList m
          ⟨(all.reverse.dropWhile (· == 0)).reverse, point - count + all.length⟩
      | none => shortestFrom magnitude num den point grids (count + 1)

/-- Shortest digits of a finite magnitude; none for zero. -/
def shortest (magnitude : Nat) : Digits :=
  if magnitude = 0 then ⟨[], 0⟩
  else
    let (num, den) := fraction magnitude
    shortestFrom magnitude num den (pointOf num den) 17 1

end EndpointPreview.Decimal
