import EndpointPreview.Decimal.Shortest

/-!
What the JSON format leaves to its library. More than one row of digits reads back as a double, and
any of them may spell it. A document may be read with a byte order mark in front of its value or up
to a zero byte, and a number too large for a double may be told apart from a malformed text.
-/

namespace EndpointPreview

namespace Decimal

def Digits.whole (number : Digits) : Nat := number.digits.foldl (fun n d => 10 * n + d.val) 0

structure Digits.Spells (number : Digits) (magnitude : Nat) : Prop where
  head : ∃ first rest, number.digits = first :: rest ∧ first ≠ 0
  reads : readsBack magnitude number.whole (number.point - number.digits.length) = true

end Decimal

namespace Json

class Dialect where
  digits (magnitude : Nat) : Decimal.Digits
  skipsMark : Bool
  endsAtZero : Bool
  tellsOverflow : Bool

/-- The digits of every double but zero read back. -/
class LawfulDialect [Dialect] : Prop where
  spells (magnitude : Nat) (nonzero : 0 < magnitude) (finite : magnitude < Decimal.infinity) :
    (Dialect.digits magnitude).Spells magnitude

end Json
end EndpointPreview
