import EndpointPreview.Text.Bytes
import EndpointPreview.Decimal.Binary64

/-!
Numbers at the start of a text. Leading white space and a sign are accepted and
what follows the number is left alone; a number out of range is no number.
-/

namespace EndpointPreview.Numeral

open Text

def ofDigits (base : Nat) (digits : Bytes) : Nat :=
  digits.foldl (fun value b => value * base + digitValue b) 0

def isOctalDigit (b : UInt8) : Bool := 48 ≤ b && b ≤ 55

structure Based where
  base : Nat
  inBase : UInt8 → Bool
  body : Bytes

def Based.ofText (text : Bytes) : Based :=
  if startsWith (ascii "0x") text || startsWith (ascii "0X") text then
    ⟨16, isHexDigit, text.drop 2⟩
  else if startsWith (ascii "0") text then ⟨8, isOctalDigit, text⟩
  else ⟨10, isDigit, text⟩

def Based.isWhole (written : Based) : Bool :=
  !written.body.isEmpty && written.body.all written.inBase

def Based.value (written : Based) : Nat :=
  ofDigits written.base (written.body.takeWhile written.inBase)

def whole? (text : Bytes) : Option Nat :=
  let written := Based.ofText text
  if written.isWhole then some written.value else none

def takeSign : Bytes → Bool × Bytes
  | [] => (false, [])
  | b :: rest =>
      if b == byte '-' then (true, rest)
      else if b == byte '+' then (false, rest)
      else (false, b :: rest)

def applySign (negative : Bool) (n : Nat) : Int := if negative then -n else n

def dropHexMark (text : Bytes) : Bytes :=
  match text with
  | zero :: x :: digit :: rest =>
      if zero == byte '0' && (x == byte 'x' || x == byte 'X') && isHexDigit digit then
        digit :: rest
      else text
  | _ => text

def signed? (base : Nat) (inBase : UInt8 → Bool) (text : Bytes) : Option Int :=
  let (negative, body) := takeSign (text.dropWhile isSpace)
  let digits := (if base == 16 then dropHexMark body else body).takeWhile inBase
  if digits.isEmpty then none else some (applySign negative (ofDigits base digits))

def within (low high : Int) (n : Int) : Option Int :=
  if low ≤ n ∧ n ≤ high then some n else none

def limit32 : Int := 0x80000000

def limit64 : Int := 0x8000000000000000

def fits32 (n : Int) : Option Int := within (-limit32) (limit32 - 1) n

def fits64 (n : Int) : Option Int := within (-limit64) (limit64 - 1) n

/-- The opposite of a 64-bit number; the least one is its own opposite. -/
def opposite64 (n : Int) : Int := if n = -limit64 then n else -n

def int32? (text : Bytes) : Option Int := (signed? 10 isDigit text).bind fits32

def int64? (text : Bytes) : Option Int := (signed? 10 isDigit text).bind fits64

def hexInt64? (text : Bytes) : Option Int := (signed? 16 isHexDigit text).bind fits64

structure Significand where
  digits : Bytes
  scale : Int
  rest : Bytes

/-- Digits with at most one point among them; at least one digit. -/
def significand? (inBase : UInt8 → Bool) (text : Bytes) : Option Significand :=
  let whole := text.takeWhile inBase
  let after := text.dropWhile inBase
  let (part, rest) := match after with
    | b :: later =>
        if b == byte '.' then (later.takeWhile inBase, later.dropWhile inBase)
        else ([], after)
    | [] => ([], [])
  if whole.isEmpty && part.isEmpty then none
  else some ⟨whole ++ part, -(part.length : Int), rest⟩

def exponentAfter (isMark : UInt8 → Bool) : Bytes → Int
  | [] => 0
  | b :: rest =>
      if isMark b then
        let (negative, body) := takeSign rest
        applySign negative (ofDigits 10 (body.takeWhile isDigit))
      else 0

def isDecimalMark (b : UInt8) : Bool := b == byte 'e' || b == byte 'E'
def isBinaryMark (b : UInt8) : Bool := b == byte 'p' || b == byte 'P'

def decimal? (text : Bytes) : Option Decimal.Rounded :=
  (significand? isDigit text).map fun part =>
    Decimal.roundDecimal (ofDigits 10 part.digits)
      (part.scale + exponentAfter isDecimalMark part.rest)

def binaryReach : Int := 53

-- Rounding of `n * 2 ^ e`. Exponents far outside the range are settled unexpanded.
def roundBinary (n : Nat) (e : Int) : Decimal.Rounded :=
  if n = 0 then .finite 0
  else if 1100 < e + n.log2 then .overflow
  else if e + n.log2 < -1200 then .underflow 0
  else
    let (num, den) := Decimal.scaled n 2 e
    Decimal.roundFraction binaryReach num den

def hexadecimal? (text : Bytes) : Option Decimal.Rounded :=
  (significand? isHexDigit text).map fun part =>
    roundBinary (ofDigits 16 part.digits)
      (4 * part.scale + exponentAfter isBinaryMark part.rest)

def hasWord (word text : Bytes) : Bool := startsWith word (lowercase (text.take word.length))

def hasHexMark (text : Bytes) : Bool := hasWord (ascii "0x") text

def payloadLimit : Nat := 0x8000000000000
def wordLimit : Nat := 0x10000000000000000

-- The word in parentheses at the front, empty when there is none.
def parenthesized (text : Bytes) : Bytes :=
  match text with
  | opening :: rest =>
      let word := rest.takeWhile isWordByte
      if opening == byte '(' && (rest.drop word.length).head? == some (byte ')') then word else []
  | [] => []

/-- The number in parentheses behind a `nan`, zero when there is none; its digits may not leave 64 bits. -/
def payload? (text : Bytes) : Option Nat :=
  let written := Based.ofText (parenthesized text)
  if wordLimit ≤ written.value then none
  else some (if written.isWhole then written.value % payloadLimit else 0)

/-- The double at the start; none when there is no number or it leaves the range. -/
def double? (text : Bytes) : Option UInt64 :=
  let (negative, body) := takeSign (text.dropWhile isSpace)
  if hasWord (ascii "inf") body then some (Decimal.withSign negative Decimal.infinity)
  else if hasWord (ascii "nan") body then
    (payload? (body.drop 3)).map fun payload =>
      Decimal.withSign negative (Decimal.quietNaN + payload)
  else
    let rounded :=
      if hasHexMark body then (hexadecimal? (body.drop 2)).or (decimal? body)
      else decimal? body
    match rounded with
    | some (.finite magnitude) => some (Decimal.withSign negative magnitude)
    | _ => none

end EndpointPreview.Numeral
