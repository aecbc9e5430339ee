import EndpointPreview.Json.Dialect
import EndpointPreview.Json.Value
import EndpointPreview.Text.Numeral
import EndpointPreview.Text.Utf8

/-!
Reading JSON text. Each reader takes one construct from the front of the text and
returns it with what follows. Whole numbers that fit 64 bits are integers, other
numbers are floats; a float too large, a lone surrogate, a raw control byte in a
string and bad UTF-8 are errors, and the first one ends the reading.
-/

namespace EndpointPreview.Json

open Text

inductive ReadError where
  | malformed
  | overflow
  deriving DecidableEq, Repr

def isJsonSpace (b : UInt8) : Bool := b == 32 || b == 9 || b == 10 || b == 13

def skipSpace (text : Bytes) : Bytes := text.dropWhile isJsonSpace

def hex4? : Bytes → Option (Nat × Bytes)
  | a :: b :: c :: d :: rest =>
      if [a, b, c, d].all isHexDigit then some (Numeral.ofDigits 16 [a, b, c, d], rest) else none
  | _ => none

def isHighSurrogate (unit : Nat) : Bool := 0xD800 ≤ unit && unit < 0xDC00
def isLowSurrogate (unit : Nat) : Bool := 0xDC00 ≤ unit && unit < 0xE000

/-- The character after a `\u` mark; a surrogate needs its partner. -/
def escapedPoint? (text : Bytes) : Option (Nat × Bytes) :=
  match hex4? text with
  | none => none
  | some (unit, rest) =>
      if isLowSurrogate unit then none
      else if isHighSurrogate unit then
        match rest with
        | b :: u :: later =>
            if b == backslash && u == byte 'u' then
              match hex4? later with
              | some (low, after) =>
                  if isLowSurrogate low then
                    some (0x10000 + (unit - 0xD800) * 1024 + (low - 0xDC00), after)
                  else none
              | none => none
            else none
        | _ => none
      else some (unit, rest)

def simpleEscape? (b : UInt8) : Option UInt8 :=
  if b == doubleQuote || b == backslash || b == byte '/' then some b
  else if b == byte 'b' then some 8
  else if b == byte 'f' then some 12
  else if b == byte 'n' then some 10
  else if b == byte 'r' then some 13
  else if b == byte 't' then some 9
  else none

/-- The rest of a string after its opening quote; `made` is its start, last byte first. -/
def stringRest? (made : Bytes) : Nat → Bytes → Option (Bytes × Bytes)
  | 0, _ => none
  | _, [] => none
  | steps + 1, b :: rest =>
      if b == doubleQuote then some (made.reverse, rest)
      else if b < 0x20 then none
      else if b == backslash then
        match rest with
        | [] => none
        | mark :: later =>
            if mark == byte 'u' then
              match escapedPoint? later with
              | some (point, after) =>
                  stringRest? ((Utf8.encode point).reverse ++ made) steps after
              | none => none
            else match simpleEscape? mark with
              | some plain => stringRest? (plain :: made) steps later
              | none => none
      else stringRest? (b :: made) steps rest

def string? (text : Bytes) : Option (Bytes × Bytes) :=
  match text with
  | b :: rest =>
      if b == doubleQuote then
        match stringRest? [] rest.length rest with
        | some (content, after) => if Utf8.isValid content then some (content, after) else none
        | none => none
      else none
  | [] => none

def isWhole (digits : Bytes) : Bool :=
  match digits with
  | [] => false
  | [_] => true
  | first :: _ => first != byte '0'

-- The integer of that magnitude: 64 bits without a sign, or with one when negative.
def integer? (negative : Bool) (n : Nat) : Option Json :=
  if negative then if n ≤ Numeral.limit64 then some (.int (-n)) else none
  else if n < 2 * Numeral.limit64 then some (.int n) else none

def roundedFloat (negative : Bool) : Decimal.Rounded → Except ReadError Json
  | .finite magnitude => .ok (.float (Decimal.withSign negative magnitude))
  | .underflow magnitude => .ok (.float (Decimal.withSign negative magnitude))
  | .overflow => .error .overflow

/-- The fraction's digits, if there is one; a point needs a digit after it. -/
def fraction? : Bytes → Option (Bytes × Bytes)
  | [] => some ([], [])
  | b :: rest =>
      if b == byte '.' then
        let digits := rest.takeWhile isDigit
        if digits.isEmpty then none else some (digits, rest.dropWhile isDigit)
      else some ([], b :: rest)

/-- The exponent, if there is one; its mark needs a digit after it. -/
def exponent? : Bytes → Option (Option Int × Bytes)
  | [] => some (none, [])
  | b :: rest =>
      if Numeral.isDecimalMark b then
        let (negative, body) := Numeral.takeSign rest
        let digits := body.takeWhile isDigit
        if digits.isEmpty then none
        else
          some (some (Numeral.applySign negative (Numeral.ofDigits 10 digits)),
            body.dropWhile isDigit)
      else some (none, b :: rest)

def number (negative : Bool) (whole part : Bytes) (exponent : Option Int) : Except ReadError Json :=
  let digits := Numeral.ofDigits 10 (whole ++ part)
  let scale := exponent.getD 0 - part.length
  let asFloat := roundedFloat negative (Decimal.roundDecimal digits scale)
  if part.isEmpty && exponent.isNone then (integer? negative digits).elim asFloat .ok
  else asFloat

def takeNumber (text : Bytes) : Except ReadError (Json × Bytes) :=
  let negative := text.head? == some (byte '-')
  let body := if negative then text.drop 1 else text
  let whole := body.takeWhile isDigit
  if !isWhole whole then .error .malformed
  else
    match fraction? (body.dropWhile isDigit) with
    | none => .error .malformed
    | some (part, afterPart) =>
        match exponent? afterPart with
        | none => .error .malformed
        | some (exponent, rest) => (number negative whole part exponent).map (·, rest)

def takeString (text : Bytes) : Except ReadError (Bytes × Bytes) :=
  (string? text).elim (.error .malformed) .ok

def takeWord (word : String) (value : Json) (text : Bytes) : Except ReadError (Json × Bytes) :=
  if startsWith (ascii word) text then .ok (value, text.drop (ascii word).length)
  else .error .malformed

-- Items up to the closing bracket, of which there is at least one.
def takeItems (takeItem : Bytes → Except ReadError (Json × Bytes)) :
    Nat → Bytes → Except ReadError (List Json × Bytes)
  | 0, _ => .error .malformed
  | steps + 1, text => do
      let (item, rest) ← takeItem (skipSpace text)
      match skipSpace rest with
      | [] => .error .malformed
      | b :: later =>
          if b == byte ']' then .ok ([item], later)
          else if b == byte ',' then do
            let (more, after) ← takeItems takeItem steps later
            .ok (item :: more, after)
          else .error .malformed

-- Members up to the closing brace, of which there is at least one.
def takeMembers (takeValue : Bytes → Except ReadError (Json × Bytes)) :
    Nat → Bytes → Except ReadError (Members × Bytes)
  | 0, _ => .error .malformed
  | steps + 1, text => do
      let (key, afterKey) ← takeString (skipSpace text)
      match skipSpace afterKey with
      | [] => .error .malformed
      | colon :: afterColon =>
          if colon != byte ':' then .error .malformed
          else do
            let (value, rest) ← takeValue (skipSpace afterColon)
            match skipSpace rest with
            | [] => .error .malformed
            | b :: later =>
                if b == closeBrace then .ok ([(key, value)], later)
                else if b == byte ',' then do
                  let (more, after) ← takeMembers takeValue steps later
                  .ok ((key, value) :: more, after)
                else .error .malformed

/-- One value at the front of the text, containers nested at most `depth` deep. -/
def takeValue : Nat → Bytes → Except ReadError (Json × Bytes)
  | _, [] => .error .malformed
  | depth, b :: rest =>
      if b == doubleQuote then (takeString (b :: rest)).map fun (text, after) => (.str text, after)
      else if b == byte '[' then
        match depth with
        | 0 => .error .malformed
        | inner + 1 =>
            match skipSpace rest with
            | [] => .error .malformed
            | first :: later =>
                if first == byte ']' then .ok (.arr [], later)
                else (takeItems (takeValue inner) (rest.length) (first :: later)).map
                  fun (items, after) => (.arr items, after)
      else if b == openBrace then
        match depth with
        | 0 => .error .malformed
        | inner + 1 =>
            match skipSpace rest with
            | [] => .error .malformed
            | first :: later =>
                if first == closeBrace then .ok (.obj [], later)
                else (takeMembers (takeValue inner) (rest.length) (first :: later)).map
                  fun (members, after) => (object members, after)
      else if b == byte 't' then takeWord "true" (.bool true) (b :: rest)
      else if b == byte 'f' then takeWord "false" (.bool false) (b :: rest)
      else if b == byte 'n' then takeWord "null" .null (b :: rest)
      else takeNumber (b :: rest)

def readWhole (text : Bytes) : Except ReadError Json := do
  let (value, rest) ← takeValue text.length (skipSpace text)
  if (skipSpace rest).isEmpty then .ok value else .error .malformed

def byteOrderMark : Bytes := [0xEF, 0xBB, 0xBF]

variable [Dialect]

def withoutMark (text : Bytes) : Bytes :=
  if Dialect.skipsMark && startsWith byteOrderMark text then text.drop byteOrderMark.length else text

def beforeEnd (text : Bytes) : Bytes := if Dialect.endsAtZero then beforeZero text else text

def read (document : Bytes) : Except ReadError Json := readWhole (beforeEnd (withoutMark document))

def read? (document : Bytes) : Option Json := (read document).toOption

end EndpointPreview.Json
