import EndpointPreview.Json.Dialect
import EndpointPreview.Json.Value
import EndpointPreview.Text.Utf8

/-!
JSON text of a value. Objects are written in the order of their members, without
spaces. Only the quote, the backslash and bytes below 0x20 are escaped. A value
has a text exactly when all its strings and keys are valid UTF-8.
-/

namespace EndpointPreview.Json

open Text

def hexDigit (n : Nat) : UInt8 := if n < 10 then UInt8.ofNat (48 + n) else UInt8.ofNat (87 + n)

def escapeByte (b : UInt8) : Bytes :=
  if b == doubleQuote || b == backslash then [backslash, b]
  else if b == 8 then [backslash, byte 'b']
  else if b == 9 then [backslash, byte 't']
  else if b == 10 then [backslash, byte 'n']
  else if b == 12 then [backslash, byte 'f']
  else if b == 13 then [backslash, byte 'r']
  else if b < 0x20 then
    [backslash, byte 'u', byte '0', byte '0', hexDigit (b.toNat / 16), hexDigit (b.toNat % 16)]
  else [b]

def quoted (text : Bytes) : Bytes := doubleQuote :: text.flatMap escapeByte ++ [doubleQuote]

structure FloatLayout where
  lastPlain : Int
  -- Point positions at or below this one are written with an exponent.
  lastSmall : Int
  exponentDigits : Nat

-- Up to 15 digits before the point and fewer than four zeros after it stay plain.
def floatLayout : FloatLayout := ⟨15, -4, 2⟩

def digitBytes (digits : List (Fin 10)) : Bytes := digits.map fun d => UInt8.ofNat (48 + d.val)

def padLeft (width : Nat) (text : Bytes) : Bytes :=
  List.replicate (width - text.length) (byte '0') ++ text

def exponentText (layout : FloatLayout) (exponent : Int) : Bytes :=
  byte 'e' :: (if exponent < 0 then byte '-' else byte '+') ::
    padLeft layout.exponentDigits (decimal exponent.natAbs)

def digitsText (layout : FloatLayout) (number : Decimal.Digits) : Bytes :=
  let all := digitBytes number.digits
  let point := number.point
  if 0 < point ∧ point ≤ layout.lastPlain then
    if all.length ≤ point.toNat then
      all ++ List.replicate (point.toNat - all.length) (byte '0') ++ ascii ".0"
    else all.take point.toNat ++ byte '.' :: all.drop point.toNat
  else if layout.lastSmall < point ∧ point ≤ 0 then
    ascii "0." ++ List.replicate point.natAbs (byte '0') ++ all
  else
    let part := if all.length ≤ 1 then [] else byte '.' :: all.drop 1
    all.take 1 ++ part ++ exponentText layout (point - 1)

variable [Dialect]

def magnitudeText (layout : FloatLayout) (magnitude : Nat) : Bytes :=
  if magnitude = 0 then ascii "0.0" else digitsText layout (Dialect.digits magnitude)

def floatText (bits : UInt64) : Bytes :=
  if Decimal.infinity ≤ Decimal.magnitude bits then ascii "null"
  else
    (if Decimal.isNegative bits then [byte '-'] else []) ++
      magnitudeText floatLayout (Decimal.magnitude bits)

def scalarText : Json → Bytes
  | .null => ascii "null"
  | .bool true => ascii "true"
  | .bool false => ascii "false"
  | .int n => signedDecimal n
  | .float bits => floatText bits
  | .str text => quoted text
  | .arr _ => []
  | .obj _ => []

mutual

def render : Json → Bytes
  | .arr items => byte '[' :: renderItems items ++ [byte ']']
  | .obj members => openBrace :: renderMembers members ++ [closeBrace]
  | scalar => scalarText scalar

def renderItems : List Json → Bytes
  | [] => []
  | [item] => render item
  | item :: rest => render item ++ byte ',' :: renderItems rest

def renderMembers : List (Bytes × Json) → Bytes
  | [] => []
  | [(key, value)] => quoted key ++ byte ':' :: render value
  | (key, value) :: rest =>
      quoted key ++ byte ':' :: render value ++ byte ',' :: renderMembers rest

end

mutual

def isText : Json → Bool
  | .str text => Utf8.isValid text
  | .arr items => areText items
  | .obj members => membersAreText members
  | _ => true

def areText : List Json → Bool
  | [] => true
  | item :: rest => isText item && areText rest

def membersAreText : List (Bytes × Json) → Bool
  | [] => true
  | (key, value) :: rest => Utf8.isValid key && isText value && membersAreText rest

end

def render? (value : Json) : Option Bytes := if isText value then some (render value) else none

def lineBreak (depth : Nat) : Bytes := newline :: List.replicate (2 * depth) (byte ' ')

mutual

def indented (depth : Nat) : Json → Bytes
  | .arr [] => ascii "[]"
  | .arr (item :: rest) =>
      byte '[' :: indentedItems (depth + 1) (item :: rest) ++ lineBreak depth ++ [byte ']']
  | .obj [] => [openBrace, closeBrace]
  | .obj (member :: rest) =>
      openBrace :: indentedMembers (depth + 1) (member :: rest) ++ lineBreak depth ++ [closeBrace]
  | scalar => scalarText scalar

def indentedItems (depth : Nat) : List Json → Bytes
  | [] => []
  | [item] => lineBreak depth ++ indented depth item
  | item :: rest => lineBreak depth ++ indented depth item ++ byte ',' :: indentedItems depth rest

def indentedMembers (depth : Nat) : List (Bytes × Json) → Bytes
  | [] => []
  | [(key, value)] => lineBreak depth ++ quoted key ++ ascii ": " ++ indented depth value
  | (key, value) :: rest =>
      lineBreak depth ++ quoted key ++ ascii ": " ++ indented depth value ++
        byte ',' :: indentedMembers depth rest

end

def indented? (value : Json) : Option Bytes :=
  if isText value then some (indented 0 value) else none

end EndpointPreview.Json
