import EndpointPreview.Json.Writer
import EndpointPreview.Text.Numeral

/-!
Configuration documents as node trees, and the scalar conversions of their format.
A plain scalar is a whole number, a number, a truth value or else text; a quoted
one stays text. A number has to use up the scalar but for white space at its end.
The key of a mapping's entry may be any node, but only a scalar one names a value.
Where a text is asked for, the format decides whether the null node has one.
-/

namespace EndpointPreview.Settings

open Text

class NodeDialect where
  nullText : Option Bytes

inductive Node where
  | undefined
  | null
  | plain (text : Bytes)
  | quoted (text : Bytes)
  | seq (items : List Node)
  | map (entries : List (Node × Node))
  deriving Repr, Inhabited

namespace Node

def isMapOrNothing : Node → Bool
  | undefined | null | map _ => true
  | _ => false

def scalar? : Node → Option Bytes
  | plain text => some text
  | quoted text => some text
  | _ => none

-- The node as a text: that of a scalar, and that of the null node if it has one.
def text? [NodeDialect] : Node → Option Bytes
  | null => NodeDialect.nullText
  | node => node.scalar?

def isDefined : Node → Bool
  | undefined => false
  | _ => true

/-- The node under the first entry with the key; undefined when there is none. -/
def get (key : String) : Node → Node
  | map entries =>
      ((entries.find? fun entry => entry.1.scalar? == some (ascii key)).map Prod.snd).getD undefined
  | _ => undefined

end Node

def integer? (text : Bytes) : Option Int :=
  let (negative, body) := Numeral.takeSign (dropEndWhile isSpace text)
  (Numeral.whole? body).map (Numeral.applySign negative)

def int32? (text : Bytes) : Option Int := (integer? text).bind Numeral.fits32

def int64? (text : Bytes) : Option Int := (integer? text).bind Numeral.fits64

def isExponent (rest : Bytes) : Bool :=
  match rest with
  | [] => true
  | mark :: after =>
      let (_, digits) := Numeral.takeSign after
      Numeral.isDecimalMark mark && !digits.isEmpty && digits.all isDigit

/-- The decimal number that a text without a sign stands for, if it is not too large. -/
def magnitude? (text : Bytes) : Option Nat :=
  match Numeral.significand? isDigit text with
  | none => none
  | some part =>
      if isExponent part.rest then
        match Numeral.decimal? text with
        | some (.finite magnitude) => some magnitude
        | some (.underflow magnitude) => some magnitude
        | _ => none
      else none

def isInfinityWord (text : Bytes) : Bool :=
  text == ascii ".inf" || text == ascii ".Inf" || text == ascii ".INF"

def isNaNWord (text : Bytes) : Bool :=
  text == ascii ".nan" || text == ascii ".NaN" || text == ascii ".NAN"

def float? (text : Bytes) : Option UInt64 :=
  let (negative, body) := Numeral.takeSign (dropEndWhile isSpace text)
  match magnitude? body with
  | some magnitude => some (Decimal.withSign negative magnitude)
  | none =>
      let (wordNegative, word) := Numeral.takeSign text
      if isInfinityWord word then some (Decimal.withSign wordNegative Decimal.infinity)
      else if isNaNWord text then some (Decimal.withSign false Decimal.quietNaN)
      else none

def trueWords : List String := ["y", "yes", "true", "on"]
def falseWords : List String := ["n", "no", "false", "off"]

def capitalized : Bytes → Bytes
  | [] => []
  | b :: rest => (if isLower b then b - 32 else b) :: rest

def uppercase (text : Bytes) : Bytes := text.map fun b => if isLower b then b - 32 else b

def isWordIn (words : List String) (text : Bytes) : Bool :=
  words.any fun word =>
    text == ascii word || text == uppercase (ascii word) || text == capitalized (ascii word)

def bool? (text : Bytes) : Option Bool :=
  if isWordIn trueWords text then some true
  else if isWordIn falseWords text then some false
  else none

def plainValue (text : Bytes) : Json :=
  match int64? text with
  | some n => .int n
  | none =>
      match float? text with
      | some bits => .float bits
      | none =>
          match bool? text with
          | some value => .bool value
          | none => .str text

namespace Node

section Values

variable [NodeDialect]

mutual

def toJson? : Node → Option Json
  | undefined => some .null
  | null => some .null
  | plain text => some (plainValue text)
  | quoted text => some (.str text)
  | seq items => (itemsToJson? items).map .arr
  | map entries => (entriesToJson? entries).map .object

def itemsToJson? : List Node → Option (List Json)
  | [] => some []
  | item :: rest => (toJson? item).bind fun value => (itemsToJson? rest).map (value :: ·)

def entriesToJson? : List (Node × Node) → Option (List (Bytes × Json))
  | [] => some []
  | (key, value) :: rest =>
      key.text?.bind fun name => (toJson? value).bind fun value =>
        (entriesToJson? rest).map ((name, value) :: ·)

end

end Values

variable [Json.Dialect]

mutual

/-- The document of a JSON value: strings and keys are quoted, numbers and truth values are plain. -/
def ofJson : Json → Node
  | .null => null
  | .str text => quoted text
  | .arr items => seq (itemsOfJson items)
  | .obj members => map (entriesOfJson members)
  | scalar => plain scalar.scalarText

def itemsOfJson : List Json → List Node
  | [] => []
  | item :: rest => ofJson item :: itemsOfJson rest

def entriesOfJson : List (Bytes × Json) → List (Node × Node)
  | [] => []
  | (key, value) :: rest => (quoted key, ofJson value) :: entriesOfJson rest

end

end Node
end EndpointPreview.Settings
