import EndpointPreview.Json.Writer
import EndpointPreview.Notation.Module
import EndpointPreview.Text.Numeral

/-!
Literals and the values they stand for. Strings, numbers, `True`, `False`, `None`,
bracketed lists, parenthesised lists and braced dictionaries are literals; a name,
a call or an operator makes the whole text none.
-/

namespace EndpointPreview.Notation

open Text

def maxNesting : Nat := 64

def isHexLiteral (text : Bytes) : Bool :=
  2 < text.length && (startsWith (ascii "0x") text || startsWith (ascii "0X") text)

def isFloatLiteral (text : Bytes) : Bool :=
  text.any fun b => b == byte '.' || b == byte 'e' || b == byte 'E'

/-- The value of a number token, negated if asked; none when it is out of range. -/
def numberValue (negative : Bool) (written : Bytes) : Option Json :=
  let text := written.filter (· != byte '_')
  if isHexLiteral text then
    (Numeral.hexInt64? text).map fun n => .int (if negative then Numeral.opposite64 n else n)
  else if isFloatLiteral text then
    (Numeral.double? text).map fun bits => .float (if negative then Decimal.negate bits else bits)
  else
    (Numeral.int64? text).map fun n => .int (if negative then Numeral.opposite64 n else n)

def nameValue (name : Bytes) : Option Json :=
  if name = ascii "True" then some (.bool true)
  else if name = ascii "False" then some (.bool false)
  else if name = ascii "None" then some .null
  else none

variable [Json.Dialect]

def keyText : Json → Option Bytes
  | .str text => some text
  | .arr _ => none
  | .obj _ => none
  | scalar => some (Json.scalarText scalar)

abbrev ValueReader := TokenRest → Option (Json × TokenRest)

structure ItemList where
  items : List Json
  sawComma : Bool
  rest : TokenRest

def readItems (read : ValueReader) (close : TokenKind) : Nat → TokenRest → Option ItemList
  | 0, _ => none
  | steps + 1, tokens =>
      if nextKind tokens = close then some ⟨[], false, tokens.drop 1⟩
      else
        match read tokens with
        | none => none
        | some (item, rest) =>
            if nextKind rest = .comma then
              (readItems read close steps (rest.drop 1)).map fun more =>
                ⟨item :: more.items, true, more.rest⟩
            else if nextKind rest = close then some ⟨[item], false, rest.drop 1⟩
            else none

def tupleValue (found : ItemList) : Json :=
  match found.items, found.sawComma with
  | [item], false => item
  | items, _ => .arr items

def readEntry (read : ValueReader) (tokens : TokenRest) : Option ((Bytes × Json) × TokenRest) :=
  match read tokens with
  | none => none
  | some (key, afterKey) =>
      if nextKind afterKey = .colon then
        match read (afterKey.drop 1), keyText key with
        | some (value, rest), some name => some ((name, value), rest)
        | _, _ => none
      else none

def readEntries (read : ValueReader) : Nat → TokenRest → Option (Json.Members × TokenRest)
  | 0, _ => none
  | steps + 1, tokens =>
      if nextKind tokens = .rightBrace then some ([], tokens.drop 1)
      else
        match readEntry read tokens with
        | none => none
        | some (entry, rest) =>
            if nextKind rest = .comma then
              (readEntries read steps (rest.drop 1)).map fun (more, after) => (entry :: more, after)
            else if nextKind rest = .rightBrace then some ([entry], rest.drop 1)
            else none

def readStrings : TokenRest → Bytes × TokenRest
  | [] => ([], [])
  | token :: rest =>
      if token.kind = .string then
        let (text, after) := readStrings rest
        (token.text ++ text, after)
      else ([], token :: rest)

def readNumber (negative : Bool) (tokens : TokenRest) : Option (Json × TokenRest) :=
  if nextKind tokens = .number then
    (numberValue negative (nextText tokens)).map fun value => (value, tokens.drop 1)
  else none

/-- The value at the front of the tokens, with at most `depth` nested containers. -/
def readValue : Nat → ValueReader
  | depth, tokens =>
      match nextKind tokens with
      | .string => let (text, rest) := readStrings tokens; some (.str text, rest)
      | .number => readNumber false tokens
      | .minus => readNumber true (tokens.drop 1)
      | .plus => readNumber false (tokens.drop 1)
      | .identifier => (nameValue (nextText tokens)).map fun value => (value, tokens.drop 1)
      | .leftBracket =>
          match depth with
          | 0 => none
          | inner + 1 =>
              (readItems (readValue inner) .rightBracket tokens.length (tokens.drop 1)).map
                fun found => (.arr found.items, found.rest)
      | .leftParen =>
          match depth with
          | 0 => none
          | inner + 1 =>
              (readItems (readValue inner) .rightParen tokens.length (tokens.drop 1)).map
                fun found => (tupleValue found, found.rest)
      | .leftBrace =>
          match depth with
          | 0 => none
          | inner + 1 =>
              (readEntries (readValue inner) tokens.length (tokens.drop 1)).map
                fun (members, rest) => (.object members, rest)
      | _ => none

def literalOfTokens (tokens : List Token) : Option Json :=
  match readValue maxNesting tokens with
  | some (value, rest) => if nextKind rest = .finish then some value else none
  | none => none

def literal? (text : Bytes) : Option Json :=
  let scan := scanTokens text
  match scan.openString with
  | some _ => none
  | none => literalOfTokens scan.tokens

end EndpointPreview.Notation
