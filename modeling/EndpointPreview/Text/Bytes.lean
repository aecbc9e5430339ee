/-!
Text is a list of bytes. Character classes are the ASCII ones: a byte of 128 or
more is neither a letter, a digit nor a space, and has no other case.
-/

namespace EndpointPreview

abbrev Bytes := List UInt8

abbrev byte (c : Char) : UInt8 := UInt8.ofNat c.toNat

def ascii (text : String) : Bytes := text.toList.map byte

namespace Text

def newline : UInt8 := 10
def carriageReturn : UInt8 := 13
def backslash : UInt8 := 92
def doubleQuote : UInt8 := 34
def singleQuote : UInt8 := 39
def backtick : UInt8 := 96
def openBrace : UInt8 := 123
def closeBrace : UInt8 := 125

def isSpace (b : UInt8) : Bool := b == 32 || (9 ≤ b && b ≤ 13)
def isDigit (b : UInt8) : Bool := 48 ≤ b && b ≤ 57
def isUpper (b : UInt8) : Bool := 65 ≤ b && b ≤ 90
def isLower (b : UInt8) : Bool := 97 ≤ b && b ≤ 122
def isAlpha (b : UInt8) : Bool := isUpper b || isLower b
def isAlnum (b : UInt8) : Bool := isAlpha b || isDigit b
def isHexDigit (b : UInt8) : Bool :=
  isDigit b || (65 ≤ b && b ≤ 70) || (97 ≤ b && b ≤ 102)

def isWordByte (b : UInt8) : Bool := isAlnum b || b == byte '_'

def isWordStart (b : UInt8) : Bool := isAlpha b || b == byte '_'

def toLower (b : UInt8) : UInt8 := if isUpper b then b + 32 else b

def lowercase (text : Bytes) : Bytes := text.map toLower

def digitValue (b : UInt8) : Nat :=
  if isDigit b then b.toNat - 48
  else if isLower b then b.toNat - 87
  else b.toNat - 55

def isBlank (text : Bytes) : Bool := text.all isSpace

def dropEndWhile (inClass : UInt8 → Bool) (text : Bytes) : Bytes :=
  (text.reverse.dropWhile inClass).reverse

def trim (text : Bytes) : Bytes := dropEndWhile isSpace (text.dropWhile isSpace)

def startsWith (start text : Bytes) : Bool := start.isPrefixOf text

def indexFrom (needle : Bytes) (position : Nat) : Bytes → Option Nat
  | [] => if needle.isEmpty then some position else none
  | b :: rest =>
      if needle.isPrefixOf (b :: rest) then some position
      else indexFrom needle (position + 1) rest

def indexOf? (needle text : Bytes) : Option Nat := indexFrom needle 0 text

def contains (needle text : Bytes) : Bool := (indexOf? needle text).isSome

def cut? (needle text : Bytes) : Option (Bytes × Bytes) :=
  (indexOf? needle text).map fun position =>
    (text.take position, text.drop (position + needle.length))

def cutAt? (mark : UInt8) (text : Bytes) : Option (Bytes × Bytes) :=
  match text.dropWhile (· != mark) with
  | [] => none
  | _ :: rest => some (text.takeWhile (· != mark), rest)

def cutAtLast? (mark : UInt8) (text : Bytes) : Option (Bytes × Bytes) :=
  (cutAt? mark text.reverse).map fun (after, before) => (before.reverse, after.reverse)

/-- The parts between the bytes equal to `mark`; always at least one. -/
def splitAt (mark : UInt8) : Bytes → List Bytes
  | [] => [[]]
  | b :: rest =>
      if b == mark then [] :: splitAt mark rest
      else match splitAt mark rest with
        | [] => [[b]]
        | part :: later => (b :: part) :: later

def joinWith (separator : Bytes) : List Bytes → Bytes
  | [] => []
  | [part] => part
  | part :: rest => part ++ separator ++ joinWith separator rest

/-- The text up to its first zero byte; the texts of errors end there. -/
def beforeZero (text : Bytes) : Bytes := text.takeWhile (· != 0)

-- Dictionary order on bytes; a proper prefix comes first.
def precedes : Bytes → Bytes → Bool
  | [], [] => false
  | [], _ :: _ => true
  | _ :: _, [] => false
  | a :: left, b :: right => a < b || (a == b && precedes left right)

def decimal (n : Nat) : Bytes := ascii (String.ofList (Nat.toDigits 10 n))

def signedDecimal (n : Int) : Bytes :=
  if n < 0 then byte '-' :: decimal n.natAbs else decimal n.natAbs

end Text
end EndpointPreview
