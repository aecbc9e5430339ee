import EndpointPreview.Text.Bytes

/-!
Tokens of decorator notation and of literals. A text is cut into pieces: lexemes
and the gaps between them, which together are the whole text. A string that is
never closed takes the rest of the text as one invalid piece. The tokens are the
lexemes with the offsets at which they start.
-/

namespace EndpointPreview.Notation

open Text

inductive TokenKind where
  | finish
  | invalid
  | identifier
  | number
  | string
  | atSign
  | leftParen
  | rightParen
  | leftBracket
  | rightBracket
  | leftBrace
  | rightBrace
  | comma
  | colon
  | assign
  | star
  | doubleStar
  | minus
  | plus
  | dot
  | other
  deriving DecidableEq, Repr

-- A token; the text of a string is its content with escapes resolved.
structure Token where
  kind : TokenKind
  text : Bytes
  offset : Nat
  deriving DecidableEq, Repr

namespace TokenKind

def name : TokenKind → Bytes
  | finish => ascii "end"
  | invalid => ascii "invalid"
  | identifier => ascii "identifier"
  | number => ascii "number"
  | string => ascii "string"
  | atSign => ascii "@"
  | leftParen => ascii "("
  | rightParen => ascii ")"
  | leftBracket => ascii "["
  | rightBracket => ascii "]"
  | leftBrace => [openBrace]
  | rightBrace => [closeBrace]
  | comma => ascii ","
  | colon => ascii ":"
  | assign => ascii "="
  | star => ascii "*"
  | doubleStar => ascii "**"
  | minus => ascii "-"
  | plus => ascii "+"
  | dot => ascii "."
  | other => ascii "other"

def opens : TokenKind → Bool
  | leftParen | leftBracket | leftBrace => true
  | _ => false

def closes : TokenKind → Bool
  | rightParen | rightBracket | rightBrace => true
  | _ => false

end TokenKind

def isQuote (b : UInt8) : Bool := b == singleQuote || b == doubleQuote || b == backtick

/-- What an escape stands for; a newline after the backslash vanishes. -/
def escapeValue (mark : UInt8) : Bytes :=
  if mark == byte 'n' then [10]
  else if mark == byte 't' then [9]
  else if mark == byte 'r' then [13]
  else if mark == byte '0' then [0]
  else if mark == newline then []
  else [mark]

-- A string after its opening mark: content, written form up to the end, and the rest.
structure StringBody where
  content : Bytes
  raw : Bytes
  rest : Bytes
  deriving DecidableEq, Repr

def StringBody.prepend (content raw : Bytes) (body : StringBody) : StringBody :=
  { body with content := content ++ body.content, raw := raw ++ body.raw }

def closingMark (quote : UInt8) (triple : Bool) : Bytes :=
  if triple then [quote, quote, quote] else [quote]

/-- The rest of a string, or nothing when it is never closed; only a tripled one spans lines. -/
def stringBody? (quote : UInt8) (triple : Bool) : Bytes → Option StringBody
  | [] => none
  | [b] => if !triple && b == quote then some ⟨[], [b], []⟩ else none
  | b :: next :: rest =>
      if b == backslash then
        (stringBody? quote triple rest).map (.prepend (escapeValue next) [b, next])
      else if (closingMark quote triple).isPrefixOf (b :: next :: rest) then
        some ⟨[], closingMark quote triple, (next :: rest).drop (if triple then 2 else 0)⟩
      else if b == newline && !triple then none
      else (stringBody? quote triple (next :: rest)).map (.prepend [b] [b])

/-- A quote opens a tripled string when two more of it follow; a backtick never does. -/
def opensTriple (quote : UInt8) (after : Bytes) : Bool :=
  quote != backtick && [quote, quote].isPrefixOf after

def isNumberByte (b : UInt8) : Bool := isDigit b || b == byte '_'

def fractionPart : Bytes → Bytes
  | [] => []
  | b :: rest => if b == byte '.' then b :: rest.takeWhile isNumberByte else []

def exponentPart : Bytes → Bytes
  | [] => []
  | mark :: rest =>
      if mark == byte 'e' || mark == byte 'E' then
        let sign := match rest with
          | b :: _ => if b == byte '+' || b == byte '-' then [b] else []
          | [] => []
        let digits := (rest.drop sign.length).takeWhile isDigit
        if digits.isEmpty then [] else mark :: sign ++ digits
      else []

def plainNumber (text : Bytes) : Bytes :=
  let whole := text.takeWhile isNumberByte
  let part := fractionPart (text.drop whole.length)
  whole ++ part ++ exponentPart (text.drop (whole.length + part.length))

-- The number at the front of a text that starts with a digit or with a point and a digit.
def numberText (text : Bytes) : Bytes :=
  match text with
  | zero :: x :: rest =>
      if zero == byte '0' && (x == byte 'x' || x == byte 'X') then
        zero :: x :: rest.takeWhile isHexDigit
      else plainNumber text
  | _ => plainNumber text

def startsNumber : Bytes → Bool
  | [] => false
  | b :: rest => isDigit b || (b == byte '.' && (rest.head?.map isDigit).getD false)

def markKind (b : UInt8) : TokenKind :=
  if b == byte '@' then .atSign
  else if b == byte '(' then .leftParen
  else if b == byte ')' then .rightParen
  else if b == byte '[' then .leftBracket
  else if b == byte ']' then .rightBracket
  else if b == openBrace then .leftBrace
  else if b == closeBrace then .rightBrace
  else if b == byte ',' then .comma
  else if b == byte ':' then .colon
  else if b == byte '=' then .assign
  else if b == byte '*' then .star
  else if b == byte '-' then .minus
  else if b == byte '+' then .plus
  else if b == byte '.' then .dot
  else .other

def pairKind? (b next : UInt8) : Option TokenKind :=
  if b == byte '=' && next == byte '=' then some .other
  else if b == byte '*' && next == byte '*' then some .doubleStar
  else none

inductive Piece where
  | gap (raw : Bytes)
  | lexeme (kind : TokenKind) (text raw : Bytes)
  deriving DecidableEq, Repr

namespace Piece

def raw : Piece → Bytes
  | gap raw => raw
  | lexeme _ _ raw => raw

def isInvalid : Piece → Bool
  | lexeme .invalid _ _ => true
  | _ => false

def plain (kind : TokenKind) (raw : Bytes) : Piece := .lexeme kind raw raw

def ofString (quote : UInt8) (after : Bytes) : Piece :=
  let triple := opensTriple quote after
  let opening := closingMark quote triple
  match stringBody? quote triple ((quote :: after).drop opening.length) with
  | some body => .lexeme .string body.content (opening ++ body.raw)
  | none => .lexeme .invalid (quote :: after) (quote :: after)

def ofMark (b : UInt8) (after : Bytes) : Piece :=
  match after with
  | next :: _ =>
      match pairKind? b next with
      | some kind => .plain kind [b, next]
      | none => .plain (markKind b) [b]
  | [] => .plain (markKind b) [b]

def first (b : UInt8) (after : Bytes) : Piece :=
  if isSpace b then .gap [b]
  else if b == byte '#' then .gap (b :: after.takeWhile (· != newline))
  else if isQuote b then .ofString b after
  else if startsNumber (b :: after) then .plain .number (numberText (b :: after))
  else if isWordStart b then .plain .identifier (b :: after.takeWhile isWordByte)
  else .ofMark b after

end Piece

def piecesIn : Nat → Bytes → List Piece
  | 0, _ => []
  | _, [] => []
  | steps + 1, b :: after =>
      let piece := Piece.first b after
      piece :: piecesIn steps ((b :: after).drop piece.raw.length)

/-- The pieces of a text, in order; their written forms together are the text. -/
def pieces (text : Bytes) : List Piece := piecesIn text.length text

def lexemesFrom (offset : Nat) : List Piece → List Token
  | [] => []
  | .gap raw :: rest => lexemesFrom (offset + raw.length) rest
  | .lexeme kind text raw :: rest =>
      ⟨kind, text, offset⟩ :: lexemesFrom (offset + raw.length) rest

def unterminatedFrom (offset : Nat) : List Piece → Option Nat
  | [] => none
  | piece :: rest =>
      if piece.isInvalid then some offset else unterminatedFrom (offset + piece.raw.length) rest

structure TokenScan where
  tokens : List Token
  openString : Option Nat
  deriving DecidableEq, Repr

def scanTokens (text : Bytes) : TokenScan :=
  let parts := pieces text
  let found := lexemesFrom 0 parts
  match unterminatedFrom 0 parts with
  | some offset => ⟨found, some offset⟩
  | none => ⟨found ++ [⟨.finish, [], text.length⟩], none⟩

def openStringMessage (offset : Nat) : Bytes :=
  ascii "unterminated string starting at offset " ++ decimal offset

def depthChange (kind : TokenKind) : Int :=
  if kind.opens then 1 else if kind.closes then -1 else 0

def openBracketDepth (text : Bytes) : Int :=
  let scan := scanTokens text
  match scan.openString with
  | some _ => -1
  | none => scan.tokens.foldl (fun depth token => depth + depthChange token.kind) 0

end EndpointPreview.Notation
