import EndpointPreview.Notation.Literal

/-!
The literal that an endpoint returns: that of its first `return` at the indentation
of its first body line. A literal that goes on over several lines is joined until
its brackets balance.
-/

namespace EndpointPreview.Notation

open Text

def returnWord : Bytes := ascii "return"

def isReturn (stripped : Bytes) : Bool :=
  startsWith returnWord stripped &&
    ((stripped.drop returnWord.length).head?.map fun b => !isWordByte b).getD true

def returned (statement : Bytes) : Bytes := trim (statement.drop returnWord.length)

def jsonifyCall : Bytes := ascii "jsonify("

-- The argument when the expression is one `jsonify` call, else the expression.
def unwrapJsonify (expression : Bytes) : Bytes :=
  if startsWith jsonifyCall expression && expression.getLast? == some (byte ')') then
    (expression.drop jsonifyCall.length).dropLast
  else expression

variable [Json.Dialect]

/-- The value of a returned expression; a bare `return` has none. -/
def expressionLiteral? (expression : Bytes) : Option Json :=
  if expression.isEmpty then none else literal? (unwrapJsonify expression)

def joinUntilBalanced (expression : Bytes) : List Bytes → Bytes
  | [] => expression
  | line :: later =>
      if openBracketDepth expression = 0 then expression
      else joinUntilBalanced (expression ++ newline :: line) later

def returnAt (base : Nat) : List Bytes → Option Json
  | [] => none
  | line :: later =>
      if !isBlank line && indent line == base && isReturn (trim line) then
        expressionLiteral? (trim (joinUntilBalanced (returned (trim line)) later))
      else returnAt base later

-- The literal of the first `return` at the indentation of the first line with text.
def returnIn (rows : List Bytes) : Option Json :=
  match rows.find? (!isBlank ·) with
  | none => none
  | some first => returnAt (indent first) rows

def Endpoint.returnLiteral? (endpoint : Endpoint) : Option Json :=
  if isReturn endpoint.inlineBody then expressionLiteral? (returned endpoint.inlineBody)
  else returnIn ((lines endpoint.body).drop endpoint.headerLines.toNat)

end EndpointPreview.Notation
