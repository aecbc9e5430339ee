import EndpointPreview.Notation.Token

/-!
The decorator that marks an endpoint: `@endpoint(ROUTE)` or
`@endpoint(ROUTE, methods=[METHOD])` with quoted, non-empty texts. Reading stops at
the first token that does not fit and says what was wanted there.
-/

namespace EndpointPreview.Notation

structure Decorator where
  route : Bytes
  method : Bytes
  deriving DecidableEq, Repr

inductive DecoratorError where
  | openString
  | ended (wanted : Bytes)
  | unexpected (wanted found : Bytes)
  | emptyRoute
  | severalMethods
  | emptyMethod
  | trailing (found : Bytes)
  deriving DecidableEq, Repr

namespace DecoratorError

def message : DecoratorError → Bytes
  | openString => ascii "unterminated string literal"
  | ended wanted => ascii "expected " ++ wanted ++ ascii " but the line ended"
  | unexpected wanted found =>
      ascii "expected " ++ wanted ++ ascii " but found '" ++ found ++ ascii "'"
  | emptyRoute => ascii "route must not be empty"
  | severalMethods => ascii "only one method per decorator is supported"
  | emptyMethod => ascii "method must not be empty"
  | trailing found => ascii "unexpected '" ++ found ++ ascii "' after decorator"

end DecoratorError

/-- The tokens that remain; a list that is used up stands at its finish. -/
abbrev TokenRest := List Token

def nextKind : TokenRest → TokenKind
  | [] => .finish
  | token :: _ => token.kind

def nextText : TokenRest → Bytes
  | [] => []
  | token :: _ => token.text

def mismatch (wanted : Bytes) (tokens : TokenRest) : DecoratorError :=
  if nextKind tokens = .finish then .ended wanted else .unexpected wanted (nextText tokens)

def takeKind (kind : TokenKind) (wanted : String) (tokens : TokenRest) :
    Except DecoratorError (Bytes × TokenRest) :=
  if nextKind tokens = kind then .ok (nextText tokens, tokens.drop 1)
  else if nextKind tokens = .invalid then .error .openString
  else .error (mismatch (ascii wanted) tokens)

def takeName (name : String) (tokens : TokenRest) : Except DecoratorError TokenRest :=
  if nextKind tokens = .identifier ∧ nextText tokens = ascii name then .ok (tokens.drop 1)
  else .error (mismatch (ascii "'" ++ ascii name ++ ascii "'") tokens)

def takeMethod (tokens : TokenRest) : Except DecoratorError (Bytes × TokenRest) := do
  let tokens ← takeName "methods" tokens
  let (_, tokens) ← takeKind .assign "'='" tokens
  let (_, tokens) ← takeKind .leftBracket "'['" tokens
  let (method, tokens) ← takeKind .string "a quoted method" tokens
  if nextKind tokens = .comma then throw .severalMethods
  let (_, tokens) ← takeKind .rightBracket "']'" tokens
  if method = [] then throw .emptyMethod
  return (method, tokens)

def defaultMethod : Bytes := ascii "GET"

-- The method of the decorator when a comma follows the route, else the default one.
def takeMethodPart (tokens : TokenRest) : Except DecoratorError (Bytes × TokenRest) :=
  if nextKind tokens = .comma then takeMethod (tokens.drop 1) else .ok (defaultMethod, tokens)

namespace Decorator

def ofTokens (tokens : TokenRest) : Except DecoratorError Decorator := do
  let (_, tokens) ← takeKind .atSign "'@'" tokens
  let tokens ← takeName "endpoint" tokens
  let (_, tokens) ← takeKind .leftParen "'('" tokens
  let (route, tokens) ← takeKind .string "a quoted route" tokens
  if route = [] then throw .emptyRoute
  let (method, tokens) ← takeMethodPart tokens
  let (_, tokens) ← takeKind .rightParen "')'" tokens
  if nextKind tokens ≠ .finish then throw (.trailing (nextText tokens))
  return ⟨route, method⟩

def ofLine (line : Bytes) : Except DecoratorError Decorator := ofTokens (scanTokens line).tokens

end Decorator

def marker : Bytes := ascii "@endpoint"

def startsWithMarker (line : Bytes) : Bool :=
  Text.startsWith marker line &&
    ((line.drop marker.length).head?.map fun b => !Text.isWordByte b).getD true

def hasMarker (source : Bytes) : Bool := Text.contains marker source

end EndpointPreview.Notation
