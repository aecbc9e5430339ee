import EndpointPreview.Text.Bytes

/-!
Parameter lists. Commas, the default's `=` and the end of a list count only
outside brackets and quotes; `Nesting` is what has to be remembered of the text
read so far to tell.
-/

namespace EndpointPreview.Notation

open Text

structure Nesting where
  depth : Int
  quote : Option UInt8
  escaped : Bool
  deriving DecidableEq, Repr

def isOpening (b : UInt8) : Bool := b == byte '(' || b == byte '[' || b == openBrace
def isClosing (b : UInt8) : Bool := b == byte ')' || b == byte ']' || b == closeBrace

namespace Nesting

def outside : Nesting := ⟨0, none, false⟩

def step (state : Nesting) (b : UInt8) : Nesting :=
  match state.quote with
  | some quote =>
      if state.escaped then { state with escaped := false }
      else if b == backslash then { state with escaped := true }
      else if b == quote then { state with quote := none }
      else state
  | none =>
      if b == singleQuote || b == doubleQuote then { state with quote := some b }
      else if isOpening b then { state with depth := state.depth + 1 }
      else if isClosing b then { state with depth := state.depth - 1 }
      else state

def atTop (state : Nesting) : Bool := state.depth == 0 && state.quote.isNone

end Nesting

def closedLength? (state : Nesting) : Bytes → Option Nat
  | [] => none
  | b :: rest =>
      if (state.step b).depth == 0 && isClosing b && state.quote.isNone then some 1
      else (closedLength? (state.step b) rest).map (· + 1)

/-- The parts between top-level commas; always at least one. -/
def splitTopFrom (state : Nesting) : Bytes → List Bytes
  | [] => [[]]
  | b :: rest =>
      if b == byte ',' && state.atTop then [] :: splitTopFrom state rest
      else match splitTopFrom (state.step b) rest with
        | [] => [[b]]
        | part :: later => (b :: part) :: later

def splitTopLevel (text : Bytes) : List Bytes := splitTopFrom .outside text

def isComparison (b : UInt8) : Bool :=
  b == byte '=' || b == byte '<' || b == byte '>' || b == byte '!'

-- What stands before and after the first top-level `=` that is part of no comparison.
def splitDefaultFrom (state : Nesting) (previous : Option UInt8) : Bytes → Option (Bytes × Bytes)
  | [] => none
  | b :: rest =>
      if b == byte '=' && state.atTop && rest.head? != some (byte '=') &&
          !(previous.map isComparison).getD false then
        some ([], rest)
      else (splitDefaultFrom (state.step b) (some b) rest).map
        fun (before, after) => (b :: before, after)

def splitDefault? (text : Bytes) : Option (Bytes × Bytes) := splitDefaultFrom .outside none text

inductive ParameterKind where
  | required
  | defaulted
  | variadicPositional
  | variadicKeyword
  deriving DecidableEq, Repr

def ParameterKind.name : ParameterKind → Bytes
  | required => ascii "required"
  | defaulted => ascii "defaulted"
  | variadicPositional => ascii "variadic-positional"
  | variadicKeyword => ascii "variadic-keyword"

-- A parameter as declared; the default is unevaluated text.
structure Parameter where
  name : Bytes
  kind : ParameterKind
  default : Option Bytes
  typeText : Option Bytes
  deriving DecidableEq, Repr

namespace Parameter

def nonEmpty (text : Bytes) : Option Bytes := if text.isEmpty then none else some text

def declared (kind : ParameterKind) (default : Option Bytes) (declaration : Bytes) : Parameter :=
  match cutAt? (byte ':') declaration with
  | none => ⟨trim declaration, kind, default, none⟩
  | some (name, typeText) => ⟨trim name, kind, default, nonEmpty (trim typeText)⟩

def isSeparator (part : Bytes) : Bool := part == ascii "*" || part == ascii "/"

def ofPart (part : Bytes) : Parameter :=
  match splitDefault? part with
  | some (declaration, default) => declared .defaulted (some (trim default)) declaration
  | none =>
      if startsWith (ascii "**") part then declared .variadicKeyword none (part.drop 2)
      else if startsWith (ascii "*") part then declared .variadicPositional none (part.drop 1)
      else declared .required none part

def parse (text : Bytes) : List Parameter :=
  (((splitTopLevel text).map trim).filter fun part =>
    !part.isEmpty && !isSeparator part).map ofPart

end Parameter
end EndpointPreview.Notation
