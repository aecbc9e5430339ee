import EndpointPreview.Notation.Parameter
import EndpointPreview.Text.Line

/-!
Headers of function definitions: `def name(parameters):`, optionally with a return
type before the colon and a statement after it. The parameter list may go on over
the following lines.
-/

namespace EndpointPreview.Notation

open Text

structure Header where
  name : Bytes
  parameterText : Bytes
  inlineBody : Bytes
  lineCount : Nat
  deriving DecidableEq, Repr

inductive HeaderProblem where
  | neverClosed (name : Bytes)
  | missingColon (name : Bytes)
  deriving DecidableEq, Repr

def HeaderProblem.message : HeaderProblem → Bytes
  | neverClosed name => ascii "parameter list of '" ++ name ++ ascii "' is never closed"
  | missingColon name => ascii "definition of '" ++ name ++ ascii "' is missing ':'"

inductive HeaderMatch where
  | absent
  | malformed (problem : HeaderProblem)
  | found (header : Header)
  deriving DecidableEq, Repr

def openDefinition? (stripped : Bytes) : Option (Bytes × Bytes) :=
  let after := stripped.drop 3
  let body := after.dropWhile isSpace
  let name := body.takeWhile isWordByte
  let opened := (body.dropWhile isWordByte).dropWhile isSpace
  if startsWith (ascii "def") stripped && (after.head?.map isSpace).getD false &&
      (name.head?.map fun b => !isDigit b).getD false && opened.head? == some (byte '(') then
    some (name, opened)
  else none

-- A text whose first bracket closes after `length` bytes, and the lines it took beyond the first.
structure ClosedList where
  text : Bytes
  length : Nat
  extraLines : Nat
  deriving DecidableEq, Repr

def closeList? (text : Bytes) (extraLines : Nat) : List Bytes → Option ClosedList
  | [] => (closedLength? .outside text).map fun length => ⟨text, length, extraLines⟩
  | line :: later =>
      match closedLength? .outside text with
      | some length => some ⟨text, length, extraLines⟩
      | none => closeList? (text ++ newline :: line) (extraLines + 1) later

/-- The statement after the header's colon; a comment is none. -/
def inlineAfter (text : Bytes) : Bytes :=
  let body := trim text
  if body.head? == some (byte '#') then [] else body

/-- The text after the parameter list goes on with a colon, perhaps behind a return type. -/
def endsHeader (rest : Bytes) : Bool :=
  startsWith (ascii ":") rest || startsWith (ascii "->") rest

def Header.ofClosed (name : Bytes) (closed : ClosedList) : HeaderMatch :=
  let rest := trim (closed.text.drop closed.length)
  match cutAt? (byte ':') rest with
  | some (_, body) =>
      if endsHeader rest then
        .found ⟨name, (closed.text.take (closed.length - 1)).drop 1, inlineAfter body,
          closed.extraLines + 1⟩
      else .malformed (.missingColon name)
  | none => .malformed (.missingColon name)

def Header.read (line : Bytes) (later : List Bytes) : HeaderMatch :=
  match openDefinition? (trim line) with
  | none => .absent
  | some (name, opened) =>
      match closeList? opened 0 later with
      | none => .malformed (.neverClosed name)
      | some closed => Header.ofClosed name closed

end EndpointPreview.Notation
