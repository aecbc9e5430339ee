import EndpointPreview.Json.Value
import EndpointPreview.Notation.Decorator
import EndpointPreview.Notation.Header

/-!
Reading source text. A function is a header and the block of blank or deeper
indented lines after it, without the blank lines at its end. A decorator binds to
the next function only; without one the function is a helper. What cannot be read
is reported and skipped.
-/

namespace EndpointPreview.Notation

open Text

structure Endpoint where
  name : Bytes
  route : Bytes
  method : Bytes
  parameters : List Parameter
  body : Bytes
  line : Nat
  headerLines : Int
  inlineBody : Bytes
  deriving DecidableEq, Repr

structure Helper where
  name : Bytes
  parameters : List Parameter
  body : Bytes
  line : Nat
  deriving DecidableEq, Repr

inductive DropReason where
  | anotherDecorator
  | notBeforeDefinition
  | endOfInput
  deriving DecidableEq, Repr

def DropReason.message : DropReason → Bytes
  | anotherDecorator => ascii "followed by another @endpoint decorator"
  | notBeforeDefinition => ascii "not followed by a plain def"
  | endOfInput => ascii "no function follows before end of input"

inductive DiagnosticCause where
  | dropped (route : Bytes) (reason : DropReason)
  | unrecognized (error : DecoratorError)
  | header (problem : HeaderProblem)
  deriving DecidableEq, Repr

def DiagnosticCause.message : DiagnosticCause → Bytes
  | dropped route reason =>
      ascii "@endpoint('" ++ route ++ ascii "') ignored: " ++ reason.message
  | unrecognized error => ascii "unrecognized @endpoint decorator: " ++ error.message
  | header problem => problem.message

structure Diagnostic where
  line : Nat
  cause : DiagnosticCause
  deriving DecidableEq, Repr

def Diagnostic.message (diagnostic : Diagnostic) : Bytes := diagnostic.cause.message

inductive Finding where
  | endpoint (endpoint : Endpoint)
  | helper (helper : Helper)
  | diagnostic (diagnostic : Diagnostic)
  deriving DecidableEq, Repr

namespace Finding

def endpoint? : Finding → Option Endpoint
  | endpoint found => some found
  | _ => none

def helper? : Finding → Option Helper
  | helper found => some found
  | _ => none

def diagnostic? : Finding → Option Diagnostic
  | diagnostic found => some found
  | _ => none

end Finding

structure ParsedSource where
  endpoints : List Endpoint
  helpers : List Helper
  diagnostics : List Diagnostic
  deriving DecidableEq, Repr

def ParsedSource.empty : ParsedSource := ⟨[], [], []⟩

def ParsedSource.ofFindings (findings : List Finding) : ParsedSource :=
  ⟨findings.filterMap Finding.endpoint?, findings.filterMap Finding.helper?,
    findings.filterMap Finding.diagnostic?⟩

def continuesBlock (depth : Nat) (line : Bytes) : Bool := isBlank line || depth < indent line

structure Block where
  rows : List Bytes
  laterLines : Nat
  deriving DecidableEq, Repr

-- The block of a function whose header takes `extraLines` lines after its first.
def Block.take (line : Bytes) (extraLines : Nat) (later : List Bytes) : Block :=
  let body := (later.drop extraLines).takeWhile (continuesBlock (indent line))
  ⟨dropBlankEnd (line :: later.take extraLines ++ body), extraLines + body.length⟩

structure Pending where
  decorator : Decorator
  line : Nat
  deriving DecidableEq, Repr

def dropPending (pending : Option Pending) (reason : DropReason) : List Finding :=
  match pending with
  | none => []
  | some waiting => [.diagnostic ⟨waiting.line, .dropped waiting.decorator.route reason⟩]

def functionFinding (pending : Option Pending) (lineNumber : Nat) (header : Header)
    (block : Block) : Finding :=
  match pending with
  | some waiting =>
      .endpoint
        { name := header.name
          route := waiting.decorator.route
          method := waiting.decorator.method
          parameters := Parameter.parse header.parameterText
          body := unlines block.rows
          line := lineNumber
          headerLines := header.lineCount
          inlineBody := header.inlineBody }
  | none =>
      .helper
        { name := header.name
          parameters := Parameter.parse header.parameterText
          body := unlines block.rows
          line := lineNumber }

def keepsPending (stripped : Bytes) : Bool :=
  stripped.isEmpty || startsWith (ascii "#") stripped || startsWith (ascii "@") stripped

def findingsFrom (lineNumber : Nat) (pending : Option Pending) : List Bytes → List Finding
  | [] => dropPending pending .endOfInput
  | line :: later =>
      if startsWithMarker (trim line) then
        match Decorator.ofLine (trim line) with
        | .ok decorator =>
            dropPending pending .anotherDecorator ++
              findingsFrom (lineNumber + 1) (some ⟨decorator, lineNumber⟩) later
        | .error error =>
            .diagnostic ⟨lineNumber, .unrecognized error⟩ ::
              findingsFrom (lineNumber + 1) pending later
      else match Header.read line later with
        | .found header =>
            let block := Block.take line (header.lineCount - 1) later
            functionFinding pending lineNumber header block ::
              findingsFrom (lineNumber + 1 + block.laterLines) none (later.drop block.laterLines)
        | .malformed problem =>
            .diagnostic ⟨lineNumber, .header problem⟩ :: findingsFrom (lineNumber + 1) none later
        | .absent =>
            if keepsPending (trim line) then findingsFrom (lineNumber + 1) pending later
            else
              dropPending pending .notBeforeDefinition ++ findingsFrom (lineNumber + 1) none later
termination_by rows => rows.length
decreasing_by
  all_goals simp only [List.length_cons, List.length_drop]
  all_goals omega

def findings (source : Bytes) : List Finding := findingsFrom 1 none (lines source)

def parse (source : Bytes) : ParsedSource := .ofFindings (findings source)

namespace Parameter

def toJson (parameter : Parameter) : Json :=
  .object
    [(ascii "name", .str parameter.name),
      (ascii "kind", .str parameter.kind.name),
      (ascii "required", .bool (parameter.kind == .required)),
      (ascii "defaultValue", .ofOption .str parameter.default),
      (ascii "annotation", .ofOption .str parameter.typeText)]

def listToJson (parameters : List Parameter) : Json := .arr (parameters.map toJson)

end Parameter

def Endpoint.members (endpoint : Endpoint) : Json.Members :=
  [(ascii "name", .str endpoint.name),
    (ascii "route", .str endpoint.route),
    (ascii "methods", .arr [.str endpoint.method]),
    (ascii "parameters", Parameter.listToJson endpoint.parameters),
    (ascii "body", .str endpoint.body),
    (ascii "line", .nat endpoint.line)]

def Endpoint.toJson (endpoint : Endpoint) : Json := .object endpoint.members

def Helper.toJson (helper : Helper) : Json :=
  .object
    [(ascii "name", .str helper.name),
      (ascii "parameters", Parameter.listToJson helper.parameters),
      (ascii "body", .str helper.body),
      (ascii "line", .nat helper.line)]

def Diagnostic.toJson (diagnostic : Diagnostic) : Json :=
  .object
    [(ascii "line", .nat diagnostic.line), (ascii "message", .str diagnostic.message)]

def ParsedSource.toJson (parsed : ParsedSource) : Json :=
  .object
    [(ascii "endpoints", .arr (parsed.endpoints.map Endpoint.toJson)),
      (ascii "helperRoutines", .arr (parsed.helpers.map Helper.toJson)),
      (ascii "diagnostics", .arr (parsed.diagnostics.map Diagnostic.toJson))]

end EndpointPreview.Notation
