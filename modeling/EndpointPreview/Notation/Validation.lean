import EndpointPreview.Notation.Source

/-!
Checks of a source. Errors make it invalid, warnings do not. Decorator notation is
checked by what was parsed from it, conventional source by the fragments it has to
contain.
-/

namespace EndpointPreview.Notation

open Text

structure ValidationReport where
  isValid : Bool
  errors : List Bytes
  warnings : List Bytes
  parsed : ParsedSource
  deriving DecidableEq, Repr

def ValidationReport.make (errors warnings : List Bytes) (parsed : ParsedSource) :
    ValidationReport := ⟨errors.isEmpty, errors, warnings, parsed⟩

def ValidationReport.toJson (report : ValidationReport) : Json :=
  .object
    [(ascii "isValid", .bool report.isValid),
      (ascii "errors", .arr (report.errors.map .str)),
      (ascii "warnings", .arr (report.warnings.map .str)),
      (ascii "parsed", report.parsed.toJson)]

def declaresTwice (kind : ParameterKind) (parameters : List Parameter) : Bool :=
  1 < parameters.countP fun parameter => parameter.kind == kind

def variadicErrors (name : Bytes) (parameters : List Parameter) : List Bytes :=
  (if declaresTwice .variadicPositional parameters then
    [ascii "Function '" ++ name ++ ascii "' declares more than one *args parameter"] else []) ++
  (if declaresTwice .variadicKeyword parameters then
    [ascii "Function '" ++ name ++ ascii "' declares more than one **kwargs parameter"] else [])

def duplicateErrors (seen : List Bytes) (endpoint : Endpoint) : List Bytes :=
  if seen.contains endpoint.name then [ascii "Duplicate function name: " ++ endpoint.name] else []

def routeErrors (endpoint : Endpoint) : List Bytes :=
  if startsWith (ascii "/") endpoint.route then []
  else [ascii "Endpoint \"" ++ endpoint.route ++ ascii "\" should start with \"/\""]

def methodWarnings (endpoint : Endpoint) : List Bytes :=
  if endpoint.method == defaultMethod then []
  else
    [ascii "Endpoint \"" ++ endpoint.name ++ ascii "\" declares methods [" ++ endpoint.method ++
      ascii "]; generated routes do not restrict methods"]

def endpointErrors (seen : List Bytes) : List Endpoint → List Bytes
  | [] => []
  | endpoint :: rest =>
      duplicateErrors seen endpoint ++ routeErrors endpoint ++
        variadicErrors endpoint.name endpoint.parameters ++
        endpointErrors (endpoint.name :: seen) rest

def helperErrors (helper : Helper) : List Bytes := variadicErrors helper.name helper.parameters

def diagnosticWarning (diagnostic : Diagnostic) : Bytes :=
  ascii "Line " ++ decimal diagnostic.line ++ ascii ": " ++ diagnostic.message

def emptyWarnings (parsed : ParsedSource) : List Bytes :=
  if parsed.endpoints.isEmpty then [ascii "No @endpoint decorators found"] else []

def checkParsed (parsed : ParsedSource) : ValidationReport :=
  .make (endpointErrors [] parsed.endpoints ++ parsed.helpers.flatMap helperErrors)
    (emptyWarnings parsed ++ parsed.endpoints.flatMap methodWarnings ++
      parsed.diagnostics.map diagnosticWarning)
    parsed

def validateNotation (source : Bytes) : ValidationReport := checkParsed (parse source)

def complainUnless (present : Bool) (complaint : String) : List Bytes :=
  if present then [] else [ascii complaint]

def validateConventional (source : Bytes) : ValidationReport :=
  let has (fragment : String) : Bool := contains (ascii fragment) source
  .make
    (complainUnless (has "from flask import" || has "import flask") "Missing Flask import" ++
      complainUnless (has "app = Flask") "Missing Flask app initialization")
    (complainUnless (has "@app.route") "No routes defined" ++
      complainUnless (has "app.run") "No app.run() call found")
    .empty

def validate (source : Bytes) : ValidationReport :=
  if hasMarker source then validateNotation source else validateConventional source

end EndpointPreview.Notation
