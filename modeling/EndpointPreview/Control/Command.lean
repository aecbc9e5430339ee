import EndpointPreview.Execution.Orchestrator

/-!
Commands that drive an orchestrator. A command has a name and an object of
parameters; its answer is an object that says whether it succeeded and, if not, why.
A command that is refused leaves the registered servers as they are. A file name that
is too long, or a parameter that should be sent as JSON and has no JSON text, interrupts
a command: it has no answer, and who ran it reports the failure.
-/

namespace EndpointPreview.Control

open Text Http Execution

variable [Json.Dialect]

inductive FileRead where
  | missing
  | unreadable
  | nameTooLong
  | contents (text : Bytes)
  deriving DecidableEq, Repr

-- The surroundings of a command, the files it may read and the time it is run at.
structure Context (World : Type) extends Surroundings World where
  fileAt : Bytes → FileRead
  now : Preview.Millis

inductive CommandError where
  | paramsNotObject
  | unknownCommand
  | notString (field : String)
  | missingSource
  | missingFile (path : Bytes)
  | unreadableFile (path : Bytes)
  | longFileName (path : Bytes)
  | portNotInteger
  | portRange
  | missingPort
  | missingUrl
  | badTimeout
  | noPort (error : StartError)
  | undelivered (error : TransportError)
  | unwritableResponse
  | unwritableParam
  deriving DecidableEq, Repr

def unforeseen (text : Bytes) : Bytes := ascii "exception: " ++ text

def CommandError.message : CommandError → Bytes
  | paramsNotObject => ascii "params must be an object"
  | unknownCommand => ascii "unknown command"
  | notString field => ascii field ++ ascii " must be a string"
  | missingSource => ascii "missing source or file"
  | missingFile path => ascii "file not found: " ++ path
  | unreadableFile path => ascii "cannot read file: " ++ path
  | longFileName path =>
      beforeZero (ascii "filesystem error: status: File name too long [" ++ path ++ ascii "]")
  | portNotInteger => ascii "port must be an integer"
  | portRange => ascii "port out of range"
  | missingPort => ascii "missing port"
  | missingUrl => ascii "missing url"
  | badTimeout => ascii "timeout_ms must be a non-negative integer"
  | noPort error => unforeseen error.message
  | undelivered error => error.message
  | unwritableResponse => unforeseen Json.failureText
  | unwritableParam => Json.failureText

def CommandError.interrupts : CommandError → Bool
  | longFileName _ => true
  | unwritableParam => true
  | _ => false

def param? (key : String) (params : Json.Members) : Option Json := Json.member? (ascii key) params

def stringParam (key : String) (default : Bytes) (params : Json.Members) :
    Except CommandError Bytes :=
  match param? key params with
  | none | some .null => .ok default
  | some (.str text) => .ok text
  | some _ => .error (.notString key)

def readSource (fileAt : Bytes → FileRead) (path : Bytes) : Except CommandError Bytes :=
  if path.isEmpty then .error .missingSource
  else
    match fileAt path with
    | .missing => .error (.missingFile path)
    | .unreadable => .error (.unreadableFile path)
    | .nameTooLong => .error (.longFileName path)
    | .contents text => .ok text

/-- The source that the parameters give as text, or else the one in the file they name. -/
def sourceParam (fileAt : Bytes → FileRead) (params : Json.Members) :
    Except CommandError Bytes :=
  match param? "source" params with
  | some (.str source) => .ok source
  | some _ => .error (.notString "source")
  | none => (stringParam "file" [] params).bind (readSource fileAt)

def filePath? (params : Json.Members) : Option Bytes :=
  match param? "source" params, param? "file" params with
  | none, some (.str path) => some path
  | _, _ => none

/-- The port parameter; none when it is absent or null. -/
def portParam (params : Json.Members) : Except CommandError (Option Nat) :=
  match param? "port" params with
  | none | some .null => .ok none
  | some (.int n) => if Settings.isPort n then .ok (some n.toNat) else .error .portRange
  | some _ => .error .portNotInteger

def requiredPort (params : Json.Members) : Except CommandError Nat :=
  (portParam params).bind fun port => port.elim (.error .missingPort) .ok

/-- The text that is sent for a value; one that is no string is sent as JSON. -/
def sentText (value : Json) : Except CommandError Bytes :=
  match value with
  | .str text => .ok text
  | value => value.render?.elim (.error .unwritableParam) .ok

def withBody (params : Json.Members) (request : Request) : Except CommandError Request :=
  match param? "body" params with
  | none => .ok request
  | some (.str text) => .ok { request with body := text }
  | some value =>
      (sentText value).map fun body =>
        { request with body, headers := request.headers.set contentType jsonType }

def setHeaders (request : Request) : Json.Members → Except CommandError Request
  | [] => .ok request
  | (name, value) :: later =>
      (sentText value).bind fun text =>
        setHeaders { request with headers := request.headers.set name text } later

def withHeaders (params : Json.Members) (request : Request) : Except CommandError Request :=
  match param? "headers" params with
  | some (.obj members) => setHeaders request members
  | _ => .ok request

def withTimeout (params : Json.Members) (request : Request) : Except CommandError Request :=
  match param? "timeout_ms" params with
  | none | some .null => .ok request
  | some (.int n) =>
      if 0 ≤ n ∧ n < Numeral.limit64 then .ok { request with timeoutMs := n } else .error .badTimeout
  | some _ => .error .badTimeout

def requestParam (params : Json.Members) : Except CommandError Request := do
  let url ← stringParam "url" [] params
  if url.isEmpty then throw .missingUrl
  let method ← stringParam "method" (ascii "GET") params
  let request ← withBody params { method, url }
  let request ← withHeaders params request
  withTimeout params request

-- The members of the answer to a command that succeeds, besides the success itself.
abbrev Outcome := Except CommandError Json.Members

def answerJson : Outcome → Json
  | .ok members => .object ((ascii "ok", .bool true) :: members)
  | .error error => .object [(ascii "ok", .bool false), (ascii "error", .str error.message)]

/-- What a command returns to who ran it: its code, which is zero when it succeeds, and its answer.
A command that is interrupted returns nothing. -/
def returned? : Outcome → Option (Nat × Json)
  | .ok members => some (0, answerJson (.ok members))
  | .error error => if error.interrupts then none else some (1, answerJson (.error error))

def member (name : String) (value : Json) : Bytes × Json := (ascii name, value)

def serverMember (server : Option Instance) : Json.Members :=
  server.toList.map fun server => member "server" server.toJson

def responseMembers (response : Response) : Json.Members :=
  [member "status" (.int response.status),
    member "headers" (.object (response.headers.map fun entry => (entry.1, .str entry.2))),
    member "body" (.str response.body)] ++
  response.json?.toList.map (member "json")

inductive Command where
  | start
  | stop
  | stopAll
  | status
  | list
  | validate
  | parse
  | generate
  | fetch
  deriving DecidableEq, Repr

namespace Command

def all : List Command :=
  [start, stop, stopAll, status, list, validate, parse, generate, fetch]

def name : Command → Bytes
  | start => ascii "start"
  | stop => ascii "stop"
  | stopAll => ascii "stop_all"
  | status => ascii "status"
  | list => ascii "list"
  | validate => ascii "validate"
  | parse => ascii "parse"
  | generate => ascii "generate"
  | fetch => ascii "fetch"

def ofName? (name : Bytes) : Option Command := all.find? (·.name == name)

variable {World : Type}

/-! Commands that only look. -/

def statusOutcome (params : Json.Members) (state : Orchestrator) : Outcome := do
  let port ← requiredPort params
  return [member "port" (.nat port), member "running" (.bool (state.isRunning port))] ++
    serverMember (state.get? port)

def listOutcome (state : Orchestrator) : Outcome :=
  .ok [member "servers" (.arr (state.active.map Instance.toJson))]

def validateOutcome (fileAt : Bytes → FileRead) (params : Json.Members) : Outcome := do
  let source ← sourceParam fileAt params
  return [member "report" (Notation.validate source).toJson]

def parseOutcome (fileAt : Bytes → FileRead) (params : Json.Members) : Outcome := do
  let source ← sourceParam fileAt params
  return [member "parsed" (Notation.parse source).toJson]

def generateOutcome (fileAt : Bytes → FileRead) (params : Json.Members) : Outcome := do
  let source ← sourceParam fileAt params
  let parsed := Notation.parse source
  return [member "code" (.str (Notation.renderModule parsed)),
    member "endpoints" (.nat parsed.endpoints.length)]

/-! Commands that act. -/

def withParams (params : Except CommandError α) (state : Orchestrator) (world : World)
    (act : α → Outcome × Orchestrator × World) : Outcome × Orchestrator × World :=
  match params with
  | .ok value => act value
  | .error error => (.error error, state, world)

def startParams (fileAt : Bytes → FileRead) (params : Json.Members) :
    Except CommandError (Bytes × Option Nat) := do
  let source ← sourceParam fileAt params
  let port ← portParam params
  return (source, port)

def performStart (context : Context World) (source : Bytes) (port : Option Nat)
    (state : Orchestrator) (world : World) : Outcome × Orchestrator × World :=
  match state.start context.toSurroundings context.now source port world with
  | (.error error, state, world) => (.error (.noPort error), state, world)
  | (.ok port, state, world) =>
      (.ok (member "port" (.nat port) :: serverMember (state.get? port)), state, world)

def performStop (context : Context World) (port : Nat) (state : Orchestrator) (world : World) :
    Outcome × Orchestrator × World :=
  (.ok [member "port" (.nat port), member "stopped" (.bool (state.isRunning port))],
    state.stop context.toSurroundings port world)

def performStopAll (context : Context World) (state : Orchestrator) (world : World) :
    Outcome × Orchestrator × World :=
  (.ok [member "stopped" (.nat state.instances.length)],
    state.stopAll context.toSurroundings world)

def fetchError : Preview.FetchError → CommandError
  | .transport error => .undelivered error
  | .unwritable => .unwritableResponse

def fetchOutcome (answer : Except Preview.FetchError Response) : Outcome :=
  (answer.map responseMembers).mapError fetchError

def performFetch (context : Context World) (request : Request) (state : Orchestrator)
    (world : World) : Outcome × Orchestrator × World :=
  let (answer, world) := state.fetch context.toSurroundings context.now request world
  (fetchOutcome answer, state, world)

def perform (context : Context World) (command : Command) (params : Json.Members)
    (state : Orchestrator) (world : World) : Outcome × Orchestrator × World :=
  match command with
  | start => withParams (startParams context.fileAt params) state world fun (source, port) =>
      performStart context source port state world
  | stop => withParams (requiredPort params) state world fun port =>
      performStop context port state world
  | stopAll => performStopAll context state world
  | status => (statusOutcome params state, state, world)
  | list => (listOutcome state, state, world)
  | validate => (validateOutcome context.fileAt params, state, world)
  | parse => (parseOutcome context.fileAt params, state, world)
  | generate => (generateOutcome context.fileAt params, state, world)
  | fetch => withParams (requestParam params) state world fun request =>
      performFetch context request state world

def dispatch (context : Context World) (name : Bytes) (params : Json) (state : Orchestrator)
    (world : World) : Outcome × Orchestrator × World :=
  match params with
  | .obj members =>
      match ofName? name with
      | some command => command.perform context members state world
      | none => (.error .unknownCommand, state, world)
  | _ => (.error .paramsNotObject, state, world)

end Command
end EndpointPreview.Control
