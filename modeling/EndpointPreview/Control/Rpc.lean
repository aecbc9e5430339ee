import EndpointPreview.Control.Command
import EndpointPreview.Http.Framing

/-!
The control service: one request on a connection, one reply. A POST to `/rpc` with a
JSON object that names a command runs it. A request that does not arrive whole gets
no reply.
-/

namespace EndpointPreview.Control.Rpc

open Text Http Execution

variable [Json.Dialect]

structure Call where
  method : Bytes
  path : Bytes
  body : Bytes
  deriving DecidableEq, Repr

def nextWord (text : Bytes) : Bytes × Bytes :=
  let word := text.dropWhile isSpace
  (word.takeWhile (!isSpace ·), word.dropWhile (!isSpace ·))

def requestLine (headers : Bytes) : Bytes := chompReturn (headers.takeWhile (· != newline))

/-- The body of the declared length; none when less arrived. -/
def bodyOf (declared : Option Int) (arrived : Bytes) : Option Bytes :=
  match declared with
  | none => some []
  | some n =>
      if n ≤ 0 then some []
      else if n.toNat ≤ arrived.length then some (arrived.take n.toNat)
      else none

def Call.ofChunks (chunks : List Bytes) : Option Call :=
  match readHeaders chunks with
  | .incomplete _ => none
  | .complete headers extra later =>
      let (method, rest) := nextWord (requestLine headers)
      (bodyOf (contentLength? headers) (extra ++ readAll later)).map fun body =>
        { method, path := (nextWord rest).1, body }

def Call.isControl (call : Call) : Bool :=
  call.method == ascii "POST" && (call.path == ascii "/rpc" || call.path == ascii "/rpc/")

inductive Status where
  | ok
  | badRequest
  | notFound
  | failed
  deriving DecidableEq, Repr

def Status.code : Status → Nat
  | ok => 200
  | badRequest => 400
  | notFound => 404
  | failed => 500

def Status.reason : Status → Bytes
  | ok => ascii "OK"
  | badRequest => ascii "Bad Request"
  | notFound => ascii "Not Found"
  | failed => ascii "Internal Server Error"

structure Reply where
  status : Status
  body : Bytes
  deriving DecidableEq, Repr

def Reply.wire (reply : Reply) : Bytes :=
  ascii "HTTP/1.0 " ++ decimal reply.status.code ++ ascii " " ++ reply.status.reason ++ lineEnd ++
  headerLine contentType jsonType ++
  headerLine (ascii "Content-Length") (decimal reply.body.length) ++
  headerLine (ascii "Connection") (ascii "close") ++ lineEnd ++ reply.body

def errorReply (status : Status) (message : Bytes) : Reply :=
  ⟨status, (Json.object [member "ok" (.bool false), member "error" (.str message)]).render⟩

def wrongTarget : Reply := errorReply .notFound (ascii "Only POST /rpc is supported")

def notObject : Reply := errorReply .badRequest (ascii "request body is not a JSON object")

def jsonFailure : Reply := errorReply .failed (unforeseen Json.failureText)

-- The reply with an answer; one without JSON text is a failure.
def answerReply (outcome : Outcome) : Reply :=
  match Json.render? (answerJson outcome) with
  | some body => ⟨if outcome.isOk then .ok else .failed, body⟩
  | none => jsonFailure

def outcomeReply : Outcome → Reply
  | .error error =>
      if error.interrupts then errorReply .failed (unforeseen error.message)
      else answerReply (.error error)
  | outcome => answerReply outcome

/-- The name of the command, empty when there is none; a name has to be a string. -/
def commandName? (members : Json.Members) : Option Bytes :=
  match param? "command" members with
  | none => some []
  | some (.str name) => some name
  | some _ => none

-- The parameters of the command, an empty object when there are none.
def commandParams (members : Json.Members) : Json := (param? "params" members).getD (.obj [])

def Call.filePath? (call : Call) : Option Bytes :=
  match Json.read? call.body with
  | some (.obj members) =>
      match commandParams members with
      | .obj params => Control.filePath? params
      | _ => none
  | _ => none

variable {World : Type}

def answer (context : Context World) (call : Call) (state : Orchestrator) (world : World) :
    Reply × Orchestrator × World :=
  if !call.isControl then (wrongTarget, state, world)
  else
    match Json.read? call.body with
    | some (.obj members) =>
        match commandName? members with
        | none => (jsonFailure, state, world)
        | some name =>
            let (outcome, state, world) :=
              Command.dispatch context name (commandParams members) state world
            (outcomeReply outcome, state, world)
    | _ => (notObject, state, world)

def serve (context : Context World) (chunks : List Bytes) (state : Orchestrator) (world : World) :
    Option Reply × Orchestrator × World :=
  match Call.ofChunks chunks with
  | none => (none, state, world)
  | some call =>
      let (reply, state, world) := answer context call state world
      (some reply, state, world)

end EndpointPreview.Control.Rpc
