import EndpointPreview.Preview.Network
import EndpointPreview.Settings.Basic

/-!
Execution services: who runs a source for real. A service is asked to launch a
source on a port and answers with a process id, and is asked later to halt what
runs there. The service over HTTP posts JSON; its base URL ends without a slash.
-/

namespace EndpointPreview.Execution

open Text Http

variable [Json.Dialect]

inductive ServiceError where
  | disabled
  | undelivered (error : TransportError)
  | badStatus (status : Int) (reason : Bytes)
  | malformedReply
  | overflowingReply
  | refused (reason : Bytes)
  | noProcessId
  | emptyProcessId
  | unwritableRequest
  | reported (text : Bytes)
  deriving DecidableEq, Repr

def ServiceError.message : ServiceError → Bytes
  | disabled => ascii "execution service disabled"
  | undelivered error => error.message
  | badStatus status reason =>
      beforeZero (ascii "execution service error: " ++ signedDecimal status ++ ascii " " ++ reason)
  | malformedReply => ascii "malformed execution service reply: " ++ Json.failureText
  | overflowingReply => Json.failureText
  | refused reason => beforeZero reason
  | noProcessId => ascii "execution service reply has no processId"
  | emptyProcessId => ascii "execution service returned an empty processId"
  | unwritableRequest => Json.failureText
  | reported text => beforeZero text

def ServiceError.ofRead : Json.ReadError → ServiceError
  | .malformed => malformedReply
  | .overflow => if Json.Dialect.tellsOverflow then overflowingReply else malformedReply

structure HttpService where
  baseUrl : Bytes
  timeoutMs : Int
  deriving DecidableEq, Repr

namespace HttpService

def make (baseUrl : Bytes) (timeoutMs : Int) : HttpService :=
  ⟨dropEndWhile (· == byte '/') baseUrl, timeoutMs⟩

def startPath : Bytes := ascii "/api/start-python-server"
def stopPath : Bytes := ascii "/api/stop-python-server"

def startPayload (source : Bytes) (port : Nat) : Json :=
  .object [(ascii "pythonCode", .str source), (ascii "port", .nat port)]

def stopPayload (port : Nat) : Json := .object [(ascii "port", .nat port)]

def request? (service : HttpService) (path : Bytes) (payload : Json) : Option Request :=
  (Request.postJson? (service.baseUrl ++ path) payload).map fun request =>
    { request with timeoutMs := service.timeoutMs }

end HttpService

def presentMember? (key : String) (value : Json) : Option Json :=
  (value.get? key).filter (!·.isNull)

def plainText : Json → Bytes
  | .str text => text
  | value => value.render

/-- The value of a reply that carries no error; an empty body is an empty object. -/
def readReply (response : Response) : Except ServiceError Json :=
  if !response.isOk then .error (.badStatus response.status response.statusText)
  else if response.body.isEmpty then .ok (.obj [])
  else
    match response.json with
    | .error error => .error (.ofRead error)
    | .ok reply =>
        match presentMember? "error" reply with
        | some reason => .error (.refused (plainText reason))
        | none => .ok reply

def processIdOf (reply : Json) : Except ServiceError Bytes :=
  match presentMember? "processId" reply with
  | none => .error .noProcessId
  | some id => if (plainText id).isEmpty then .error .emptyProcessId else .ok (plainText id)

inductive Service where
  | disabled
  | http (service : HttpService) (transport : Transport)
  | outside (id : Nat)
  deriving DecidableEq, Repr

structure Surroundings (World : Type) where
  send : Preview.Send World
  serviceTransport : Transport := .direct
  describe : Nat → Bytes
  launch : Nat → Bytes → Nat → World → Except ServiceError Bytes × World
  halt : Nat → Nat → World → Except ServiceError Unit × World

namespace Service

variable {World : Type}

def ofSettings (settings : ServiceSettings) (transport : Transport) : Service :=
  if settings.enabled then .http (.make settings.baseUrl settings.timeoutMs) transport
  else .disabled

def describe (around : Surroundings World) : Service → Bytes
  | disabled => ascii "disabled"
  | http service _ => service.baseUrl
  | outside id => around.describe id

def post (around : Surroundings World) (service : HttpService) (transport : Transport)
    (path : Bytes) (payload : Json) (world : World) : Except ServiceError Json × World :=
  match service.request? path payload with
  | none => (.error .unwritableRequest, world)
  | some request =>
      let (answer, after) := around.send transport request world
      ((answer.mapError .undelivered).bind readReply, after)

/-- Asks for the source to be run on the port; the answer is a process id. -/
def launch (around : Surroundings World) (source : Bytes) (port : Nat) (world : World) :
    Service → Except ServiceError Bytes × World
  | disabled => (.error .disabled, world)
  | http service transport =>
      let (reply, after) :=
        post around service transport HttpService.startPath
          (HttpService.startPayload source port) world
      (reply.bind processIdOf, after)
  | outside id => around.launch id source port world

def halt (around : Surroundings World) (port : Nat) (world : World) :
    Service → Except ServiceError Unit × World
  | disabled => (.error .disabled, world)
  | http service transport =>
      let (reply, after) :=
        post around service transport HttpService.stopPath (HttpService.stopPayload port) world
      (reply.map fun _ => (), after)
  | outside id => around.halt id port world

end Service
end EndpointPreview.Execution
