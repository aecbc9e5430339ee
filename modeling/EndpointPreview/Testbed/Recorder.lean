import EndpointPreview.Execution.Service

/-!
Stand-ins for what lies outside: a transport that records requests and answers them
all alike, a transport that reaches nobody, and a service that records what it was
asked. A bench holds some of each, known by their numbers.
-/

namespace EndpointPreview.Testbed

open Text Http Execution

structure Recorder where
  answer : Except TransportError Response
  requests : List Request

namespace Recorder

def response (status : Int) (body : Bytes) : Response :=
  { status
    statusText := if status = 200 then ascii "OK" else ascii "Error"
    headers := [(contentType, jsonType)]
    body }

inductive Script where
  | respond (status : Int) (body : Bytes)
  | fail (text : Bytes)

def Script.answer : Script → Except TransportError Response
  | respond status body => .ok (response status body)
  | fail text => .error (.reported text)

def fresh : Recorder := ⟨(Script.respond 200 (ascii "\x7b\x7d")).answer, []⟩

def follow (script : Script) (recorder : Recorder) : Recorder :=
  { recorder with answer := script.answer }

def send (request : Request) (recorder : Recorder) :
    Except TransportError Response × Recorder :=
  (recorder.answer, { recorder with requests := recorder.requests ++ [request] })

end Recorder

/-- The parts of a numeric address: bytes, and a last one that fills the rest of four. -/
def areAddressParts (left : Nat) : List Nat → Bool
  | [] => false
  | [last] => last < Nat.pow 256 left
  | part :: rest => 1 < left && part < 256 && areAddressParts (left - 1) rest

def isAddress (host : Bytes) : Bool :=
  host == ascii "localhost" ||
    (((splitAt (byte '.') host).mapM Numeral.whole?).map (areAddressParts 4)).getD false

def isLongAddress (host : Bytes) : Bool :=
  1 < host.count (byte ':') && host.all fun b => isHexDigit b || b == byte ':' || b == byte '.'

def isName (host : Bytes) : Bool :=
  !host.isEmpty && host.all fun b => isWordByte b || b == byte '-' || b == byte '.'

/-- Why nobody can be reached without a network; a host ends at its first zero byte. -/
def unreached (url : Url) : TransportError :=
  let host := beforeZero url.host
  if isAddress host then
    .noConnection url.host url.effectivePort (ascii "Network is unreachable")
  else if isLongAddress host then
    .noConnection url.host url.effectivePort (ascii "Cannot assign requested address")
  else if isName host then
    .noAddress url.host (ascii "Temporary failure in name resolution")
  else .noAddress url.host (ascii "Name or service not known")

def refusal (request : Request) : TransportError :=
  match request.wire with
  | .error error => error
  | .ok (url, _) => unreached url

inductive Line where
  | recorded (recorder : Recorder)
  | closed

namespace Line

def send (request : Request) : Line → Except TransportError Response × Line
  | recorded recorder =>
      let (answer, after) := recorder.send request
      (answer, .recorded after)
  | closed => (.error (refusal request), .closed)

def requests : Line → List Request
  | recorded recorder => recorder.requests
  | closed => []

def follow (script : Recorder.Script) : Line → Line
  | recorded recorder => .recorded (recorder.follow script)
  | closed => .closed

end Line

structure Double where
  processId : Bytes := ascii "proc-1"
  startError : Option Bytes := none
  stopError : Option Bytes := none
  starts : List (Nat × Bytes) := []
  stops : List Nat := []

namespace Double

def failing (failure : Option Bytes) (value : α) : Except ServiceError α :=
  match failure with
  | some text => .error (.reported text)
  | none => .ok value

def launch (source : Bytes) (port : Nat) (double : Double) : Except ServiceError Bytes × Double :=
  (failing double.startError double.processId,
    { double with starts := double.starts ++ [(port, source)] })

def halt (port : Nat) (double : Double) : Except ServiceError Unit × Double :=
  (failing double.stopError (), { double with stops := double.stops ++ [port] })

end Double

structure Bench where
  direct : Line
  lines : List Line := []
  doubles : List Double := []

namespace Bench

def send : Preview.Send Bench
  | .direct, request, bench =>
      let (answer, line) := bench.direct.send request
      (answer, { bench with direct := line })
  | .outside id, request, bench =>
      let (answer, line) := (bench.lines.getD id .closed).send request
      (answer, { bench with lines := bench.lines.set id line })
  | .interceptor _, request, bench => (.error (refusal request), bench)

def launch (id : Nat) (source : Bytes) (port : Nat) (bench : Bench) :
    Except ServiceError Bytes × Bench :=
  let (answer, double) := (bench.doubles.getD id {}).launch source port
  (answer, { bench with doubles := bench.doubles.set id double })

def halt (id port : Nat) (bench : Bench) : Except ServiceError Unit × Bench :=
  let (answer, double) := (bench.doubles.getD id {}).halt port
  (answer, { bench with doubles := bench.doubles.set id double })

/-- The surroundings of a bench, with the transport of services that settings describe. -/
def surroundings (serviceTransport : Transport) : Surroundings Bench :=
  { send, serviceTransport, launch, halt, describe := fun _ => ascii "fake" }

def addLine (line : Line) (bench : Bench) : Transport × Bench :=
  (.outside bench.lines.length, { bench with lines := bench.lines ++ [line] })

def addDouble (double : Double) (bench : Bench) : Service × Bench :=
  (.outside bench.doubles.length, { bench with doubles := bench.doubles ++ [double] })

def follow (script : Recorder.Script) (transport : Transport) (bench : Bench) : Bench :=
  match transport with
  | .direct => { bench with direct := bench.direct.follow script }
  | .outside id => { bench with lines := bench.lines.modify id (·.follow script) }
  | .interceptor _ => bench

def requests (transport : Transport) (bench : Bench) : List Request :=
  match transport with
  | .direct => bench.direct.requests
  | .outside id => (bench.lines.getD id .closed).requests
  | .interceptor _ => []

end Bench
end EndpointPreview.Testbed
