import EndpointPreview.Http.Dispatcher
import EndpointPreview.Preview.Clock
import EndpointPreview.Preview.Routes

/-!
A simulated network: at most one simulated server, on one loopback port. While it
serves, its interceptor answers requests to that port and hands all others to the
dispatcher's direct transport. The interceptor is installed by the start that finds
the network stopped, and a stop of a serving network puts the direct one back.
-/

namespace EndpointPreview.Preview

open Http

structure Latency where
  minMs : Int
  maxMs : Int
  deriving DecidableEq, Repr

structure LatencyError where
  minMs : Int
  maxMs : Int
  deriving DecidableEq, Repr

def LatencyError.message (error : LatencyError) : Bytes :=
  ascii "invalid latency range [" ++ Text.signedDecimal error.minMs ++ ascii ", " ++
    Text.signedDecimal error.maxMs ++ ascii "]"

def Latency.isValid (latency : Latency) : Bool := 0 ≤ latency.minMs && latency.minMs ≤ latency.maxMs

-- A network serves on a port or is stopped; routes may be set in both states.
structure Network where
  serving : Option Nat
  routes : Routes
  latency : Latency
  deriving BEq, Repr

namespace Network

def stopped (latency : Latency) : Network := ⟨none, [], latency⟩

def isServing (network : Network) : Bool := network.serving.isSome

/-- Starts a server on the port, in place of the one before; `self` is the network's number. -/
def start (self port : Nat) (routes : Routes) (network : Network) (dispatcher : Dispatcher) :
    Network × Dispatcher :=
  ({ network with serving := some port, routes },
    if network.isServing then dispatcher else dispatcher.install (some (.interceptor self)))

-- Stops the server; nothing happens when none runs.
def stop (network : Network) (dispatcher : Dispatcher) : Network × Dispatcher :=
  if network.isServing then ({ network with serving := none, routes := [] }, dispatcher.restore)
  else (network, dispatcher)

def setRoute (path : Bytes) (payload : Json) (network : Network) : Network :=
  { network with routes := network.routes.set path payload }

def setLatency (minMs maxMs : Int) (network : Network) : Except LatencyError Network :=
  if (Latency.mk minMs maxMs).isValid then .ok { network with latency := ⟨minMs, maxMs⟩ }
  else .error ⟨minMs, maxMs⟩

end Network

def genericPayload (now : Millis) (path : Bytes) : Json :=
  .object
    [(ascii "message", .str (ascii "Mock response for " ++ path)),
      (ascii "status", .text "simulated"),
      (ascii "path", .str path),
      (ascii "timestamp", .str (timestamp now))]

def defaultHttpPort : Nat := 80

def Network.addressedBy (network : Network) (url : Url) : Bool :=
  url.isLoopback && network.serving == some (url.port.getD defaultHttpPort)

def Network.payload (now : Millis) (network : Network) (url : Url) : Json :=
  (network.routes.get? url.path).getD (genericPayload now url.path)

/-- The payload for a request; none when the request is not for the simulated server. -/
def Network.intercept? (now : Millis) (network : Network) (request : Request) : Option Json :=
  match Url.parse request.url with
  | .ok url => if network.addressedBy url then some (network.payload now url) else none
  | .error _ => none

def simulatedHeaders : Headers := Headers.ofList
  [(contentType, jsonType),
    (ascii "Access-Control-Allow-Origin", ascii "*"),
    (ascii "Access-Control-Allow-Methods", ascii "GET, POST, PUT, DELETE, OPTIONS"),
    (ascii "Access-Control-Allow-Headers", ascii "Content-Type, Authorization")]

variable [Json.Dialect]

/-- The response with a payload; none when the payload has no JSON text. -/
def simulatedResponse? (payload : Json) : Option Response :=
  (Json.render? payload).map fun body =>
    { status := 200, statusText := ascii "OK", headers := simulatedHeaders, body }

inductive Disposition where
  | simulated (payload : Json)
  | forwarded (transport : Transport)
  deriving BEq, Repr

-- An interceptor answers for its network or passes the request to the direct transport.
def disposition (now : Millis) (networks : Nat → Network) (dispatcher : Dispatcher)
    (request : Request) : Disposition :=
  match dispatcher.active with
  | .interceptor network =>
      match (networks network).intercept? now request with
      | some payload => .simulated payload
      | none => .forwarded .direct
  | transport => .forwarded transport

inductive FetchError where
  | transport (error : TransportError)
  | unwritable
  deriving DecidableEq, Repr

abbrev Send (World : Type) := Transport → Request → World → Except TransportError Response × World

def fetch {World : Type} (send : Send World) (now : Millis) (networks : Nat → Network)
    (dispatcher : Dispatcher) (request : Request) (world : World) :
    Except FetchError Response × World :=
  match disposition now networks dispatcher request with
  | .simulated payload =>
      match simulatedResponse? payload with
      | some response => (.ok response, world)
      | none => (.error .unwritable, world)
  | .forwarded transport =>
      let (answer, after) := send transport request world
      (answer.mapError .transport, after)

end EndpointPreview.Preview
