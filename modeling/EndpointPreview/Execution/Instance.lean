import EndpointPreview.Json.Value
import EndpointPreview.Preview.Clock

/-!
A launched server: what runs on a port, since when, and the steps its launch took.
A delegated server is a process of an execution service and a simulated one lives
on the simulated network.
-/

namespace EndpointPreview.Execution

inductive LaunchStage where
  | received
  | transformed
  | delegating
  | delegated
  | fallingBack
  | simulated
  deriving DecidableEq, Repr

def LaunchStage.name : LaunchStage → Bytes
  | received => ascii "received"
  | transformed => ascii "transformed"
  | delegating => ascii "delegating"
  | delegated => ascii "delegated"
  | fallingBack => ascii "falling-back"
  | simulated => ascii "simulated"

structure LaunchStep where
  stage : LaunchStage
  reason : Bytes
  deriving DecidableEq, Repr

inductive ServerKind where
  | delegated
  | simulated
  deriving DecidableEq, Repr

def ServerKind.name : ServerKind → Bytes
  | delegated => ascii "delegated"
  | simulated => ascii "simulated"

inductive Backing where
  | process (id : Bytes)
  | simulation
  deriving DecidableEq, Repr

structure Instance where
  port : Nat
  source : Bytes
  startedAt : Preview.Millis
  backing : Backing
  log : List LaunchStep
  deriving DecidableEq, Repr

namespace Instance

def kind (server : Instance) : ServerKind :=
  match server.backing with
  | .process _ => .delegated
  | .simulation => .simulated

def processId? (server : Instance) : Option Bytes :=
  match server.backing with
  | .process id => some id
  | .simulation => none

def stepToJson (step : LaunchStep) : Json :=
  .object [(ascii "stage", .str step.stage.name), (ascii "reason", .str step.reason)]

def toJson (server : Instance) : Json :=
  .object
    [(ascii "port", .nat server.port),
      (ascii "kind", .str server.kind.name),
      (ascii "status", .text "running"),
      (ascii "startedAt", .nat server.startedAt),
      (ascii "processId", .ofOption .str server.processId?),
      (ascii "launchLog", .arr (server.log.map stepToJson))]

end Instance
end EndpointPreview.Execution
