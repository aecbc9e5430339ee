import EndpointPreview.Execution.Instance
import EndpointPreview.Execution.Service
import EndpointPreview.Notation.Module
import EndpointPreview.Notation.Validation

/-!
Launching sources as servers. A launch is delegated to the execution service, and
when that fails for any reason the source is simulated. Both ways end in one
registered instance a port. The registry changes in short steps, each of which
happens at once; `start`, `stop` and `stopAll` run them one after the other.
-/

namespace EndpointPreview.Execution

open Text Http Preview

variable [Json.Dialect]

structure Orchestrator where
  service : Service
  instances : List (Nat × Instance)
  launchers : List (Nat × Service)
  nextPort : Nat
  overrides : Routes
  network : Network
  dispatcher : Dispatcher
  deriving Repr

def portLess (a b : Nat) : Bool := a < b

def maxPort : Nat := 65535

inductive StartError where
  | noFreePort
  deriving DecidableEq, Repr

def StartError.message : StartError → Bytes
  | noFreePort => ascii "no free port left above the port base"

namespace Orchestrator

variable {World : Type}

def networkId : Nat := 0

def make (service : Service) (settings : Settings) (network : Network)
    (dispatcher : Dispatcher) : Orchestrator :=
  { service
    instances := []
    launchers := []
    nextPort := settings.portBase
    overrides := settings.simulation.responses
    network
    dispatcher }

def initial (transport : Transport) : Orchestrator :=
  make (.ofSettings {} transport) {} (.stopped ({} : SimulationSettings).latency) .fresh

def get? (port : Nat) (state : Orchestrator) : Option Instance :=
  Table.find? portLess port state.instances

def launcher? (port : Nat) (state : Orchestrator) : Option Service :=
  Table.find? portLess port state.launchers

def isRunning (port : Nat) (state : Orchestrator) : Bool := (state.get? port).isSome

def active (state : Orchestrator) : List Instance := state.instances.map Prod.snd

/-- The first port from `port` on that is not taken, or the one after the last. -/
def firstFree (taken : Nat → Bool) (port : Nat) : Nat :=
  if port ≤ maxPort ∧ taken port = true then firstFree taken (port + 1) else port
termination_by maxPort + 1 - port

def allocate (state : Orchestrator) : Option Nat × Orchestrator :=
  let port := firstFree (state.isRunning ·) state.nextPort
  if port ≤ maxPort then (some port, { state with nextPort := port + 1 })
  else (none, { state with nextPort := port })

def setService (service : Service) (state : Orchestrator) : Orchestrator := { state with service }

def apply (transport : Transport) (settings : Settings) (state : Orchestrator) : Orchestrator :=
  { state with
    service := .ofSettings settings.service transport
    nextPort := settings.portBase
    overrides := settings.simulation.responses
    network := { state.network with latency := settings.simulation.latency } }

def configure (around : Surroundings World) (settings : Settings) (state : Orchestrator) :
    Except SettingsError Orchestrator :=
  settings.validate.map fun _ => state.apply around.serviceTransport settings

/-- Takes the instance of a port out of the registry, with the service that launched it. -/
def withdraw (port : Nat) (state : Orchestrator) :
    Option (Instance × Option Service) × Orchestrator :=
  match state.get? port with
  | none => (none, state)
  | some server =>
      (some (server, state.launcher? port),
        { state with
          instances := Table.erase portLess port state.instances
          launchers := Table.erase portLess port state.launchers })

def register (port : Nat) (server : Instance) (launcher : Option Service)
    (state : Orchestrator) : Orchestrator :=
  { state with
    instances := Table.set portLess port server state.instances
    launchers :=
      match launcher with
      | some service => Table.set portLess port service state.launchers
      | none => Table.erase portLess port state.launchers }

def startNetwork (port : Nat) (routes : Routes) (state : Orchestrator) : Orchestrator :=
  let (network, dispatcher) := state.network.start networkId port routes state.dispatcher
  { state with network, dispatcher }

def stopNetwork (state : Orchestrator) : Orchestrator :=
  let (network, dispatcher) := state.network.stop state.dispatcher
  { state with network, dispatcher }

def stopNetworkOn (port : Nat) (state : Orchestrator) : Orchestrator :=
  if state.network.serving == some port then state.stopNetwork else state

/-- Ends what stood behind a withdrawn instance; a service that fails is passed over. -/
def release (around : Surroundings World) (port : Nat) (server : Instance)
    (launcher : Option Service) (state : Orchestrator) (world : World) : Orchestrator × World :=
  match server.kind, launcher with
  | .delegated, some service => (state, (service.halt around port world).2)
  | _, _ => (state.stopNetworkOn port, world)

/-- Stops the instance of a port; nothing happens when there is none. -/
def stop (around : Surroundings World) (port : Nat) (state : Orchestrator) (world : World) :
    Orchestrator × World :=
  match state.withdraw port with
  | (none, state) => (state, world)
  | (some (server, launcher), state) => state.release around port server launcher world

def stopEach (around : Surroundings World) :
    List Nat → Orchestrator → World → Orchestrator × World
  | [], state, world => (state, world)
  | port :: rest, state, world =>
      let (state, world) := state.stop around port world
      stopEach around rest state world

-- Stops every instance and then the simulated server, should it still run.
def stopAll (around : Surroundings World) (state : Orchestrator) (world : World) :
    Orchestrator × World :=
  let (state, world) := stopEach around (state.instances.map Prod.fst) state world
  (state.stopNetwork, world)

def executable (source : Bytes) : Bytes :=
  if Notation.hasMarker source then Notation.renderModule (Notation.parse source) else source

def transformedReason (report : Notation.ValidationReport) : Bytes :=
  decimal report.parsed.endpoints.length ++ ascii " endpoint(s), " ++
    decimal report.parsed.helpers.length ++ ascii " helper(s)" ++
    (if report.isValid then [] else ascii ", source has errors")

def openingSteps (source : Bytes) : List LaunchStep :=
  ⟨.received, decimal source.length ++ ascii " bytes of source"⟩ ::
    (if Notation.hasMarker source then
      [⟨.transformed, transformedReason (Notation.validateNotation source)⟩]
    else [])

def delegatedSteps (id : Bytes) : List LaunchStep := [⟨.delegated, ascii "process " ++ id⟩]

def simulatedSteps (error : ServiceError) (routes : Routes) : List LaunchStep :=
  [⟨.fallingBack, error.message⟩,
    ⟨.simulated, decimal routes.length ++ ascii " canned route(s)"⟩]

def launch (around : Surroundings World) (now : Millis) (source : Bytes) (port : Nat)
    (state : Orchestrator) (world : World) :
    (Instance × Option Service) × Orchestrator × World :=
  let server (backing : Backing) (closing : List LaunchStep) : Instance :=
    { port
      source := executable source
      startedAt := now
      backing
      log := openingSteps source ++ ⟨.delegating, state.service.describe around⟩ :: closing }
  match state.service.launch around (executable source) port world with
  | (.ok id, world) =>
      ((server (.process id) (delegatedSteps id), some state.service), state, world)
  | (.error error, world) =>
      let routes := routesOf source state.overrides
      ((server .simulation (simulatedSteps error routes), none),
        state.startNetwork port routes, world)

def startOn (around : Surroundings World) (now : Millis) (source : Bytes) (port : Nat)
    (state : Orchestrator) (world : World) : Orchestrator × World :=
  let (state, world) :=
    if state.isRunning port then state.stop around port world else (state, world)
  let ((server, launcher), state, world) := state.launch around now source port world
  (state.register port server launcher, world)

-- Launches on the given port or on one that is handed out, and tells which it is.
def start (around : Surroundings World) (now : Millis) (source : Bytes) (port : Option Nat)
    (state : Orchestrator) (world : World) :
    Except StartError Nat × Orchestrator × World :=
  match port with
  | some port => (.ok port, state.startOn around now source port world)
  | none =>
      match state.allocate with
      | (some port, state) => (.ok port, state.startOn around now source port world)
      | (none, state) => (.error .noFreePort, state, world)

def fetch (around : Surroundings World) (now : Millis) (request : Request)
    (state : Orchestrator) (world : World) : Except FetchError Response × World :=
  Preview.fetch around.send now (fun _ => state.network) state.dispatcher request world

end Orchestrator
end EndpointPreview.Execution
