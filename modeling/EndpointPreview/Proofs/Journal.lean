import EndpointPreview.Execution.Orchestrator

/-!
Runs of an orchestrator and their journals. A run is a list of operations, each of which
changes the orchestrator and the world. Its journal tells which services were called and
which instances left the registry, in order; performing its calls one after the other
leads from the world before to the world after, so no call is left out or made up.
-/

namespace EndpointPreview.Execution

open Text Http Preview

variable {World : Type}

structure StopOrder where
  arrange : List Nat → List Nat
  perm : ∀ ports, (arrange ports).Perm ports

def StopOrder.byPort : StopOrder := ⟨id, fun ports => .refl ports⟩

inductive Operation where
  | start (now : Millis) (source : Bytes) (port : Option Nat)
  | stop (port : Nat)
  | stopAll (order : StopOrder)
  | allocate
  | configure (settings : Settings)
  | setService (service : Service)

namespace Orchestrator

def ports (state : Orchestrator) : List Nat := state.instances.map Prod.fst

def stopAllIn [Json.Dialect] (around : Surroundings World) (order : StopOrder)
    (state : Orchestrator) (world : World) : Orchestrator × World :=
  let (state, world) := stopEach around (order.arrange state.ports) state world
  (state.stopNetwork, world)

theorem stopAll_byPort [Json.Dialect] (around : Surroundings World) (state : Orchestrator)
    (world : World) : state.stopAllIn around .byPort world = state.stopAll around world := rfl

end Orchestrator

/-- The state and the world after an operation; settings that are not valid change nothing. -/
def Operation.run [Json.Dialect] (around : Surroundings World) (operation : Operation)
    (state : Orchestrator) (world : World) : Orchestrator × World :=
  match operation with
  | start now source port => (state.start around now source port world).2
  | stop port => state.stop around port world
  | stopAll order => state.stopAllIn around order world
  | allocate => (state.allocate.2, world)
  | configure settings =>
      match state.configure around settings with
      | .ok configured => (configured, world)
      | .error _ => (state, world)
  | setService service => (state.setService service, world)

inductive Event where
  -- A service is asked to run a source, given as it was submitted.
  | launched (service : Service) (port : Nat) (source : Bytes)
      (answer : Except ServiceError Bytes)
  | withdrawn (port : Nat)
  | halted (service : Service) (port : Nat) (answer : Except ServiceError Unit)

def Event.port : Event → Nat
  | launched _ port _ _ => port
  | withdrawn port => port
  | halted _ port _ => port

namespace Orchestrator

def stopEvents [Json.Dialect] (around : Surroundings World) (port : Nat) (state : Orchestrator)
    (world : World) : List Event :=
  match state.get? port with
  | none => []
  | some server =>
      .withdrawn port ::
        match server.kind, state.launcher? port with
        | .delegated, some service => [.halted service port (service.halt around port world).1]
        | _, _ => []

def stopEachEvents [Json.Dialect] (around : Surroundings World) :
    List Nat → Orchestrator → World → List Event
  | [], _, _ => []
  | port :: rest, state, world =>
      let (later, world') := state.stop around port world
      state.stopEvents around port world ++ stopEachEvents around rest later world'

def startOnEvents [Json.Dialect] (around : Surroundings World) (source : Bytes) (port : Nat)
    (state : Orchestrator) (world : World) : List Event :=
  let (later, world') := state.stop around port world
  state.stopEvents around port world ++
    [.launched later.service port source
      (later.service.launch around (executable source) port world').1]

def startEvents [Json.Dialect] (around : Surroundings World) (source : Bytes) (port : Option Nat)
    (state : Orchestrator) (world : World) : List Event :=
  match port with
  | some port => state.startOnEvents around source port world
  | none =>
      match state.allocate with
      | (some port, state) => state.startOnEvents around source port world
      | (none, _) => []

end Orchestrator

def Operation.events [Json.Dialect] (around : Surroundings World) (operation : Operation)
    (state : Orchestrator) (world : World) : List Event :=
  match operation with
  | start _ source port => state.startEvents around source port world
  | stop port => state.stopEvents around port world
  | stopAll order => Orchestrator.stopEachEvents around (order.arrange state.ports) state world
  | allocate => []
  | configure _ => []
  | setService _ => []

structure Scene (World : Type) where
  state : Orchestrator
  world : World
  journal : List Event

namespace Scene

def initial (service : Service) (settings : Settings) (latency : Latency) (world : World) :
    Scene World :=
  ⟨.make service settings (.stopped latency) .fresh, world, []⟩

def after [Json.Dialect] (around : Surroundings World) (operation : Operation)
    (scene : Scene World) : Scene World :=
  let (state, world) := operation.run around scene.state scene.world
  ⟨state, world, scene.journal ++ operation.events around scene.state scene.world⟩

def run [Json.Dialect] (around : Surroundings World) (operations : List Operation)
    (scene : Scene World) : Scene World :=
  operations.foldl (fun scene operation => scene.after around operation) scene

end Scene

-- Performing the calls among the events, with these answers, leads from one world to the other.
inductive Happens [Json.Dialect] (around : Surroundings World) : World → List Event → World →
    Prop where
  | nothing (world : World) : Happens around world [] world
  | launched (service : Service) (port : Nat) (source : Bytes) {world last : World}
      {later : List Event}
      (rest : Happens around (service.launch around (Orchestrator.executable source) port world).2
        later last) :
      Happens around world
        (.launched service port source
          (service.launch around (Orchestrator.executable source) port world).1 :: later) last
  | withdrawn (port : Nat) {world last : World} {later : List Event}
      (rest : Happens around world later last) :
      Happens around world (.withdrawn port :: later) last
  | halted (service : Service) (port : Nat) {world last : World} {later : List Event}
      (rest : Happens around (service.halt around port world).2 later last) :
      Happens around world (.halted service port (service.halt around port world).1 :: later) last

theorem Happens.append [Json.Dialect] {around : Surroundings World} {first middle last : World}
    {events later : List Event} (before : Happens around first events middle)
    (after : Happens around middle later last) : Happens around first (events ++ later) last := by
  induction before with
  | nothing => exact after
  | launched service port source _ ih => exact .launched service port source (ih after)
  | withdrawn port _ ih => exact .withdrawn port (ih after)
  | halted service port _ ih => exact .halted service port (ih after)

namespace Orchestrator

variable [Json.Dialect]

theorem stop_happens (around : Surroundings World) (port : Nat)
    (state : Orchestrator) (world : World) :
    Happens around world (state.stopEvents around port world) (state.stop around port world).2 := by
  unfold stopEvents stop withdraw
  cases state.get? port with
  | none => exact .nothing world
  | some server =>
      apply Happens.withdrawn
      unfold release
      dsimp only
      cases server.kind with
      | simulated => exact .nothing world
      | delegated =>
          cases state.launcher? port with
          | none => exact .nothing world
          | some service => exact .halted service port (.nothing _)

theorem stopEach_happens (around : Surroundings World) (ports : List Nat)
    (state : Orchestrator) (world : World) :
    Happens around world (stopEachEvents around ports state world)
      (stopEach around ports state world).2 := by
  induction ports generalizing state world with
  | nil => exact .nothing world
  | cons port ports ih => exact (stop_happens around port state world).append (ih _ _)

-- Stopping a port without an instance does nothing, so a start may always stop first.
theorem startOn_eq (around : Surroundings World) (now : Millis) (source : Bytes)
    (port : Nat) (state : Orchestrator) (world : World) :
    state.startOn around now source port world =
      let (later, world') := state.stop around port world
      let ((server, launcher), last, world'') := later.launch around now source port world'
      (last.register port server launcher, world'') := by
  unfold startOn isRunning
  cases found : state.get? port with
  | none =>
      have idle : state.stop around port world = (state, world) := by
        simp [stop, withdraw, found]
      rw [idle]
      rfl
  | some server => rfl

theorem launch_world (around : Surroundings World) (now : Millis) (source : Bytes)
    (port : Nat) (state : Orchestrator) (world : World) :
    (state.launch around now source port world).2.2 =
      (state.service.launch around (executable source) port world).2 := by
  unfold launch
  dsimp only
  generalize state.service.launch around (executable source) port world = answer
  obtain ⟨answer | id, world⟩ := answer <;> rfl

theorem startOn_happens (around : Surroundings World) (now : Millis) (source : Bytes)
    (port : Nat) (state : Orchestrator) (world : World) :
    Happens around world (state.startOnEvents around source port world)
      (state.startOn around now source port world).2 := by
  have launching := launch_world around now source port (state.stop around port world).1
    (state.stop around port world).2
  rw [startOn_eq]
  refine (stop_happens around port state world).append (.launched _ port source ?_)
  dsimp only
  rw [launching]
  exact .nothing _

theorem start_happens (around : Surroundings World) (now : Millis) (source : Bytes)
    (port : Option Nat) (state : Orchestrator) (world : World) :
    Happens around world (state.startEvents around source port world)
      (state.start around now source port world).2.2 := by
  unfold startEvents start
  cases port with
  | some port => exact startOn_happens around now source port state world
  | none =>
      obtain ⟨handed | port, later⟩ := state.allocate
      · exact .nothing world
      · exact startOn_happens around now source port later world

end Orchestrator

theorem operation_happens [Json.Dialect] (around : Surroundings World) (operation : Operation)
    (state : Orchestrator) (world : World) :
    Happens around world (operation.events around state world)
      (operation.run around state world).2 := by
  cases operation with
  | start now source port => exact state.start_happens around now source port world
  | stop port => exact state.stop_happens around port world
  | stopAll order => exact Orchestrator.stopEach_happens around _ state world
  | allocate => exact .nothing world
  | configure settings =>
      unfold Operation.run
      dsimp only
      cases state.configure around settings <;> exact .nothing world
  | setService service => exact .nothing world

theorem run_happens [Json.Dialect] (around : Surroundings World) (operations : List Operation)
    (scene : Scene World) (first : World)
    (happened : Happens around first scene.journal scene.world) :
    Happens around first (scene.run around operations).journal (scene.run around operations).world := by
  induction operations generalizing scene with
  | nil => exact happened
  | cons operation operations ih =>
      apply ih (scene.after around operation)
      exact happened.append (operation_happens around operation scene.state scene.world)

end EndpointPreview.Execution
