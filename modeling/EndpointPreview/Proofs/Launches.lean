import EndpointPreview.Proofs.SimulatedAnswers

/-!
Where a launch ends. Whatever stood on the port and whatever the execution service answers, the
port then holds a server that runs the text which the service was asked to run: the process that
the service named, or a simulation when the service failed. The other ports keep what they had.
-/

namespace EndpointPreview.Execution

open Text Http Preview

variable {World : Type}

namespace Orchestrator

variable [Json.Dialect]

/-- The answer of the service to a launch of the text on the port, and the world after it. What
stood on the port is stopped before the service is asked. -/
def asked (around : Surroundings World) (port : Nat) (text : Bytes)
    (state : Orchestrator) (world : World) : Except ServiceError Bytes × World :=
  state.service.launch around text port (state.stop around port world).2

def launcherOf (service : Service) : Except ServiceError Bytes → Option Service
  | .ok _ => some service
  | .error _ => none

structure Answers (port : Nat) (text : Bytes) (answer : Except ServiceError Bytes)
    (server : Instance) : Prop where
  own_port : server.port = port
  source : server.source = text
  delegated : ∀ id, server.kind = .delegated ∧ server.processId? = some id ↔ answer = .ok id
  simulated : server.kind = .simulated ↔ ∃ error, answer = .error error

theorem launch_answers (around : Surroundings World) (now : Millis) (source : Bytes)
    (port : Nat) (state : Orchestrator) (world : World) :
    let answer := (state.service.launch around (executable source) port world).1
    Answers port (executable source) answer (state.launch around now source port world).1.1 ∧
      (state.launch around now source port world).1.2 = launcherOf state.service answer := by
  unfold launch
  dsimp only
  generalize state.service.launch around (executable source) port world = result
  obtain ⟨error | id, after⟩ := result
  · refine ⟨⟨rfl, rfl, fun id => ?_, ?_⟩, rfl⟩
    · simp [Instance.kind]
    · exact ⟨fun _ => ⟨error, rfl⟩, fun _ => rfl⟩
  · refine ⟨⟨rfl, rfl, fun other => ?_, ?_⟩, rfl⟩
    · simp [Instance.kind, Instance.processId?]
    · simp [Instance.kind]

-- The text was handed to the service, and the server that follows from the answer is registered.
structure Lands (around : Surroundings World) (port : Nat) (text : Bytes)
    (before : Orchestrator) (world : World) (after : Orchestrator × World) : Prop where
  registered : ∃ server, after.1.get? port = some server ∧
    Answers port text (before.asked around port text world).1 server
  launcher : after.1.launcher? port =
    launcherOf before.service (before.asked around port text world).1
  world : after.2 = (before.asked around port text world).2
  -- Neither the instances of the other ports change nor the services that launched them.
  others : ∀ other ≠ port, after.1.get? other = before.get? other ∧
    after.1.launcher? other = before.launcher? other

theorem launch_others (around : Surroundings World) (now : Millis) (source : Bytes)
    (port : Nat) (state : Orchestrator) (world : World) (other : Nat) :
    (state.launch around now source port world).2.1.get? other = state.get? other ∧
      (state.launch around now source port world).2.1.launcher? other = state.launcher? other := by
  obtain ⟨instances, launchers⟩ := state.launch_tables around now source port world
  unfold get? launcher?
  rw [instances, launchers]
  exact ⟨rfl, rfl⟩

theorem startOn_lands (around : Surroundings World) (now : Millis) (source : Bytes)
    (port : Nat) (state : Orchestrator) (world : World) :
    Lands around port (executable source) state world
      (state.startOn around now source port world) := by
  obtain ⟨service, _⟩ := stop_settings around port state world
  have stopped_get (other : Nat) := state.stop_get? around port world other
  have stopped_launcher (other : Nat) := state.stop_launcher?_other around port other world
  rw [startOn_eq]
  generalize stopping : state.stop around port world = stopped
    at service stopped_get stopped_launcher ⊢
  obtain ⟨later, world'⟩ := stopped
  have asking : state.asked around port (executable source) world =
      later.service.launch around (executable source) port world' := by
    rw [asked, stopping, service]
  obtain ⟨answers, launcher⟩ := later.launch_answers around now source port world'
  have after := later.launch_world around now source port world'
  have kept := later.launch_others around now source port world'
  rw [← asking] at answers launcher after
  dsimp only
  generalize later.launch around now source port world' = launched at answers launcher after kept ⊢
  obtain ⟨⟨server, byService⟩, last, world''⟩ := launched
  constructor
  · exact ⟨server, last.register_get? port server byService, answers⟩
  · rw [← service]
    exact (last.register_launcher? port server byService).trans launcher
  · exact after
  · intro other different
    obtain ⟨get, launcher_kept⟩ := kept other
    rw [last.register_get?_other port other server byService different,
      last.register_launcher?_other port other server byService different, get, launcher_kept,
      stopped_get, if_neg different]
    exact ⟨rfl, stopped_launcher other different⟩

/-- A launch on a given port ends in a server there, however the service answers. -/
theorem start_lands (around : Surroundings World) (now : Millis) (source : Bytes)
    (port : Nat) (state : Orchestrator) (world : World) :
    (state.start around now source (some port) world).1 = .ok port ∧
      Lands around port (executable source) state world
        (state.start around now source (some port) world).2 :=
  ⟨rfl, startOn_lands around now source port state world⟩

end Orchestrator
end EndpointPreview.Execution
