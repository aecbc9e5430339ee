import EndpointPreview.Proofs.Reachability
import EndpointPreview.StrictFormats

/-!
Ports that are handed out. The counter moves up past ports that are taken and past each port that
it hands out, and nothing but a new configuration moves it back; so until then no port is handed
out twice, whatever is started or stopped in between, and the ports end at the last one.
-/

namespace EndpointPreview.Execution

open Text Http Preview

variable {World : Type}

namespace Orchestrator

structure SearchEnds (taken : Nat → Bool) (port found : Nat) : Prop where
  onward : port ≤ found
  -- The search goes at most one past the last port, unless it starts beyond.
  bounded : found ≤ max port (maxPort + 1)
  passed : ∀ other, port ≤ other → other < found → other ≤ maxPort ∧ taken other = true
  free : found ≤ maxPort → taken found = false

theorem firstFree_ends (taken : Nat → Bool) (port : Nat) :
    SearchEnds taken port (firstFree taken port) := by
  fun_induction firstFree taken port with
  | case1 port going ih =>
      obtain ⟨valid, occupied⟩ := going
      obtain ⟨onward, bounded, passed, free⟩ := ih
      refine ⟨by omega, by omega, ?_, free⟩
      intro other above below
      by_cases same : other = port
      · subst same
        exact ⟨valid, occupied⟩
      · exact passed other (by omega) below
  | case2 port stops =>
      refine ⟨Nat.le_refl port, Nat.le_max_left port _, ?_, ?_⟩
      · intro other above below
        omega
      · intro valid
        exact Bool.eq_false_iff.mpr fun occupied => stops ⟨valid, occupied⟩

inductive Allocates (state : Orchestrator) : Option Nat × Orchestrator → Prop where
  | handed (port : Nat) (onward : state.nextPort ≤ port) (valid : port ≤ maxPort)
      (free : state.isRunning port = false) :
      Allocates state (some port, { state with nextPort := port + 1 })
  | refused (nextPort : Nat) (onward : state.nextPort ≤ nextPort) (past : maxPort < nextPort)
      (bounded : nextPort ≤ max state.nextPort (maxPort + 1))
      (taken : ∀ port, state.nextPort ≤ port → port ≤ maxPort → state.isRunning port = true) :
      Allocates state (none, { state with nextPort })

theorem allocate_allocates (state : Orchestrator) : Allocates state state.allocate := by
  have search := firstFree_ends (state.isRunning ·) state.nextPort
  unfold allocate
  dsimp only
  generalize firstFree (state.isRunning ·) state.nextPort = found at search
  by_cases valid : found ≤ maxPort
  · rw [if_pos valid]
    exact .handed found search.onward valid (search.free valid)
  · rw [if_neg valid]
    refine .refused found search.onward (by omega) search.bounded ?_
    intro port above within
    exact (search.passed port above (by omega)).2

namespace Allocates

variable {state : Orchestrator} {result : Option Nat × Orchestrator}

theorem counter (allocates : Allocates state result) :
    state.nextPort ≤ result.2.nextPort ∧ result.2.nextPort ≤ max state.nextPort (maxPort + 1) := by
  cases allocates with
  | handed port onward valid free =>
      exact ⟨Nat.le_succ_of_le onward,
        Nat.le_trans (Nat.succ_le_succ valid) (Nat.le_max_right _ _)⟩
  | refused nextPort onward past bounded taken => exact ⟨onward, bounded⟩

theorem of_some {port : Nat} (allocates : Allocates state result)
    (some_handed : result.1 = some port) :
    state.nextPort ≤ port ∧ port ≤ maxPort ∧ state.isRunning port = false ∧
      result.2.nextPort = port + 1 := by
  cases allocates with
  | handed other onward valid free =>
      obtain rfl : other = port := Option.some.inj some_handed
      exact ⟨onward, valid, free, rfl⟩
  | refused nextPort onward past bounded taken => cases some_handed

theorem none_iff (allocates : Allocates state result) :
    result.1 = none ↔ maxPort < state.nextPort ∨
      ∀ port, state.nextPort ≤ port → port ≤ maxPort → state.isRunning port = true := by
  cases allocates with
  | handed port onward valid free =>
      refine ⟨(by rintro ⟨⟩), ?_⟩
      rintro (past | taken)
      · exact absurd past (Nat.not_lt.mpr (Nat.le_trans onward valid))
      · rw [taken port onward valid] at free
        cases free
  | refused nextPort onward past bounded taken => exact ⟨fun _ => .inr taken, fun _ => rfl⟩

theorem keeps (allocates : Allocates state result) :
    result.2 = { state with nextPort := result.2.nextPort } := by
  cases allocates <;> rfl

end Allocates

variable [Json.Dialect]

/-- A start without a port answers with the port that is handed out. -/
theorem start_unported (around : Surroundings World) (now : Millis) (source : Bytes)
    (state : Orchestrator) (world : World) :
    (state.start around now source none world).1 = state.allocate.1.elim (.error .noFreePort) .ok ∧
      (state.allocate.1 = none →
        (state.start around now source none world).2 = (state.allocate.2, world)) := by
  unfold start
  generalize state.allocate = result
  obtain ⟨_ | port, later⟩ := result
  · exact ⟨rfl, fun _ => rfl⟩
  · exact ⟨rfl, (by rintro ⟨⟩)⟩

theorem stop_nextPort (around : Surroundings World) (port : Nat)
    (state : Orchestrator) (world : World) :
    (state.stop around port world).1.nextPort = state.nextPort := by
  obtain ⟨_, _, _, _, stopped⟩ := state.stop_frame around port world
  rw [stopped]

theorem stopEach_nextPort (around : Surroundings World) (ports : List Nat)
    (state : Orchestrator) (world : World) :
    (stopEach around ports state world).1.nextPort = state.nextPort := by
  induction ports generalizing state world with
  | nil => rfl
  | cons port ports ih =>
      rw [stopEach, ih]
      exact state.stop_nextPort around port world

theorem launch_nextPort (around : Surroundings World) (now : Millis) (source : Bytes)
    (port : Nat) (state : Orchestrator) (world : World) :
    (state.launch around now source port world).2.1.nextPort = state.nextPort := by
  unfold launch
  dsimp only
  split <;> rfl

theorem startOn_nextPort (around : Surroundings World) (now : Millis)
    (source : Bytes) (port : Nat) (state : Orchestrator) (world : World) :
    (state.startOn around now source port world).1.nextPort = state.nextPort := by
  rw [startOn_eq]
  exact (launch_nextPort around now source port _ _).trans (state.stop_nextPort around port world)

end Orchestrator

-- A port is asked for, alone or by a start that is not given one.
def Operation.asksPort : Operation → Bool
  | allocate | start _ _ none => true
  | _ => false

def Operation.reconfigures : Operation → Bool
  | configure settings => settings.validate.isOk
  | _ => false

theorem configure_run [Json.Dialect] (around : Surroundings World) (settings : Settings)
    (state : Orchestrator) (world : World) :
    (Operation.configure settings).run around state world =
      (if settings.validate.isOk then state.apply around.serviceTransport settings else state,
        world) := by
  unfold Operation.run Orchestrator.configure
  dsimp only
  cases settings.validate <;> rfl

def Operation.handed? (state : Orchestrator) (operation : Operation) : Option Nat :=
  if operation.asksPort then state.allocate.1 else none

def Scene.handed [Json.Dialect] (around : Surroundings World) :
    List Operation → Scene World → List Nat
  | [], _ => []
  | operation :: rest, scene =>
      (operation.handed? scene.state).toList ++ handed around rest (scene.after around operation)

inductive Configured [Json.Dialect] (around : Surroundings World) : Nat → Scene World → Prop where
  | made (service : Service) (settings : Settings) (latency : Latency) (world : World) :
      Configured around settings.portBase (.initial service settings latency world)
  | configured (settings : Settings) (scene : Scene World)
      (valid : settings.validate.isOk = true) :
      Configured around settings.portBase (scene.after around (.configure settings))

theorem Configured.nextPort [Json.Dialect] {around : Surroundings World} {base : Nat}
    {scene : Scene World} (configured : Configured around base scene) :
    scene.state.nextPort = base := by
  cases configured with
  | made => rfl
  | configured settings scene valid =>
      unfold Scene.after
      rw [configure_run, if_pos valid]
      rfl

/-- Only a request for a port moves the counter. -/
theorem operation_nextPort [Json.Dialect] (around : Surroundings World) (operation : Operation)
    (state : Orchestrator) (world : World) (steady : operation.reconfigures = false) :
    (operation.run around state world).1.nextPort =
      if operation.asksPort then state.allocate.2.nextPort else state.nextPort := by
  cases operation with
  | start now source port =>
      cases port with
      | some port => exact state.startOn_nextPort around now source port world
      | none =>
          have allocates := state.allocate_allocates
          unfold Operation.run Orchestrator.start
          generalize state.allocate = result at allocates ⊢
          cases allocates with
          | handed port => exact Orchestrator.startOn_nextPort around now source port _ world
          | refused nextPort => rfl
  | stop port => exact state.stop_nextPort around port world
  | stopAll order => exact Orchestrator.stopEach_nextPort around _ state world
  | allocate => rfl
  | configure settings =>
      have invalid : ¬ settings.validate.isOk = true := Bool.eq_false_iff.mp steady
      rw [configure_run, if_neg invalid]
      rfl
  | setService service => rfl

/-- One operation: the counter does not move back, a port that is handed out lies between the old
counter and the new one, and the counter ends no further than one past the last port. -/
theorem operation_counts [Json.Dialect] (around : Surroundings World) (operation : Operation)
    (state : Orchestrator) (world : World) (steady : operation.reconfigures = false) :
    state.nextPort ≤ (operation.run around state world).1.nextPort ∧
      (operation.run around state world).1.nextPort ≤ max state.nextPort (maxPort + 1) ∧
      ∀ port ∈ operation.handed? state, state.nextPort ≤ port ∧ port ≤ maxPort ∧
        port < (operation.run around state world).1.nextPort := by
  rw [operation_nextPort around operation state world steady]
  unfold Operation.handed?
  cases operation.asksPort with
  | false => exact ⟨Nat.le_refl _, Nat.le_max_left _ _, fun port none_handed => by cases none_handed⟩
  | true =>
      have allocates := state.allocate_allocates
      refine ⟨allocates.counter.1, allocates.counter.2, ?_⟩
      intro port some_handed
      obtain ⟨onward, valid, _, counter⟩ := allocates.of_some some_handed
      exact ⟨onward, valid, counter ▸ Nat.lt_succ_self port⟩

namespace Scene

theorem run_counts [Json.Dialect] (around : Surroundings World) (operations : List Operation)
    (scene : Scene World) (steady : ∀ operation ∈ operations, operation.reconfigures = false) :
    scene.state.nextPort ≤ (scene.run around operations).state.nextPort ∧
      (scene.run around operations).state.nextPort ≤ max scene.state.nextPort (maxPort + 1) := by
  induction operations generalizing scene with
  | nil => exact ⟨Nat.le_refl _, Nat.le_max_left _ _⟩
  | cons operation operations ih =>
      obtain ⟨first, others⟩ := List.forall_mem_cons.mp steady
      obtain ⟨onward, bounded, _⟩ :=
        operation_counts around operation scene.state scene.world first
      obtain ⟨later_onward, later_bounded⟩ := ih (scene.after around operation) others
      have counter : (scene.after around operation).state.nextPort =
          (operation.run around scene.state scene.world).1.nextPort := rfl
      rw [counter] at later_onward later_bounded
      constructor
      · exact Nat.le_trans onward later_onward
      · exact Nat.le_trans later_bounded (Nat.max_le.mpr ⟨bounded, Nat.le_max_right _ _⟩)

theorem handed_bounds [Json.Dialect] (around : Surroundings World) (operations : List Operation)
    (scene : Scene World) (steady : ∀ operation ∈ operations, operation.reconfigures = false) :
    ∀ port ∈ scene.handed around operations, scene.state.nextPort ≤ port ∧ port ≤ maxPort := by
  induction operations generalizing scene with
  | nil => exact fun port none_handed => absurd none_handed List.not_mem_nil
  | cons operation operations ih =>
      obtain ⟨first, others⟩ := List.forall_mem_cons.mp steady
      obtain ⟨onward, _, now⟩ := operation_counts around operation scene.state scene.world first
      intro port member
      rcases List.mem_append.mp member with handed_now | later
      · obtain ⟨above, valid, _⟩ := now port (Option.mem_toList.mp handed_now)
        exact ⟨above, valid⟩
      · obtain ⟨above, valid⟩ := ih (scene.after around operation) others port later
        exact ⟨Nat.le_trans onward above, valid⟩

theorem handed_increases [Json.Dialect] (around : Surroundings World) (operations : List Operation)
    (scene : Scene World) (steady : ∀ operation ∈ operations, operation.reconfigures = false) :
    (scene.handed around operations).Pairwise (· < ·) := by
  induction operations generalizing scene with
  | nil => exact .nil
  | cons operation operations ih =>
      obtain ⟨first, others⟩ := List.forall_mem_cons.mp steady
      obtain ⟨_, _, now⟩ := operation_counts around operation scene.state scene.world first
      have bounds := handed_bounds around operations (scene.after around operation) others
      refine List.pairwise_append.mpr ⟨?_, ih _ others, ?_⟩
      · cases operation.handed? scene.state with
        | none => exact .nil
        | some port => exact List.pairwise_singleton _ _
      · intro port handed_now other later
        obtain ⟨_, _, below⟩ := now port (Option.mem_toList.mp handed_now)
        exact Nat.lt_of_lt_of_le below (bounds other later).1

end Scene

structure PortRequest [Json.Dialect] (around : Surroundings World) (base : Nat)
    (scene : Scene World) : Prop where
  counter : base ≤ scene.state.nextPort
  -- The counter does not go back and does not run beyond the port after the last.
  onward : scene.state.nextPort ≤ scene.state.allocate.2.nextPort ∧
    scene.state.allocate.2.nextPort ≤ max base (maxPort + 1)
  handed : ∀ port, scene.state.allocate.1 = some port →
    scene.state.nextPort ≤ port ∧ port ≤ maxPort ∧ scene.state.isRunning port = false
  refused : scene.state.allocate.1 = none ↔ maxPort < scene.state.nextPort ∨
    ∀ port, scene.state.nextPort ≤ port → port ≤ maxPort → scene.state.isRunning port = true
  keeps : scene.state.allocate.2 =
    { scene.state with nextPort := scene.state.allocate.2.nextPort }
  -- A start that is not given a port answers with the one handed out.
  starts : ∀ now source, (scene.state.start around now source none scene.world).1 =
    scene.state.allocate.1.elim (.error .noFreePort) .ok
  refused_start : scene.state.allocate.1 = none → ∀ now source,
    (scene.state.start around now source none scene.world).2 =
      (scene.state.allocate.2, scene.world)

theorem portRequest_of_counter [Json.Dialect] (around : Surroundings World) (base : Nat)
    (scene : Scene World) (above : base ≤ scene.state.nextPort)
    (within : scene.state.nextPort ≤ max base (maxPort + 1)) :
    PortRequest around base scene := by
  have allocates := scene.state.allocate_allocates
  have start (now : Millis) (source : Bytes) :=
    scene.state.start_unported around now source scene.world
  constructor
  case counter => exact above
  case onward =>
    obtain ⟨onward, bounded⟩ := allocates.counter
    exact ⟨onward, Nat.le_trans bounded (Nat.max_le.mpr ⟨within, Nat.le_max_right _ _⟩)⟩
  case handed =>
    intro port some_handed
    obtain ⟨onward, valid, free, _⟩ := allocates.of_some some_handed
    exact ⟨onward, valid, free⟩
  case refused => exact allocates.none_iff
  case keeps => exact allocates.keeps
  case starts => exact fun now source => (start now source).1
  case refused_start => exact fun none_handed now source => (start now source).2 none_handed

/-- Between two configurations the ports that are handed out increase, from the base to the last
port, and at every point of the run a request is refused only when no port is left. -/
theorem run_ports [Json.Dialect] (around : Surroundings World) (base : Nat) (scene : Scene World)
    (configured : Configured around base scene) (operations : List Operation)
    (steady : ∀ operation ∈ operations, operation.reconfigures = false) :
    (scene.handed around operations).Pairwise (· < ·) ∧
      (∀ port ∈ scene.handed around operations, base ≤ port ∧ port ≤ maxPort) ∧
      ∀ before, before <+: operations → PortRequest around base (scene.run around before) := by
  have counter := configured.nextPort
  refine ⟨scene.handed_increases around operations steady, ?_, ?_⟩
  · rw [← counter]
    exact scene.handed_bounds around operations steady
  · intro before earlier
    obtain ⟨above, within⟩ := scene.run_counts around before
      fun operation member => steady operation (earlier.subset member)
    rw [counter] at above within
    exact portRequest_of_counter around base _ above within

/-- The last port but one is taken, the last is handed out, and the one before is stopped. -/
def lastPorts : List Operation := [.start 0 [] (some 65534), .allocate, .stop 65534]

def lastPortsScene : Scene Nat := .initial .disabled { portBase := 65534 } ⟨0, 0⟩ 0

section Strict

attribute [local instance] Json.strict

-- A port that was stopped is not handed out again, even when no other is left.
theorem run_ports_exhausted :
    Configured counting 65534 lastPortsScene ∧
      (∀ operation ∈ lastPorts, operation.reconfigures = false) ∧
      lastPortsScene.handed counting lastPorts = [65535] ∧
      (lastPortsScene.run counting lastPorts).state.isRunning 65534 = false ∧
      (lastPortsScene.run counting lastPorts).state.allocate.1 = none := by
  have configured : Configured counting 65534 lastPortsScene :=
    .made .disabled { portBase := 65534 } ⟨0, 0⟩ 0
  have steady : ∀ operation ∈ lastPorts, operation.reconfigures = false := by decide
  obtain ⟨_, _, requests⟩ :=
    run_ports counting 65534 lastPortsScene configured lastPorts steady
  have request := requests lastPorts (List.prefix_refl lastPorts)
  have counter : (lastPortsScene.run counting lastPorts).state.nextPort = 65536 := by
    decide +kernel
  refine ⟨configured, steady, by decide +kernel, by decide +kernel, ?_⟩
  exact request.refused.mpr (.inl (counter ▸ by decide))

end Strict

end EndpointPreview.Execution
