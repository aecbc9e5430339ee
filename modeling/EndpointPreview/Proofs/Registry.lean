import EndpointPreview.Proofs.Journal
import EndpointPreview.Proofs.Tables
import Mathlib.Data.List.Induction

/-!
What a run leaves in the registry. The events of a port fall into episodes, each from a
launch to the withdrawal of its instance and, for a delegated one, the call that ends it;
the episode that is still open is that of the registered instance. The simulated server
follows the latest launch that was simulated.
-/

namespace EndpointPreview.Execution

open Text Http Preview

variable {World : Type}

inductive Episode where
  | delegated (service : Service) (source id : Bytes) (answer : Except ServiceError Unit)
  | simulated (service : Service) (source : Bytes) (error : ServiceError)

/-- A delegated instance is ended once, by the service that launched it; a simulated one by
no service. -/
def Episode.events (port : Nat) : Episode → List Event
  | delegated service source id answer =>
      [.launched service port source (.ok id), .withdrawn port, .halted service port answer]
  | simulated service source error =>
      [.launched service port source (.error error), .withdrawn port]

def openingStages (source : Bytes) : List LaunchStage :=
  if Notation.hasMarker source then [.received, .transformed, .delegating]
  else [.received, .delegating]

def closingStages : ServerKind → List LaunchStage
  | .delegated => [.delegated]
  | .simulated => [.fallingBack, .simulated]

def Instance.stages (server : Instance) : List LaunchStage := server.log.map LaunchStep.stage

-- The registered instance and launcher of a port, and the events of its open episode.
inductive Standing (port : Nat) : Option Instance → Option Service → List Event → Prop where
  | free : Standing port none none []
  | delegated (server : Instance) (service : Service) (source id : Bytes)
      (own_port : server.port = port) (process : server.backing = .process id)
      (stages : server.stages = openingStages source ++ closingStages .delegated) :
      Standing port (some server) (some service) [.launched service port source (.ok id)]
  | simulated (server : Instance) (service : Service) (source : Bytes) (error : ServiceError)
      (own_port : server.port = port) (simulation : server.backing = .simulation)
      (stages : server.stages = openingStages source ++ closingStages .simulated) :
      Standing port (some server) none [.launched service port source (.error error)]

def eventsOn (port : Nat) (journal : List Event) : List Event :=
  journal.filter fun event => event.port == port

-- The events of a port are episodes that are over, and then the open one.
def Accounted (port : Nat) (journal : List Event) (state : Orchestrator) : Prop :=
  ∃ (past : List Episode) (current : List Event),
    eventsOn port journal = past.flatMap (Episode.events port) ++ current ∧
      Standing port (state.get? port) (state.launcher? port) current

/-- The port of the latest simulated launch, unless its instance was withdrawn since. -/
def simulationAfter (current : Option Nat) : Event → Option Nat
  | .launched _ port _ (.error _) => some port
  | .withdrawn port => if current = some port then none else current
  | _ => current

def simulation? (journal : List Event) : Option Nat := journal.foldl simulationAfter none

/-- The latest simulated launch was on the port, and its instance was not withdrawn since. -/
def SimulationStands (port : Nat) (journal : List Event) : Prop :=
  ∃ before service source error after,
    journal = before ++ .launched service port source (.error error) :: after ∧
      (∀ other elsewhere submitted failure,
        .launched other elsewhere submitted (.error failure) ∉ after) ∧
      .withdrawn port ∉ after

theorem simulation_concat (journal : List Event) (event : Event) :
    simulation? (journal ++ [event]) = simulationAfter (simulation? journal) event := by
  unfold simulation?
  rw [List.foldl_append]
  rfl

def Event.isSimulation : Event → Bool
  | launched _ _ _ (.error _) => true
  | _ => false

-- The last event either is the launch or leaves the simulation standing.
theorem stands_concat (port : Nat) (journal : List Event) (event : Event) :
    SimulationStands port (journal ++ [event]) ↔
      (event.isSimulation = true ∧ event.port = port) ∨
        (event.isSimulation = false ∧ event ≠ .withdrawn port ∧ SimulationStands port journal) := by
  constructor
  · rintro ⟨before, service, source, error, after, whole, latest, stays⟩
    cases after using List.reverseRecOn with
    | nil =>
        left
        obtain ⟨_, last⟩ := List.append_inj' whole rfl
        injection last with last
        rw [last]
        exact ⟨rfl, rfl⟩
    | append_singleton after final =>
        right
        rw [← List.cons_append, ← List.append_assoc] at whole
        obtain ⟨own, last⟩ := List.append_inj' whole rfl
        injection last with last
        subst last
        refine ⟨?_, ?_, before, service, source, error, after, own, ?_, ?_⟩
        · unfold Event.isSimulation
          split
          · exact absurd (List.mem_append_right _ List.mem_cons_self) (latest _ _ _ _)
          · rfl
        · rintro rfl
          exact stays (List.mem_append_right _ List.mem_cons_self)
        · exact fun _ _ _ _ inside => latest _ _ _ _ (List.mem_append_left _ inside)
        · exact fun inside => stays (List.mem_append_left _ inside)
  · rintro (⟨simulates, rfl⟩ | ⟨other, keeps, before, service, source, error, after, rfl, latest, stays⟩)
    · unfold Event.isSimulation at simulates
      split at simulates
      · exact ⟨journal, _, _, _, [], rfl, fun _ _ _ _ => List.not_mem_nil, List.not_mem_nil⟩
      · cases simulates
    · refine ⟨before, service, source, error, after ++ [event], by simp, ?_, ?_⟩
      · intro elsewhere port submitted failure inside
        rcases List.mem_append.mp inside with earlier | last
        · exact latest _ _ _ _ earlier
        · rw [← List.mem_singleton.mp last] at other
          cases other
      · intro inside
        rcases List.mem_append.mp inside with earlier | last
        · exact stays earlier
        · exact keeps (List.mem_singleton.mp last).symm

theorem simulation_iff (port : Nat) (journal : List Event) :
    simulation? journal = some port ↔ SimulationStands port journal := by
  induction journal using List.reverseRecOn with
  | nil =>
      constructor
      · intro none_yet
        cases none_yet
      · rintro ⟨before, _, _, _, after, whole, _⟩
        simp at whole
  | append_singleton journal event ih =>
      rw [simulation_concat, stands_concat, ← ih]
      cases event with
      | launched service other source answer =>
          cases answer with
          | ok id => simp [simulationAfter, Event.isSimulation]
          | error error => simp [simulationAfter, Event.isSimulation, Event.port]
      | withdrawn other =>
          by_cases own : simulation? journal = some other
          · simp only [simulationAfter, own, ↓reduceIte, Event.isSimulation]
            by_cases same : other = port <;> simp [same]
          · simp only [simulationAfter, own, ↓reduceIte, Event.isSimulation]
            by_cases same : other = port
            · subst same
              simp [own]
            · simp [same]
      | halted service other answer => simp [simulationAfter, Event.isSimulation]

structure Sound (state : Orchestrator) (journal : List Event) : Prop where
  accounted : ∀ port, Accounted port journal state
  sorted : Table.Sorted portLess state.instances
  simulation : state.network.serving = simulation? journal
  registered : ∀ port, state.network.serving = some port →
    ∃ server, state.get? port = some server ∧ server.kind = .simulated
  intercepted : state.dispatcher.isIntercepted = state.network.isServing

theorem portLess_orders : Table.Orders portLess where
  irrefl a := by simp [portLess]
  trans := by
    intro a b c before after
    simp only [portLess, decide_eq_true_eq] at before after ⊢
    exact Nat.lt_trans before after
  total := by
    intro a b above below
    simp only [portLess, decide_eq_false_iff_not] at above below
    omega

theorem Sound.neutral {state later : Orchestrator} {journal : List Event}
    (sound : Sound state journal) (instances : later.instances = state.instances)
    (launchers : later.launchers = state.launchers)
    (serving : later.network.serving = state.network.serving)
    (dispatcher : later.dispatcher = state.dispatcher) : Sound later journal := by
  have same_get (port : Nat) : later.get? port = state.get? port := by
    unfold Orchestrator.get?
    rw [instances]
  have same_launcher (port : Nat) : later.launcher? port = state.launcher? port := by
    unfold Orchestrator.launcher?
    rw [launchers]
  have same_serving : later.network.isServing = state.network.isServing := by
    unfold Network.isServing
    rw [serving]
  constructor
  · intro port
    unfold Accounted
    rw [same_get, same_launcher]
    exact sound.accounted port
  · rw [instances]
    exact sound.sorted
  · rw [serving]
    exact sound.simulation
  · intro port
    rw [serving, same_get]
    exact sound.registered port
  · rw [dispatcher, same_serving]
    exact sound.intercepted

-- Events on another port, and a registry that is the same there, change no account.
theorem Accounted.frame {port other : Nat} {journal events : List Event}
    {state later : Orchestrator} (different : other ≠ port)
    (own : ∀ event ∈ events, event.port = port) (get : later.get? other = state.get? other)
    (launcher : later.launcher? other = state.launcher? other)
    (accounted : Accounted other journal state) : Accounted other (journal ++ events) later := by
  obtain ⟨past, current, whole, standing⟩ := accounted
  have none_here : eventsOn other events = [] := by
    apply List.filter_eq_nil_iff.mpr
    intro event member
    rw [own event member]
    simpa using Ne.symm different
  refine ⟨past, current, ?_, ?_⟩
  · unfold eventsOn at none_here whole ⊢
    rw [List.filter_append, none_here, List.append_nil, whole]
  · rw [get, launcher]
    exact standing

theorem eventsOn_own (port : Nat) (journal events : List Event)
    (own : ∀ event ∈ events, event.port = port) :
    eventsOn port (journal ++ events) = eventsOn port journal ++ events := by
  unfold eventsOn
  rw [List.filter_append]
  congr 1
  apply List.filter_eq_self.mpr
  intro event member
  simp [own event member]

namespace Orchestrator

def cleared (port : Nat) (state : Orchestrator) : Orchestrator :=
  { state with
    instances := Table.erase portLess port state.instances
    launchers := Table.erase portLess port state.launchers }

theorem cleared_get? (port : Nat) (state : Orchestrator) :
    (state.cleared port).get? port = none := Table.find?_erase port state.instances

theorem cleared_launcher? (port : Nat) (state : Orchestrator) :
    (state.cleared port).launcher? port = none := Table.find?_erase port state.launchers

theorem cleared_get?_other (port other : Nat) (state : Orchestrator) (different : other ≠ port) :
    (state.cleared port).get? other = state.get? other :=
  Table.find?_erase_other portLess_orders port other state.instances different

theorem cleared_launcher?_other (port other : Nat) (state : Orchestrator)
    (different : other ≠ port) : (state.cleared port).launcher? other = state.launcher? other :=
  Table.find?_erase_other portLess_orders port other state.launchers different

-- Removing a port whose episode ends with these events keeps the accounts.
theorem cleared_accounted (port : Nat) (state : Orchestrator) (journal events : List Event)
    (own : ∀ event ∈ events, event.port = port) (accounted : ∀ other, Accounted other journal state)
    (ends : ∀ current, Standing port (state.get? port) (state.launcher? port) current →
      ∃ episode : Episode, current ++ events = episode.events port) (other : Nat) :
    Accounted other (journal ++ events) (state.cleared port) := by
  by_cases same : other = port
  · subst same
    obtain ⟨past, current, whole, standing⟩ := accounted other
    obtain ⟨episode, closes⟩ := ends current standing
    refine ⟨past ++ [episode], [], ?_, ?_⟩
    · rw [eventsOn_own other journal events own, whole, List.append_assoc, closes]
      simp
    · rw [cleared_get?, cleared_launcher?]
      exact .free
  · exact (accounted other).frame same own (cleared_get?_other port other state same)
      (cleared_launcher?_other port other state same)

theorem stop_free [Json.Dialect] (around : Surroundings World) (port : Nat) (state : Orchestrator)
    (world : World) (free : state.get? port = none) :
    state.stop around port world = (state, world) ∧ state.stopEvents around port world = [] := by
  simp [stop, stopEvents, withdraw, free]

theorem stop_delegated [Json.Dialect] (around : Surroundings World) (port : Nat)
    (state : Orchestrator) (world : World) (server : Instance) (service : Service)
    (found : state.get? port = some server) (kind : server.kind = .delegated)
    (launcher : state.launcher? port = some service) :
    (state.stop around port world).1 = state.cleared port ∧
      state.stopEvents around port world =
        [.withdrawn port, .halted service port (service.halt around port world).1] := by
  simp [stop, stopEvents, withdraw, release, found, kind, launcher, cleared]

theorem stop_simulated [Json.Dialect] (around : Surroundings World) (port : Nat)
    (state : Orchestrator) (world : World) (server : Instance)
    (found : state.get? port = some server) (kind : server.kind = .simulated) :
    (state.stop around port world).1 = (state.cleared port).stopNetworkOn port ∧
      state.stopEvents around port world = [.withdrawn port] := by
  simp [stop, stopEvents, withdraw, release, found, kind, cleared]

theorem stopNetworkOn_registry (port : Nat) (state : Orchestrator) :
    (state.stopNetworkOn port).instances = state.instances ∧
      (state.stopNetworkOn port).launchers = state.launchers := by
  unfold stopNetworkOn
  by_cases here : (state.network.serving == some port) = true
  · rw [if_pos here]
    exact ⟨rfl, rfl⟩
  · rw [if_neg here]
    exact ⟨rfl, rfl⟩

theorem stopNetworkOn_network (port : Nat) (state : Orchestrator) :
    (state.network.serving = some port ∧ (state.stopNetworkOn port).network.serving = none ∧
        (state.stopNetworkOn port).dispatcher = state.dispatcher.restore) ∨
      (state.network.serving ≠ some port ∧ state.stopNetworkOn port = state) := by
  unfold stopNetworkOn
  by_cases here : state.network.serving = some port
  · left
    have serves : state.network.isServing = true := by simp [Network.isServing, here]
    rw [if_pos (by simpa using here)]
    simp [here, stopNetwork, Network.stop, serves]
  · right
    rw [if_neg (by simpa using here)]
    exact ⟨here, rfl⟩

-- The simulated server is not on the port of a delegated instance.
theorem serving_elsewhere (port : Nat) (state : Orchestrator) (journal : List Event)
    (sound : Sound state journal) (server : Instance) (found : state.get? port = some server)
    (kind : server.kind = .delegated) : state.network.serving ≠ some port := by
  intro serving
  obtain ⟨other, other_found, simulated⟩ := sound.registered port serving
  rw [found] at other_found
  cases other_found
  rw [kind] at simulated
  cases simulated

theorem sound_without_delegated (port : Nat) (state : Orchestrator) (journal : List Event)
    (sound : Sound state journal) (server : Instance) (service : Service)
    (found : state.get? port = some server) (kind : server.kind = .delegated)
    (launched : state.launcher? port = some service) (answer : Except ServiceError Unit) :
    Sound (state.cleared port) (journal ++ [.withdrawn port, .halted service port answer]) := by
  have elsewhere := serving_elsewhere port state journal sound server found kind
  constructor
  · apply cleared_accounted port state journal _ (by simp [Event.port]) sound.accounted
    intro current open_episode
    rw [found, launched] at open_episode
    cases open_episode with
    | delegated _ _ source id => exact ⟨.delegated service source id answer, rfl⟩
  · exact Table.erase_sorted port _ sound.sorted
  · have other : simulation? journal ≠ some port := sound.simulation ▸ elsewhere
    have kept : simulation? (journal ++ [.withdrawn port, .halted service port answer]) =
        simulation? journal := by
      simp only [simulation?, List.foldl_append, List.foldl_cons, List.foldl_nil, simulationAfter]
      exact if_neg other
    rw [kept]
    exact sound.simulation
  · intro other serving
    have different : other ≠ port := fun same => elsewhere (same ▸ serving)
    rw [cleared_get?_other port other state different]
    exact sound.registered other serving
  · exact sound.intercepted

theorem sound_without_simulated (port : Nat) (state : Orchestrator) (journal : List Event)
    (sound : Sound state journal) (server : Instance) (found : state.get? port = some server)
    (launched : state.launcher? port = none) :
    Sound ((state.cleared port).stopNetworkOn port) (journal ++ [.withdrawn port]) := by
  obtain ⟨same_instances, same_launchers⟩ := (state.cleared port).stopNetworkOn_registry port
  have network := (state.cleared port).stopNetworkOn_network port
  have same_get (other : Nat) :
      ((state.cleared port).stopNetworkOn port).get? other = (state.cleared port).get? other := by
    unfold get?
    rw [same_instances]
  have same_launcher (other : Nat) :
      ((state.cleared port).stopNetworkOn port).launcher? other =
        (state.cleared port).launcher? other := by
    unfold launcher?
    rw [same_launchers]
  constructor
  · intro other
    unfold Accounted
    rw [same_get, same_launcher]
    apply cleared_accounted port state journal _ (by simp [Event.port]) sound.accounted
    intro current open_episode
    rw [found, launched] at open_episode
    cases open_episode with
    | simulated _ service source error => exact ⟨.simulated service source error, rfl⟩
  · rw [same_instances]
    exact Table.erase_sorted port _ sound.sorted
  · rw [simulation_concat, ← sound.simulation]
    -- A later simulation may have taken the server to its own port; then it stays.
    rcases network with ⟨here, stopped, _⟩ | ⟨elsewhere, unchanged⟩
    · rw [stopped]
      exact (if_pos here).symm
    · rw [unchanged]
      exact (if_neg elsewhere).symm
  · intro other serving
    rcases network with ⟨_, stopped, _⟩ | ⟨elsewhere, unchanged⟩
    · rw [stopped] at serving
      cases serving
    · rw [unchanged] at serving
      have different : other ≠ port := fun same => elsewhere (same ▸ serving)
      rw [same_get, cleared_get?_other port other state different]
      exact sound.registered other serving
  · rcases network with ⟨_, stopped, restored⟩ | ⟨_, unchanged⟩
    · rw [restored]
      simp [Network.isServing, stopped, Dispatcher.restore, Dispatcher.isIntercepted]
    · rw [unchanged]
      exact sound.intercepted

theorem stop_sound [Json.Dialect] (around : Surroundings World) (port : Nat) (state : Orchestrator)
    (world : World) (journal : List Event) (sound : Sound state journal) :
    Sound (state.stop around port world).1 (journal ++ state.stopEvents around port world) := by
  obtain ⟨_, current, _, standing⟩ := sound.accounted port
  generalize found : state.get? port = server at standing
  generalize launched : state.launcher? port = launcher at standing
  cases standing with
  | free =>
      obtain ⟨same, no_events⟩ := state.stop_free around port world found
      rwa [same, no_events, List.append_nil]
  | delegated server service source id own_port process stages =>
      have kind : server.kind = .delegated := by simp [Instance.kind, process]
      obtain ⟨same, events⟩ := state.stop_delegated around port world server service found kind launched
      rw [same, events]
      exact sound_without_delegated port state journal sound server service found kind launched _
  | simulated server service source error own_port simulation stages =>
      have kind : server.kind = .simulated := by simp [Instance.kind, simulation]
      obtain ⟨same, events⟩ := state.stop_simulated around port world server found kind
      rw [same, events]
      exact sound_without_simulated port state journal sound server found launched

/-- A stop clears the port, and with it the simulated server when that was there; without an
instance it changes nothing. -/
theorem stop_cases [Json.Dialect] (around : Surroundings World) (port : Nat) (state : Orchestrator)
    (world : World) :
    (state.get? port = none ∧ (state.stop around port world).1 = state) ∨
      (state.stop around port world).1 = state.cleared port ∨
      (state.stop around port world).1 = (state.cleared port).stopNetworkOn port := by
  cases found : state.get? port with
  | none => exact .inl ⟨rfl, congrArg Prod.fst (state.stop_free around port world found).1⟩
  | some server =>
      right
      unfold stop withdraw release
      rw [found]
      dsimp only
      split
      · exact .inl rfl
      · exact .inr rfl

/-- A stop changes the registry and the simulated server only. -/
theorem stop_frame [Json.Dialect] (around : Surroundings World) (port : Nat) (state : Orchestrator)
    (world : World) :
    ∃ instances launchers network dispatcher, (state.stop around port world).1 =
      { state with instances, launchers, network, dispatcher } := by
  rcases state.stop_cases around port world with ⟨_, idle⟩ | cleared | released
  · exact ⟨_, _, _, _, idle⟩
  · exact ⟨_, _, _, _, cleared⟩
  · rw [released]
    unfold stopNetworkOn
    split <;> exact ⟨_, _, _, _, rfl⟩

theorem stop_get? [Json.Dialect] (around : Surroundings World) (port : Nat) (state : Orchestrator)
    (world : World) (other : Nat) :
    (state.stop around port world).1.get? other = if other = port then none else state.get? other := by
  have cleared_port : (state.cleared port).get? other =
      if other = port then none else state.get? other := by
    by_cases same : other = port
    · rw [if_pos same, same, cleared_get?]
    · rw [if_neg same, cleared_get?_other port other state same]
  rcases state.stop_cases around port world with ⟨free, idle⟩ | cleared | released
  · rw [idle]
    by_cases same : other = port
    · rw [if_pos same, same, free]
    · rw [if_neg same]
  · rw [cleared, cleared_port]
  · rw [released, ← cleared_port]
    unfold get?
    rw [(stopNetworkOn_registry port _).1]

theorem stop_launcher?_other [Json.Dialect] (around : Surroundings World) (port other : Nat)
    (state : Orchestrator) (world : World) (different : other ≠ port) :
    (state.stop around port world).1.launcher? other = state.launcher? other := by
  have cleared_port := state.cleared_launcher?_other port other different
  rcases state.stop_cases around port world with ⟨_, idle⟩ | cleared | released
  · rw [idle]
  · rw [cleared, cleared_port]
  · rw [released, ← cleared_port]
    unfold launcher?
    rw [(stopNetworkOn_registry port _).2]

theorem stopEach_sound [Json.Dialect] (around : Surroundings World) (ports : List Nat)
    (state : Orchestrator) (world : World) (journal : List Event) (sound : Sound state journal) :
    Sound (stopEach around ports state world).1
      (journal ++ stopEachEvents around ports state world) := by
  induction ports generalizing state world journal with
  | nil => simpa [stopEach, stopEachEvents] using sound
  | cons port ports ih =>
      have later := ih _ (state.stop around port world).2 _ (stop_sound around port state world journal sound)
      rw [List.append_assoc] at later
      exact later

theorem stopEach_get? [Json.Dialect] (around : Surroundings World) (ports : List Nat)
    (state : Orchestrator) (world : World) (other : Nat)
    (stopped : other ∈ ports ∨ state.get? other = none) :
    (stopEach around ports state world).1.get? other = none := by
  induction ports generalizing state world with
  | nil =>
      rcases stopped with member | free
      · cases member
      · exact free
  | cons port ports ih =>
      have cleared_port := state.stop_get? around port world other
      apply ih (state.stop around port world).1
      rw [cleared_port]
      by_cases same : other = port
      · exact .inr (if_pos same)
      · rw [if_neg same]
        exact stopped.imp_left fun member => (List.mem_cons.mp member).resolve_left same

theorem mem_ports (state : Orchestrator) (port : Nat) (server : Instance)
    (found : state.get? port = some server) : port ∈ state.ports := by
  have member := Table.mem_of_find? portLess_orders port server state.instances found
  exact List.mem_map_of_mem (f := Prod.fst) member

theorem stopAll_sound [Json.Dialect] (around : Surroundings World) (order : StopOrder)
    (state : Orchestrator) (world : World) (journal : List Event) (sound : Sound state journal) :
    Sound (state.stopAllIn around order world).1
      (journal ++ stopEachEvents around (order.arrange state.ports) state world) := by
  have each := stopEach_sound around (order.arrange state.ports) state world journal sound
  have all_free (port : Nat) :
      (stopEach around (order.arrange state.ports) state world).1.get? port = none := by
    apply stopEach_get?
    cases found : state.get? port with
    | none => exact .inr rfl
    | some server => exact .inl ((order.perm state.ports).mem_iff.mpr (state.mem_ports port server found))
  -- With no instance left the simulated server has been stopped by one of the stops.
  have idle : (stopEach around (order.arrange state.ports) state world).1.network.serving = none := by
    cases serving : (stopEach around (order.arrange state.ports) state world).1.network.serving with
    | none => rfl
    | some port =>
        obtain ⟨server, found, _⟩ := each.registered port serving
        rw [all_free] at found
        cases found
  unfold stopAllIn
  generalize stopEach around (order.arrange state.ports) state world = after at each idle
  obtain ⟨last, world'⟩ := after
  have unchanged : last.stopNetwork = last := by
    have stopped : last.network.serving = none := idle
    have no_server : last.network.isServing = false := by simp [Network.isServing, stopped]
    simp [stopNetwork, Network.stop, no_server]
  dsimp only
  rw [unchanged]
  exact each

theorem launch_tables [Json.Dialect] (around : Surroundings World) (now : Millis) (source : Bytes)
    (port : Nat) (state : Orchestrator) (world : World) :
    (state.launch around now source port world).2.1.instances = state.instances ∧
      (state.launch around now source port world).2.1.launchers = state.launchers := by
  unfold launch
  dsimp only
  split <;> exact ⟨rfl, rfl⟩

theorem register_get?_other (port other : Nat) (server : Instance) (launcher : Option Service)
    (state : Orchestrator) (different : other ≠ port) :
    (state.register port server launcher).get? other = state.get? other :=
  Table.find?_set_other portLess_orders port other server state.instances different

theorem register_get? (port : Nat) (server : Instance) (launcher : Option Service)
    (state : Orchestrator) : (state.register port server launcher).get? port = some server :=
  Table.find?_set portLess_orders port server state.instances

theorem register_launcher? (port : Nat) (server : Instance) (launcher : Option Service)
    (state : Orchestrator) : (state.register port server launcher).launcher? port = launcher := by
  cases launcher with
  | none => exact Table.find?_erase port state.launchers
  | some service => exact Table.find?_set portLess_orders port service state.launchers

theorem register_launcher?_other (port other : Nat) (server : Instance)
    (launcher : Option Service) (state : Orchestrator) (different : other ≠ port) :
    (state.register port server launcher).launcher? other = state.launcher? other := by
  cases launcher with
  | none => exact Table.find?_erase_other portLess_orders port other state.launchers different
  | some service =>
      exact Table.find?_set_other portLess_orders port other service state.launchers different

-- Opening an episode on a free port keeps the accounts.
theorem register_accounted (port : Nat) (server : Instance) (launcher : Option Service)
    (state : Orchestrator) (journal : List Event) (event : Event) (own : event.port = port)
    (free : state.get? port = none) (accounted : ∀ other, Accounted other journal state)
    (stands : Standing port (some server) launcher [event]) (other : Nat) :
    Accounted other (journal ++ [event]) (state.register port server launcher) := by
  have all_own : ∀ found ∈ [event], found.port = port := by
    intro found member
    rwa [List.mem_singleton.mp member]
  by_cases same : other = port
  · subst same
    obtain ⟨past, current, whole, standing⟩ := accounted other
    rw [free] at standing
    generalize state.launcher? other = before at standing
    cases standing
    refine ⟨past, [event], ?_, ?_⟩
    · rw [eventsOn_own other journal [event] all_own, whole, List.append_nil]
    · rw [register_get?, register_launcher?]
      exact stands
  · exact (accounted other).frame same all_own
      (state.register_get?_other port other server launcher same)
      (state.register_launcher?_other port other server launcher same)

theorem sound_delegated (port : Nat) (server : Instance) (service : Service) (source id : Bytes)
    (state : Orchestrator) (journal : List Event) (free : state.get? port = none)
    (sound : Sound state journal)
    (stands : Standing port (some server) (some service) [.launched service port source (.ok id)]) :
    Sound (state.register port server (some service))
      (journal ++ [.launched service port source (.ok id)]) := by
  constructor
  · exact register_accounted port server (some service) state journal _ rfl free sound.accounted stands
  · exact Table.set_sorted portLess_orders port server _ sound.sorted
  · rw [simulation_concat]
    exact sound.simulation
  · intro other serving
    obtain ⟨simulated, found, kind⟩ := sound.registered other serving
    have different : other ≠ port := by
      rintro rfl
      rw [free] at found
      cases found
    rw [register_get?_other port other server (some service) state different]
    exact ⟨simulated, found, kind⟩
  · exact sound.intercepted

theorem sound_simulated (port : Nat) (server : Instance) (service : Service) (source : Bytes)
    (error : ServiceError) (routes : Routes) (state : Orchestrator) (journal : List Event)
    (free : state.get? port = none) (kind : server.kind = .simulated) (sound : Sound state journal)
    (stands : Standing port (some server) none [.launched service port source (.error error)]) :
    Sound ((state.startNetwork port routes).register port server none)
      (journal ++ [.launched service port source (.error error)]) := by
  have network : (state.startNetwork port routes).network.serving = some port := rfl
  constructor
  · exact register_accounted port server none (state.startNetwork port routes) journal _ rfl free
      sound.accounted stands
  · exact Table.set_sorted portLess_orders port server _ sound.sorted
  · rw [simulation_concat]
    exact network
  · intro other serving
    obtain rfl : port = other := by simpa [register, network] using serving
    exact ⟨server, register_get? port server none _, kind⟩
  · have serves : (state.startNetwork port routes).network.isServing = true := rfl
    have intercepts : (state.startNetwork port routes).dispatcher.isIntercepted = true := by
      have before := sound.intercepted
      unfold startNetwork Network.start
      cases serving : state.network.isServing with
      | true => simpa [serving] using before
      | false => rfl
    exact intercepts.trans serves.symm

theorem opening_stages (source : Bytes) (step : LaunchStep) (closing : List LaunchStep)
    (delegating : step.stage = .delegating) :
    (openingSteps source ++ step :: closing).map LaunchStep.stage =
      openingStages source ++ closing.map LaunchStep.stage := by
  unfold openingSteps openingStages
  cases Notation.hasMarker source <;> simp [delegating]

/-- A launch on a free port, as the registry sees it. -/
theorem launch_sound [Json.Dialect] (around : Surroundings World) (now : Millis) (source : Bytes)
    (port : Nat) (state : Orchestrator) (world : World) (journal : List Event)
    (sound : Sound state journal) (free : state.get? port = none) :
    let result := state.launch around now source port world
    Sound (result.2.1.register port result.1.1 result.1.2)
      (journal ++ [.launched state.service port source
        (state.service.launch around (executable source) port world).1]) := by
  dsimp only
  unfold launch
  dsimp only
  generalize state.service.launch around (executable source) port world = result
  obtain ⟨answer | id, world'⟩ := result
  · refine sound_simulated port _ state.service source answer _ state journal free rfl sound ?_
    refine .simulated _ _ source answer rfl rfl ?_
    exact opening_stages source _ _ rfl
  · refine sound_delegated port _ state.service source id state journal free sound ?_
    refine .delegated _ _ source id rfl rfl ?_
    exact opening_stages source _ _ rfl

theorem startOn_sound [Json.Dialect] (around : Surroundings World) (now : Millis) (source : Bytes)
    (port : Nat) (state : Orchestrator) (world : World) (journal : List Event)
    (sound : Sound state journal) :
    Sound (state.startOn around now source port world).1
      (journal ++ state.startOnEvents around source port world) := by
  have stopped := stop_sound around port state world journal sound
  have free : (state.stop around port world).1.get? port = none := by
    rw [stop_get?]
    exact if_pos rfl
  have launched := launch_sound around now source port _ (state.stop around port world).2 _ stopped free
  rw [List.append_assoc] at launched
  rw [startOn_eq]
  exact launched

theorem start_sound [Json.Dialect] (around : Surroundings World) (now : Millis) (source : Bytes)
    (port : Option Nat) (state : Orchestrator) (world : World) (journal : List Event)
    (sound : Sound state journal) :
    Sound (state.start around now source port world).2.1
      (journal ++ state.startEvents around source port world) := by
  unfold start startEvents
  cases port with
  | some port => exact startOn_sound around now source port state world journal sound
  | none =>
      have handed : Sound state.allocate.2 journal := by
        unfold allocate
        dsimp only
        split
        · exact sound.neutral rfl rfl rfl rfl
        · exact sound.neutral rfl rfl rfl rfl
      generalize state.allocate = result at handed
      obtain ⟨none | port, later⟩ := result
      · simpa using handed
      · exact startOn_sound around now source port later world journal handed

end Orchestrator

theorem operation_sound [Json.Dialect] (around : Surroundings World) (operation : Operation)
    (state : Orchestrator) (world : World) (journal : List Event) (sound : Sound state journal) :
    Sound (operation.run around state world).1
      (journal ++ operation.events around state world) := by
  cases operation with
  | start now source port => exact state.start_sound around now source port world journal sound
  | stop port => exact state.stop_sound around port world journal sound
  | stopAll order => exact state.stopAll_sound around order world journal sound
  | allocate =>
      unfold Operation.run Operation.events Orchestrator.allocate
      dsimp only
      rw [List.append_nil]
      split
      · exact sound.neutral rfl rfl rfl rfl
      · exact sound.neutral rfl rfl rfl rfl
  | configure settings =>
      unfold Operation.run Operation.events Orchestrator.configure
      dsimp only
      rw [List.append_nil]
      cases settings.validate with
      | error => exact sound
      | ok => exact sound.neutral rfl rfl rfl rfl
  | setService service =>
      unfold Operation.events
      dsimp only
      rw [List.append_nil]
      exact sound.neutral rfl rfl rfl rfl

theorem initial_sound (service : Service) (settings : Settings) (latency : Latency) :
    Sound (.make service settings (.stopped latency) .fresh) [] where
  accounted port := ⟨[], [], rfl, .free⟩
  sorted := List.Pairwise.nil
  simulation := rfl
  registered port serving := by cases serving
  intercepted := rfl

theorem run_sound [Json.Dialect] (around : Surroundings World) (operations : List Operation)
    (scene : Scene World) (sound : Sound scene.state scene.journal) :
    Sound (scene.run around operations).state (scene.run around operations).journal := by
  induction operations generalizing scene with
  | nil => exact sound
  | cons operation operations ih =>
      apply ih (scene.after around operation)
      exact operation_sound around operation scene.state scene.world scene.journal sound

-- The last event of a port, where it stands in the whole journal.
theorem last_on (port : Nat) (journal before : List Event) (event : Event)
    (whole : eventsOn port journal = before ++ [event]) :
    ∃ earlier later, journal = earlier ++ event :: later ∧
      ∀ other ∈ later, other.port ≠ port := by
  obtain ⟨first, second, rfl, _, here⟩ := List.filter_eq_append_iff.mp whole
  obtain ⟨between, later, rfl, _, _, none_left⟩ := List.filter_eq_cons_iff.mp here
  refine ⟨first ++ between, later, by simp, ?_⟩
  intro other member
  simpa using List.filter_eq_nil_iff.mp none_left other member

structure Registered (scene : Scene World) (port : Nat) (server : Instance) : Prop where
  found : scene.state.get? port = some server
  own_port : server.port = port
  process : server.kind = .delegated ↔ server.processId?.isSome = true
  launcher : server.kind = .delegated ↔ (scene.state.launcher? port).isSome = true
  log : ∃ before service source answer after,
    scene.journal = before ++ .launched service port source answer :: after ∧
      (∀ event ∈ after, event.port ≠ port) ∧
      server.stages = openingStages source ++ closingStages server.kind

-- The tables of an orchestrator, the simulated server and the dispatcher agree.
structure RegistryHolds (scene : Scene World) : Prop where
  instances : ∀ port server, (port, server) ∈ scene.state.instances → Registered scene port server
  launchers : ∀ port service, scene.state.launcher? port = some service →
    ∃ server, scene.state.get? port = some server
  intercepted : scene.state.dispatcher.isIntercepted = true ↔
    scene.state.network.isServing = true
  serving : ∀ port, scene.state.network.serving = some port ↔ SimulationStands port scene.journal
  simulated : ∀ port, scene.state.network.serving = some port →
    ∃ server, scene.state.get? port = some server ∧ server.kind = .simulated

theorem registered_sound (scene : Scene World) (sound : Sound scene.state scene.journal)
    (port : Nat) (server : Instance) (found : scene.state.get? port = some server) :
    Registered scene port server := by
  obtain ⟨past, current, whole, standing⟩ := sound.accounted port
  generalize launched : scene.state.launcher? port = launcher at standing
  rw [found] at standing
  cases standing with
  | delegated _ service source id own_port process stages =>
      have kind : server.kind = .delegated := by simp [Instance.kind, process]
      obtain ⟨earlier, later, journal, latest⟩ := last_on port _ _ _ whole
      refine ⟨found, own_port, ?_, ?_, earlier, service, source, _, later, journal, latest, ?_⟩
      · simp [kind, Instance.processId?, process]
      · simp [kind, launched]
      · rw [kind]
        exact stages
  | simulated _ service source error own_port simulation stages =>
      have kind : server.kind = .simulated := by simp [Instance.kind, simulation]
      obtain ⟨earlier, later, journal, latest⟩ := last_on port _ _ _ whole
      refine ⟨found, own_port, ?_, ?_, earlier, service, source, _, later, journal, latest, ?_⟩
      · simp [kind, Instance.processId?, simulation]
      · simp [kind, launched]
      · rw [kind]
        exact stages

theorem run_registry [Json.Dialect] (around : Surroundings World) (service : Service)
    (settings : Settings) (latency : Latency) (world : World) (operations : List Operation) :
    let scene := (Scene.initial service settings latency world).run around operations
    Happens around world scene.journal scene.world ∧ RegistryHolds scene := by
  intro scene
  have sound : Sound scene.state scene.journal :=
    run_sound around operations _ (initial_sound service settings latency)
  refine ⟨run_happens around operations _ world (.nothing world), ?_⟩
  constructor
  · intro port server member
    apply registered_sound scene sound
    exact Table.find?_of_mem portLess_orders port server _ sound.sorted member
  · intro port service launched
    obtain ⟨_, current, _, standing⟩ := sound.accounted port
    rw [launched] at standing
    generalize found : scene.state.get? port = server at standing ⊢
    cases standing
    exact ⟨_, rfl⟩
  · rw [sound.intercepted]
  · intro port
    rw [sound.simulation, simulation_iff]
  · exact sound.registered

/-- Every accepted launch is ended by one call to the service that accepted it, made when the
instance leaves the registry, and no other instance is ended by a call. -/
theorem run_episodes [Json.Dialect] (around : Surroundings World) (service : Service)
    (settings : Settings) (latency : Latency) (world : World) (operations : List Operation) :
    let scene := (Scene.initial service settings latency world).run around operations
    Happens around world scene.journal scene.world ∧
      ∀ port, Accounted port scene.journal scene.state := by
  intro scene
  have sound : Sound scene.state scene.journal :=
    run_sound around operations _ (initial_sound service settings latency)
  exact ⟨run_happens around operations _ world (.nothing world), sound.accounted⟩

end EndpointPreview.Execution
