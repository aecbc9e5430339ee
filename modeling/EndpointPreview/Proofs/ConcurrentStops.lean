import EndpointPreview.Proofs.Callers
import EndpointPreview.Proofs.Interception
import Mathlib.Data.List.Nodup

/-!
Stopping every instance at once. One caller stops each registered port, and their steps come in
any order. The stop requests that were made and those that are still owed are together always
the same, so each delegated instance costs its own service one request; and whichever caller
finds the simulated server on its port, the network ends where stopping it leads.
-/

namespace EndpointPreview.Execution

open Text Http Preview

variable {World : Type}

def Event.halt? : Event → Option (Nat × Service)
  | halted service port _ => some (port, service)
  | _ => none

def Crowd.halts (crowd : Crowd World) : List (Nat × Service) :=
  crowd.events.filterMap Event.halt?

/-- The stop request that the instance of a port calls for: to the service that launched it. -/
def Orchestrator.stopRequest (port : Nat) (state : Orchestrator) : List (Nat × Service) :=
  match state.get? port, state.launcher? port with
  | some server, some service => if server.kind = .delegated then [(port, service)] else []
  | _, _ => []

def Caller.owed (state : Orchestrator) (caller : Caller) : List (Nat × Service) :=
  match caller.phase with
  | .withdrawing _ => state.stopRequest caller.port
  | .halting service _ => [(caller.port, service)]
  | _ => []

namespace Orchestrator

theorem mem_stopRequest (state : Orchestrator) (port : Nat) (request : Nat × Service) :
    request ∈ state.stopRequest port ↔
      ∃ server, state.get? port = some server ∧ server.kind = .delegated ∧
        request.1 = port ∧ state.launcher? port = some request.2 := by
  obtain ⟨other, service⟩ := request
  unfold stopRequest
  constructor
  · intro member
    split at member
    · next server own found launched =>
        split at member
        · next kind =>
            cases List.mem_singleton.mp member
            exact ⟨server, found, kind, rfl, launched⟩
        · cases member
    · cases member
  · rintro ⟨server, found, kind, rfl, launched⟩
    rw [found, launched]
    simp [kind]

theorem stopRequest_nodup (state : Orchestrator) (port : Nat) :
    (state.stopRequest port).Nodup := by
  unfold stopRequest
  split
  · split
    · exact List.nodup_singleton _
    · exact List.nodup_nil
  · exact List.nodup_nil

theorem stopRequest_of_same {state later : Orchestrator} {port : Nat}
    (get : later.get? port = state.get? port)
    (launcher : later.launcher? port = state.launcher? port) :
    later.stopRequest port = state.stopRequest port := by
  unfold stopRequest
  rw [get, launcher]

theorem stopRequests_nodup (state : Orchestrator) (ports : List Nat) (once : ports.Nodup) :
    (ports.flatMap state.stopRequest).Nodup := by
  apply List.nodup_flatMap.mpr
  refine ⟨fun port _ => state.stopRequest_nodup port, once.imp ?_⟩
  intro port other different request here there
  obtain ⟨_, _, _, own, _⟩ := (state.mem_stopRequest port request).mp here
  obtain ⟨_, _, _, same, _⟩ := (state.mem_stopRequest other request).mp there
  exact different (own.symm.trans same)

/-- Everything but the registry is as in `other`, once the simulated server is stopped. -/
def AgreesApart (state other : Orchestrator) : Prop :=
  state.stopNetwork =
    { other.stopNetwork with instances := state.instances, launchers := state.launchers }

theorem AgreesApart.refl (state : Orchestrator) : state.AgreesApart state := rfl

theorem AgreesApart.cleared {state other : Orchestrator} (agrees : state.AgreesApart other)
    (port : Nat) : (state.cleared port).AgreesApart other := by
  have tables : (state.cleared port).stopNetwork =
      { state.stopNetwork with
        instances := (state.cleared port).instances
        launchers := (state.cleared port).launchers } := rfl
  unfold AgreesApart
  rw [tables, agrees]

theorem stopNetwork_stopNetwork (state : Orchestrator) :
    state.stopNetwork.stopNetwork = state.stopNetwork := by
  have idle : state.stopNetwork.network.isServing = false :=
    congrArg Option.isSome state.stopNetwork_serving
  generalize state.stopNetwork = stopped at idle
  simp [stopNetwork, Network.stop, idle]

theorem AgreesApart.stopNetwork {state other : Orchestrator} (agrees : state.AgreesApart other) :
    state.stopNetwork.AgreesApart other :=
  (state.stopNetwork_stopNetwork).trans agrees

theorem AgreesApart.stop [Json.Dialect] {state other : Orchestrator}
    (agrees : state.AgreesApart other) (around : Surroundings World) (port : Nat) (world : World) :
    (state.stop around port world).1.AgreesApart other := by
  cases found : state.get? port with
  | none =>
      rw [(state.stop_free around port world found).1]
      exact agrees
  | some server =>
      have cleared := agrees.cleared port
      have stopped : (state.stop around port world).1 = ((state.cleared port).release around port
          server (state.launcher? port) world).1 := by
        simp [Orchestrator.stop, withdraw, found, Orchestrator.cleared]
      rw [stopped]
      unfold release stopNetworkOn
      split
      · exact cleared
      · split
        · exact cleared.stopNetwork
        · exact cleared

theorem AgreesApart.stopEach [Json.Dialect] {state other : Orchestrator}
    (agrees : state.AgreesApart other) (around : Surroundings World) (ports : List Nat)
    (world : World) :
    (stopEach around ports state world).1.AgreesApart other := by
  induction ports generalizing state world with
  | nil => exact agrees
  | cons port ports ih => exact ih (agrees.stop around port world) _

/-- With no instance left there is one state that the end of the simulated server leads to. -/
theorem AgreesApart.emptied {state other : Orchestrator} (agrees : state.AgreesApart other)
    (no_instance : ∀ port, state.get? port = none) (no_launcher : ∀ port, state.launcher? port = none) :
    state.stopNetwork = { other.stopNetwork with instances := [], launchers := [] } := by
  have instances := Table.eq_nil_of_find? portLess_orders state.instances no_instance
  have launchers := Table.eq_nil_of_find? portLess_orders state.launchers no_launcher
  rw [agrees, instances, launchers]

end Orchestrator

theorem Sound.owned {state : Orchestrator} {journal : List Event} (sound : Sound state journal)
    (port : Nat) (free : state.get? port = none) : state.launcher? port = none := by
  obtain ⟨_, _, _, standing⟩ := sound.accounted port
  rw [free] at standing
  generalize state.launcher? port = launcher at standing ⊢
  cases standing
  rfl

theorem Sound.launcher {state : Orchestrator} {journal : List Event} (sound : Sound state journal)
    (port : Nat) (server : Instance) (found : state.get? port = some server)
    (kind : server.kind = .delegated) : ∃ service, state.launcher? port = some service := by
  obtain ⟨_, _, _, standing⟩ := sound.accounted port
  rw [found] at standing
  generalize state.launcher? port = launcher at standing ⊢
  cases standing with
  | delegated _ service => exact ⟨service, rfl⟩
  | simulated _ _ _ _ _ simulation => simp [Instance.kind, simulation] at kind

inductive Phase.Stopping : Phase → Prop where
  | withdrawing : Stopping (withdrawing none)
  | halting (service : Service) : Stopping (halting service none)
  | probing : Stopping (probing none)
  | silencing : Stopping (silencing none)
  | finished : Stopping finished

-- All that a step of such a caller can do: its port leaves the registry when it withdraws and stays
-- out of it, and a request that it no longer owes is in the journal.
structure StopStep (caller : Caller) (state : Orchestrator) (progress : Progress World) :
    Prop where
  phase : progress.phase.Stopping
  registry : (caller.phase = .withdrawing none ∧
      (progress.state = state ∧ state.get? caller.port = none ∨
        progress.state = state.cleared caller.port)) ∨
    (caller.phase ≠ .withdrawing none ∧
      (progress.state = state ∨ progress.state = state.stopNetwork))
  moves_on : progress.phase ≠ .withdrawing none
  requests : caller.owed state =
    Caller.owed progress.state ⟨caller.port, progress.phase⟩ ++
      (progress.deeds.filterMap Deed.event?).filterMap Event.halt?

theorem releasing_owed (port : Nat) (server : Instance) (state later : Orchestrator)
    (found : state.get? port = some server) :
    Caller.owed later ⟨port, .releasing server (state.launcher? port) none⟩ =
      state.stopRequest port := by
  unfold Phase.releasing Orchestrator.stopRequest
  rw [found]
  cases kind : server.kind <;> cases state.launcher? port <;> simp [Caller.owed, kind]

theorem releasing_stopping (server : Instance) (launcher : Option Service) :
    (Phase.releasing server launcher none).Stopping := by
  unfold Phase.releasing
  split
  · exact .halting _
  · exact .probing

theorem Caller.step_stopping [Json.Dialect] (around : Surroundings World) (now : Millis)
    (caller : Caller) (state : Orchestrator) (world : World) (stopping : caller.phase.Stopping) :
    StopStep caller state (caller.step around now state world) := by
  obtain ⟨port, phase⟩ := caller
  dsimp only at stopping
  cases stopping with
  | withdrawing =>
      cases found : state.get? port with
      | none =>
          have free : state.withdraw port = (none, state) := by
            simp [Orchestrator.withdraw, found]
          have no_request : state.stopRequest port = [] := by
            simp [Orchestrator.stopRequest, found]
          constructor
          · simpa [Caller.step, free, Phase.onward] using Phase.Stopping.finished
          · exact .inl ⟨rfl, .inl ⟨by simp [Caller.step, free], found⟩⟩
          · simp [Caller.step, free, Phase.onward]
          · simp [Caller.step, Caller.owed, free, no_request, Phase.onward, Deed.event?]
      | some server =>
          have taken : state.withdraw port =
              (some (server, state.launcher? port), state.cleared port) := by
            simp [Orchestrator.withdraw, found, Orchestrator.cleared]
          have owed := releasing_owed port server state (state.cleared port) found
          have phase := releasing_stopping server (state.launcher? port)
          constructor
          · simpa [Caller.step, taken] using phase
          · exact .inl ⟨rfl, .inr (by simp [Caller.step, taken])⟩
          · have other : Phase.releasing server (state.launcher? port) none ≠ .withdrawing none := by
              unfold Phase.releasing
              split <;> simp
            simpa [Caller.step, taken] using other
          · simp only [Caller.step, taken]
            rw [owed]
            exact (List.append_nil _).symm
  | halting service =>
      exact ⟨.finished, .inr ⟨by simp, .inl rfl⟩, by simp [Caller.step, Phase.onward], rfl⟩
  | probing =>
      by_cases here : (state.network.serving == some port) = true
      · have next : Caller.step around now ⟨port, .probing none⟩ state world =
            ⟨.silencing none, state, world, []⟩ := if_pos here
        rw [next]
        exact ⟨.silencing, .inr ⟨by simp, .inl rfl⟩, by simp, rfl⟩
      · have next : Caller.step around now ⟨port, .probing none⟩ state world =
            ⟨.finished, state, world, []⟩ := if_neg here
        rw [next]
        exact ⟨.finished, .inr ⟨by simp, .inl rfl⟩, by simp, rfl⟩
  | silencing =>
      exact ⟨.finished, .inr ⟨by simp, .inr rfl⟩, by simp [Caller.step, Phase.onward], rfl⟩
  | finished => exact ⟨.finished, .inr ⟨by simp, .inl rfl⟩, by simp [Caller.step], rfl⟩

structure StopsUnderWay (start : Orchestrator) (crowd : Crowd World) : Prop where
  ports : crowd.callers.map Caller.port = start.ports
  phases : ∀ caller ∈ crowd.callers, caller.phase.Stopping
  gone : ∀ port, crowd.state.get? port = none ∨ ⟨port, .withdrawing none⟩ ∈ crowd.callers
  owned : ∀ port, crowd.state.get? port = none → crowd.state.launcher? port = none
  requests : (crowd.callers.flatMap (Caller.owed crowd.state) ++ crowd.halts).Perm
    (start.ports.flatMap start.stopRequest)
  apart : crowd.state.AgreesApart start

/-- A step of a stopping caller leaves the registry of all other ports alone. -/
theorem StopStep.elsewhere {caller : Caller} {state : Orchestrator} {progress : Progress World}
    (step : StopStep caller state progress) (port : Nat) (different : port ≠ caller.port) :
    progress.state.get? port = state.get? port ∧
      progress.state.launcher? port = state.launcher? port := by
  rcases step.registry with ⟨_, ⟨same, _⟩ | cleared⟩ | ⟨_, same | stopped⟩
  · rw [same]
    exact ⟨rfl, rfl⟩
  · rw [cleared]
    exact ⟨state.cleared_get?_other caller.port port different,
      state.cleared_launcher?_other caller.port port different⟩
  · rw [same]
    exact ⟨rfl, rfl⟩
  · rw [stopped]
    exact ⟨rfl, rfl⟩

theorem owed_elsewhere {caller : Caller} {state : Orchestrator} {progress : Progress World}
    (step : StopStep caller state progress) (callers : List Caller)
    (others : ∀ other ∈ callers, other.port ≠ caller.port) :
    callers.flatMap (Caller.owed progress.state) = callers.flatMap (Caller.owed state) := by
  apply List.flatMap_congr
  intro other member
  obtain ⟨get, launcher⟩ := step.elsewhere other.port (others other member)
  unfold Caller.owed
  split
  · exact Orchestrator.stopRequest_of_same get launcher
  · rfl
  · rfl

theorem StopStep.owned {caller : Caller} {state : Orchestrator} {progress : Progress World}
    (step : StopStep caller state progress)
    (owned : ∀ port, state.get? port = none → state.launcher? port = none) (port : Nat)
    (free : progress.state.get? port = none) : progress.state.launcher? port = none := by
  by_cases own : port = caller.port
  · rcases step.registry with ⟨_, ⟨same, _⟩ | cleared⟩ | ⟨_, same | stopped⟩
    · rw [same] at free ⊢
      exact owned port free
    · rw [cleared, own]
      exact state.cleared_launcher? caller.port
    · rw [same] at free ⊢
      exact owned port free
    · rw [stopped] at free ⊢
      exact owned port free
  · obtain ⟨get, launcher⟩ := step.elsewhere port own
    rw [get] at free
    rw [launcher]
    exact owned port free

theorem StopStep.apart {caller : Caller} {state start : Orchestrator} {progress : Progress World}
    (step : StopStep caller state progress) (apart : state.AgreesApart start) :
    progress.state.AgreesApart start := by
  rcases step.registry with ⟨_, ⟨same, _⟩ | cleared⟩ | ⟨_, same | stopped⟩
  · rwa [same]
  · rw [cleared]
    exact apart.cleared caller.port
  · rwa [same]
  · rw [stopped]
    exact apart.stopNetwork

-- After its step a caller's port is gone, unless it was there for a caller yet to withdraw it.
theorem StopStep.gone {caller : Caller} {state : Orchestrator} {progress : Progress World}
    (step : StopStep caller state progress)
    (before : state.get? caller.port = none ∨ caller.phase = .withdrawing none) :
    progress.state.get? caller.port = none := by
  rcases step.registry with ⟨_, ⟨same, free⟩ | cleared⟩ | ⟨other, same | stopped⟩
  · rwa [same]
  · rw [cleared]
    exact state.cleared_get? caller.port
  · rw [same]
    exact before.resolve_right other
  · rw [stopped]
    exact before.resolve_right other

theorem StopsUnderWay.step [Json.Dialect] {start : Orchestrator} {crowd : Crowd World}
    (holds : StopsUnderWay start crowd) (once : start.ports.Nodup) (around : Surroundings World)
    (index : Nat) (caller : Caller) (now : Millis) (found : crowd.callers[index]? = some caller) :
    StopsUnderWay start
      (crowd.moved index caller.port (caller.step around now crowd.state crowd.world)) := by
  have phase := holds.phases caller (List.mem_of_getElem? found)
  have step := caller.step_stopping around now crowd.state crowd.world phase
  generalize caller.step around now crowd.state crowd.world = progress at step
  obtain ⟨before, after, whole, moved⟩ := crowd.moved_callers index caller found progress
  have others : ∀ other ∈ before ++ after, other.port ≠ caller.port := by
    have single := holds.ports ▸ once
    rw [whole, List.map_append, List.map_cons, List.nodup_middle, List.nodup_cons,
      ← List.map_append] at single
    intro other member same
    exact single.1 (same ▸ List.mem_map_of_mem member)
  have split (other : Caller) : other ∈ crowd.callers → other = caller ∨ other ∈ before ++ after := by
    rw [whole]
    simp only [List.mem_append, List.mem_cons]
    tauto
  constructor
  · rw [moved, ← holds.ports, whole]
    simp only [List.map_append, List.map_cons]
  · rw [moved]
    intro other member
    rcases List.mem_append.mp member with early | late
    · exact holds.phases other (whole ▸ List.mem_append_left _ early)
    · rcases List.mem_cons.mp late with rfl | later
      · exact step.phase
      · exact holds.phases other
          (whole ▸ List.mem_append_right _ (List.mem_cons_of_mem _ later))
  · intro port
    by_cases own : port = caller.port
    · left
      rw [own]
      apply step.gone
      refine (holds.gone caller.port).imp_right fun waiting => ?_
      rcases split _ waiting with same | elsewhere
      · exact congrArg Caller.phase same.symm
      · exact absurd rfl (others ⟨caller.port, .withdrawing none⟩ elsewhere)
    · rcases holds.gone port with free | waiting
      · exact .inl ((step.elsewhere port own).1.trans free)
      · right
        rw [moved]
        rcases split _ waiting with same | elsewhere
        · exact absurd (congrArg Caller.port same) own
        · simp only [List.mem_append, List.mem_cons] at elsewhere ⊢
          tauto
  · exact step.owned holds.owned
  · have early := owed_elsewhere step before fun other member =>
      others other (List.mem_append_left _ member)
    have late := owed_elsewhere step after fun other member =>
      others other (List.mem_append_right _ member)
    have state : (crowd.moved index caller.port progress).state = progress.state := rfl
    refine List.Perm.trans ?_ holds.requests
    unfold Crowd.halts
    rw [Crowd.moved_events, moved, whole, state]
    simp only [List.flatMap_append, List.flatMap_cons, List.filterMap_append, step.requests, early,
      late]
    apply List.perm_iff_count.mpr
    intro request
    simp only [List.count_append]
    omega
  · exact step.apart holds.apart

theorem run_stopping [Json.Dialect] {start : Orchestrator} (once : start.ports.Nodup)
    (around : Surroundings World) (schedule : List Turn) (crowd : Crowd World)
    (holds : StopsUnderWay start crowd) : StopsUnderWay start (crowd.run around schedule) :=
  Crowd.run_keeps (StopsUnderWay start)
    (fun _ index caller now before found => before.step once around index caller now found)
    schedule crowd holds

theorem stopping_starts (start : Orchestrator) (world : World)
    (owned : ∀ port, start.get? port = none → start.launcher? port = none) :
    StopsUnderWay start (Crowd.of (start.ports.map Errand.stop) start world) := by
  constructor
  · simp [Crowd.of, Errand.caller, Function.comp_def]
  · intro caller member
    simp only [Crowd.of, List.map_map, List.mem_map] at member
    obtain ⟨port, _, rfl⟩ := member
    exact .withdrawing
  · intro port
    cases found : start.get? port with
    | none => exact .inl found
    | some server =>
        right
        have registered := start.mem_ports port server found
        simp only [Crowd.of, List.map_map, List.mem_map]
        exact ⟨port, registered, rfl⟩
  · exact owned
  · have each : (Crowd.of (start.ports.map Errand.stop) start world).callers.flatMap
        (Caller.owed start) = start.ports.flatMap start.stopRequest := by
      simp [Crowd.of, Errand.caller, Caller.owed, List.flatMap_map]
    change ((Crowd.of (start.ports.map Errand.stop) start world).callers.flatMap
      (Caller.owed start) ++ []).Perm _
    rw [each, List.append_nil]
  · exact .refl start

-- Stops every instance, each by a caller of its own, and then the simulated server.
def Orchestrator.stopAllTogether [Json.Dialect] (around : Surroundings World) (schedule : List Turn)
    (state : Orchestrator) (world : World) : Crowd World :=
  let last := (Crowd.of (state.ports.map Errand.stop) state world).run around schedule
  { last with state := last.state.stopNetwork }

structure AllStopped [Json.Dialect] (around : Surroundings World) (scene : Scene World)
    (last : Crowd World) : Prop where
  happened : Happens around scene.world last.events last.world
  instances : last.state.instances = []
  launchers : last.state.launchers = []
  idle : last.state.network.serving = none
  transport : last.state.dispatcher.active = .direct
  own_request : ∀ port server, scene.state.get? port = some server → server.kind = .delegated →
    ∃ service, scene.state.launcher? port = some service ∧ last.halts.count (port, service) = 1
  no_other : ∀ port service, (port, service) ∈ last.halts →
    ∃ server, scene.state.get? port = some server ∧ server.kind = .delegated ∧
      scene.state.launcher? port = some service
  as_in_turn : last.state = (scene.state.stopAll around scene.world).1

theorem stopAll_emptied [Json.Dialect] (around : Surroundings World) (state : Orchestrator)
    (world : World) (journal : List Event) (sound : Sound state journal) :
    (state.stopAll around world).1 =
      { state.stopNetwork with instances := [], launchers := [] } := by
  have each := state.stopEach_sound around state.ports world journal sound
  have apart := (Orchestrator.AgreesApart.refl state).stopEach around state.ports world
  have no_instance (port : Nat) :
      (Orchestrator.stopEach around state.ports state world).1.get? port = none := by
    apply Orchestrator.stopEach_get?
    cases found : state.get? port with
    | none => exact .inr rfl
    | some server => exact .inl (state.mem_ports port server found)
  exact apart.emptied no_instance fun port => each.owned port (no_instance port)

theorem stopAllTogether_ends [Json.Dialect] (around : Surroundings World) (service : Service)
    (settings : Settings) (latency : Latency) (world : World) (operations : List Operation)
    (schedule : List Turn) :
    let scene := (Scene.initial service settings latency world).run around operations
    let last := scene.state.stopAllTogether around schedule scene.world
    ((∀ index < scene.state.ports.length, 3 ≤ (schedule.map Turn.caller).count index) →
        last.IsDone) ∧
      (last.IsDone → AllStopped around scene last) := by
  intro scene last
  let crowd := Crowd.of (scene.state.ports.map Errand.stop) scene.state scene.world
  have sound : Sound scene.state scene.journal :=
    run_sound around operations _ (initial_sound service settings latency)
  have wired : scene.state.Wired :=
    run_wired around operations _ (initial_wired service settings latency)
  have once : scene.state.ports.Nodup := Table.keys_nodup portLess_orders _ sound.sorted
  have ends := run_stopping once around schedule crowd
    (stopping_starts scene.state scene.world sound.owned)
  constructor
  · intro enough
    apply Crowd.run_isDone around schedule crowd
    intro index caller found
    have inside := (List.getElem?_eq_some_iff.mp found).1
    simp only [crowd, Crowd.of, List.length_map] at inside
    have three : caller.phase.remaining = 3 := by
      obtain ⟨port, _, rfl⟩ : ∃ port, scene.state.ports[index]? = some port ∧
          ⟨port, .withdrawing none⟩ = caller := by
        simpa [crowd, Crowd.of, Errand.caller] using found
      rfl
    rw [three]
    exact enough index inside
  · intro done
    let after := crowd.run around schedule
    have no_instance (port : Nat) : after.state.get? port = none := by
      refine (ends.gone port).resolve_right fun waiting => ?_
      have phase : Phase.withdrawing none = .finished := done _ waiting
      cases phase
    have no_launcher (port : Nat) : after.state.launcher? port = none :=
      ends.owned port (no_instance port)
    have requests : after.halts.Perm (scene.state.ports.flatMap scene.state.stopRequest) := by
      have none_owed : after.callers.flatMap (Caller.owed after.state) = [] := by
        apply List.flatMap_eq_nil_iff.mpr
        intro caller member
        have phase : caller.phase = .finished := done caller member
        simp [Caller.owed, phase]
      have whole := ends.requests
      rwa [none_owed, List.nil_append] at whole
    have emptied : last.state =
        { scene.state.stopNetwork with instances := [], launchers := [] } :=
      ends.apart.emptied no_instance no_launcher
    constructor
    · exact crowd.run_happened around schedule scene.world (.nothing scene.world)
    · rw [emptied]
    · rw [emptied]
    · rw [emptied]
      exact scene.state.stopNetwork_serving
    · rw [emptied]
      exact (scene.state.stopNetwork_wired wired).idle scene.state.stopNetwork_serving
    · intro port server found kind
      obtain ⟨owner, launched⟩ := sound.launcher port server found kind
      refine ⟨owner, launched, ?_⟩
      change after.halts.count (port, owner) = 1
      rw [requests.count_eq]
      apply List.count_eq_one_of_mem (scene.state.stopRequests_nodup _ once)
      refine List.mem_flatMap.mpr ⟨port, scene.state.mem_ports port server found, ?_⟩
      exact (scene.state.mem_stopRequest port (port, owner)).mpr
        ⟨server, found, kind, rfl, launched⟩
    · intro port owner member
      obtain ⟨other, _, called⟩ := List.mem_flatMap.mp (requests.mem_iff.mp member)
      obtain ⟨server, found, kind, rfl, launched⟩ :=
        (scene.state.mem_stopRequest other (port, owner)).mp called
      exact ⟨server, found, kind, launched⟩
    · rw [emptied, stopAll_emptied around scene.state scene.world scene.journal sound]

end EndpointPreview.Execution
