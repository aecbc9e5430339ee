import EndpointPreview.Proofs.Registry

/-!
Which way requests take while an orchestrator runs: its network's interceptor is the active
transport exactly while the network serves, and the direct transport is at all other times.
-/

namespace EndpointPreview.Execution

open Text Http Preview

variable {World : Type}

namespace Orchestrator

def Wired (state : Orchestrator) : Prop :=
  state.dispatcher.active = if state.network.isServing then .interceptor networkId else .direct

theorem Wired.of_same {state later : Orchestrator} (wired : state.Wired)
    (serving : later.network.serving = state.network.serving)
    (dispatcher : later.dispatcher = state.dispatcher) : later.Wired := by
  have same : later.network.isServing = state.network.isServing :=
    congrArg Option.isSome serving
  unfold Wired
  rw [dispatcher, same]
  exact wired

theorem Wired.serving {state : Orchestrator} {port : Nat} (wired : state.Wired)
    (serving : state.network.serving = some port) :
    state.dispatcher.active = .interceptor networkId := by
  have serves : state.network.isServing = true := congrArg Option.isSome serving
  rw [wired, if_pos serves]

theorem Wired.idle {state : Orchestrator} (wired : state.Wired)
    (idle : state.network.serving = none) : state.dispatcher.active = .direct := by
  have stopped : state.network.isServing = false := congrArg Option.isSome idle
  rw [wired, stopped]
  rfl

theorem stopNetwork_serving (state : Orchestrator) :
    state.stopNetwork.network.serving = none := by
  cases serving : state.network.serving with
  | none => simp [stopNetwork, Network.stop, Network.isServing, serving]
  | some port => simp [stopNetwork, Network.stop, Network.isServing, serving]

theorem stopNetwork_wired (state : Orchestrator) (wired : state.Wired) :
    state.stopNetwork.Wired := by
  cases serving : state.network.serving with
  | none => simpa [stopNetwork, Network.stop, Network.isServing, serving] using wired
  | some port =>
      simp [Wired, stopNetwork, Network.stop, Network.isServing, serving, Dispatcher.restore]

theorem stopNetworkOn_wired (port : Nat) (state : Orchestrator) (wired : state.Wired) :
    (state.stopNetworkOn port).Wired := by
  unfold stopNetworkOn
  split
  · exact state.stopNetwork_wired wired
  · exact wired

theorem startNetwork_wired (port : Nat) (routes : Routes) (state : Orchestrator)
    (wired : state.Wired) : (state.startNetwork port routes).Wired := by
  cases serving : state.network.serving with
  | none =>
      simp [Wired, startNetwork, Network.start, Network.isServing, serving, Dispatcher.install]
  | some other =>
      have active := wired.serving serving
      simpa [Wired, startNetwork, Network.start, Network.isServing, serving] using active

theorem withdraw_wired (port : Nat) (state : Orchestrator) (wired : state.Wired) :
    (state.withdraw port).2.Wired := by
  unfold withdraw
  split
  · exact wired
  · exact wired.of_same rfl rfl

theorem release_wired [Json.Dialect] (around : Surroundings World) (port : Nat) (server : Instance)
    (launcher : Option Service) (state : Orchestrator) (world : World) (wired : state.Wired) :
    (state.release around port server launcher world).1.Wired := by
  unfold release
  split
  · exact wired
  · exact state.stopNetworkOn_wired port wired

theorem stop_wired [Json.Dialect] (around : Surroundings World) (port : Nat) (state : Orchestrator)
    (world : World) (wired : state.Wired) : (state.stop around port world).1.Wired := by
  have withdrawn := state.withdraw_wired port wired
  unfold stop
  generalize state.withdraw port = result at withdrawn
  obtain ⟨none | ⟨server, launcher⟩, later⟩ := result
  · exact withdrawn
  · exact later.release_wired around port server launcher world withdrawn

theorem stopEach_wired [Json.Dialect] (around : Surroundings World) (ports : List Nat)
    (state : Orchestrator) (world : World) (wired : state.Wired) :
    (stopEach around ports state world).1.Wired := by
  induction ports generalizing state world with
  | nil => exact wired
  | cons port ports ih => exact ih _ _ (state.stop_wired around port world wired)

theorem launch_wired [Json.Dialect] (around : Surroundings World) (now : Millis) (source : Bytes)
    (port : Nat) (state : Orchestrator) (world : World) (wired : state.Wired) :
    (state.launch around now source port world).2.1.Wired := by
  unfold launch
  dsimp only
  split
  · exact wired
  · exact state.startNetwork_wired port _ wired

theorem register_wired (port : Nat) (server : Instance) (launcher : Option Service)
    (state : Orchestrator) (wired : state.Wired) : (state.register port server launcher).Wired :=
  wired.of_same rfl rfl

theorem startOn_wired [Json.Dialect] (around : Surroundings World) (now : Millis) (source : Bytes)
    (port : Nat) (state : Orchestrator) (world : World) (wired : state.Wired) :
    (state.startOn around now source port world).1.Wired := by
  rw [startOn_eq]
  apply register_wired
  apply launch_wired
  exact state.stop_wired around port world wired

theorem allocate_wired (state : Orchestrator) (wired : state.Wired) : state.allocate.2.Wired := by
  unfold allocate
  dsimp only
  split
  · exact wired.of_same rfl rfl
  · exact wired.of_same rfl rfl

theorem start_wired [Json.Dialect] (around : Surroundings World) (now : Millis) (source : Bytes)
    (port : Option Nat) (state : Orchestrator) (world : World) (wired : state.Wired) :
    (state.start around now source port world).2.1.Wired := by
  cases port with
  | some port => exact state.startOn_wired around now source port world wired
  | none =>
      have allocated := state.allocate_wired wired
      unfold start
      generalize state.allocate = result at allocated
      obtain ⟨none | port, later⟩ := result
      · exact allocated
      · exact later.startOn_wired around now source port world allocated

end Orchestrator

theorem operation_wired [Json.Dialect] (around : Surroundings World) (operation : Operation)
    (state : Orchestrator) (world : World) (wired : state.Wired) :
    (operation.run around state world).1.Wired := by
  cases operation with
  | start now source port => exact state.start_wired around now source port world wired
  | stop port => exact state.stop_wired around port world wired
  | stopAll order =>
      apply Orchestrator.stopNetwork_wired
      exact state.stopEach_wired around _ world wired
  | allocate => exact state.allocate_wired wired
  | configure settings =>
      unfold Operation.run Orchestrator.configure
      dsimp only
      cases settings.validate with
      | error => exact wired
      | ok => exact wired.of_same rfl rfl
  | setService service => exact wired.of_same rfl rfl

theorem run_wired [Json.Dialect] (around : Surroundings World) (operations : List Operation)
    (scene : Scene World) (wired : scene.state.Wired) :
    (scene.run around operations).state.Wired := by
  induction operations generalizing scene with
  | nil => exact wired
  | cons operation operations ih =>
      apply ih (scene.after around operation)
      exact operation_wired around operation scene.state scene.world wired

theorem initial_wired (service : Service) (settings : Settings) (latency : Latency) :
    (Orchestrator.make service settings (.stopped latency) .fresh).Wired := rfl

end EndpointPreview.Execution
