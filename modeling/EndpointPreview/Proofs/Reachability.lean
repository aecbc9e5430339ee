import EndpointPreview.Proofs.Interception
import EndpointPreview.Proofs.LocalUrls
import EndpointPreview.StrictFormats

/-!
Which registered simulated servers answer. There is one simulated network, and a simulated launch
takes it over from the one before, whose instance stays registered. So a simulated instance answers
on its port exactly while its launch is the latest simulated one; requests to all the others, and
to a number that is no port of a URL, go to the direct transport.
-/

namespace EndpointPreview.Execution

open Text Http Preview

variable {World : Type}

def Orchestrator.disposition (now : Millis) (request : Request) (state : Orchestrator) :
    Disposition :=
  Preview.disposition now (fun _ => state.network) state.dispatcher request

theorem fetch_simulated [Json.Dialect] (around : Surroundings World) (now : Millis)
    (request : Request) (state : Orchestrator) (world : World) (payload : Json)
    (simulated : state.disposition now request = .simulated payload) :
    state.fetch around now request world =
      ((simulatedResponse? payload).elim (.error .unwritable) .ok, world) := by
  unfold Orchestrator.fetch Preview.fetch
  rw [show Preview.disposition now _ state.dispatcher request = _ from simulated]
  dsimp only
  cases simulatedResponse? payload <;> rfl

theorem fetch_forwarded [Json.Dialect] (around : Surroundings World) (now : Millis)
    (request : Request) (state : Orchestrator) (world : World) (transport : Transport)
    (forwarded : state.disposition now request = .forwarded transport) :
    state.fetch around now request world =
      (around.send transport request world).map (·.mapError .transport) id := by
  unfold Orchestrator.fetch Preview.fetch
  rw [show Preview.disposition now _ state.dispatcher request = _ from forwarded]
  rfl

section Requests

variable {state : Orchestrator} (wired : state.Wired) (now : Millis) (request : Request)
include wired

theorem disposition_refused (error : UrlError) (refused : Url.parse request.url = .error error) :
    state.disposition now request = .forwarded .direct := by
  unfold Orchestrator.disposition Preview.disposition
  cases serving : state.network.serving with
  | none => rw [wired.idle serving]
  | some port =>
      rw [wired.serving serving]
      simp [Network.intercept?, refused]

theorem disposition_elsewhere (url : Url) (read : Url.parse request.url = .ok url)
    (elsewhere : state.network.addressedBy url = false) :
    state.disposition now request = .forwarded .direct := by
  unfold Orchestrator.disposition Preview.disposition
  cases serving : state.network.serving with
  | none => rw [wired.idle serving]
  | some port =>
      rw [wired.serving serving]
      simp [Network.intercept?, read, elsewhere]

theorem disposition_here (port : Nat) (serving : state.network.serving = some port) (url : Url)
    (read : Url.parse request.url = .ok url) (here : state.network.addressedBy url = true) :
    state.disposition now request = .simulated (state.network.payload now url) := by
  unfold Orchestrator.disposition Preview.disposition
  rw [wired.serving serving]
  simp [Network.intercept?, read, here]

end Requests

def frontPage (port : Nat) : Bytes := Url.onPort (ascii "localhost") port (ascii "/")

def frontPayload (now : Millis) (state : Orchestrator) : Json :=
  (state.network.routes.get? (ascii "/")).getD (genericPayload now (ascii "/"))

/-- A request for the front page of a port is simulated exactly when the network serves there. -/
theorem frontPage_simulated {state : Orchestrator} (wired : state.Wired) (now : Millis)
    (port : Nat) (request : Request) (asked : request.url = frontPage port) :
    state.disposition now request =
      if 0 < port ∧ port ≤ maxPort ∧ state.network.serving = some port then
        .simulated (frontPayload now state)
      else .forwarded .direct := by
  have named : lowercase (ascii "localhost") ∈ Url.localNames := by decide
  have stops : ∀ b, (ascii "/").head? = some b → Url.endsAuthority b = true := by
    rintro b ⟨rfl⟩
    rfl
  by_cases addressable : 0 < port ∧ port ≤ maxPort
  · obtain ⟨url, read, loopback, own_port, path⟩ :=
      Url.parse_onPort (ascii "localhost") port (ascii "/") named stops addressable.1 addressable.2
    have read : Url.parse request.url = .ok url := by rw [asked]; exact read
    have front : url.path = ascii "/" := path
    by_cases serving : state.network.serving = some port
    · rw [if_pos ⟨addressable.1, addressable.2, serving⟩,
        disposition_here wired now request port serving url read
          (by simp [Network.addressedBy, loopback, own_port, serving]),
        Network.payload, front]
      rfl
    · rw [if_neg fun all => serving all.2.2]
      refine disposition_elsewhere wired now request url read ?_
      simp [Network.addressedBy, own_port, serving]
  · rw [if_neg fun all => addressable ⟨all.1, all.2.1⟩]
    obtain ⟨error, refused⟩ :=
      Url.parse_outside (ascii "localhost") port (ascii "/") named stops addressable
    exact disposition_refused wired now request error (by rw [asked]; exact refused)

/-- The instance answers exactly while its launch is the latest simulated one. -/
theorem run_reachable [Json.Dialect] (around : Surroundings World) (service : Service)
    (settings : Settings) (latency : Latency) (world : World) (operations : List Operation) :
    let scene := (Scene.initial service settings latency world).run around operations
    ∀ server ∈ scene.state.active, server.kind = .simulated →
      ∀ now request, request.url = frontPage server.port →
        (0 < server.port → server.port ≤ maxPort →
          SimulationStands server.port scene.journal →
            scene.state.fetch around now request scene.world =
              ((simulatedResponse? (frontPayload now scene.state)).elim
                (.error .unwritable) .ok, scene.world)) ∧
        (¬ (0 < server.port ∧ server.port ≤ maxPort ∧
            SimulationStands server.port scene.journal) →
          scene.state.fetch around now request scene.world =
            (around.send .direct request scene.world).map (·.mapError .transport) id) := by
  intro scene server _ _ now request asked
  have sound : Sound scene.state scene.journal :=
    run_sound around operations _ (initial_sound service settings latency)
  have wired : scene.state.Wired :=
    run_wired around operations _ (initial_wired service settings latency)
  have stands : scene.state.network.serving = some server.port ↔
      SimulationStands server.port scene.journal := by
    rw [sound.simulation, simulation_iff]
  have answer := frontPage_simulated wired now server.port request asked
  constructor
  · intro low high latest
    rw [if_pos ⟨low, high, stands.mpr latest⟩] at answer
    exact fetch_simulated around now request scene.state scene.world _ answer
  · intro elsewhere
    rw [if_neg fun all => elsewhere ⟨all.1, all.2.1, stands.mp all.2.2⟩] at answer
    exact fetch_forwarded around now request scene.state scene.world .direct answer

-- Nothing but a direct transport that counts the requests it is sent.
def counting : Surroundings Nat where
  send _ _ requests := (.ok ⟨404, [], [], []⟩, requests + 1)
  describe _ := []
  launch _ _ _ requests := (.error .disabled, requests)
  halt _ _ requests := (.ok (), requests)

def replacedOperations : List Operation :=
  [.start 0 [] (some 5000), .start 0 [] (some 5001)]

def replacedScene [Json.Dialect] : Scene Nat :=
  (Scene.initial .disabled {} ⟨0, 0⟩ 0).run counting replacedOperations

section Strict

attribute [local instance] Json.strict

theorem run_reachable_replaced :
    (∃ server ∈ replacedScene.state.active, server.kind = .simulated ∧ server.port = 5001) ∧
      (replacedScene.state.fetch counting 0 ⟨[], frontPage 5001, [], [], 0⟩ 0).2 = 0 := by
  have standing : ∃ server ∈ replacedScene.state.active,
      server.kind = .simulated ∧ server.port = 5001 :=
    ⟨_, List.mem_cons_of_mem _ List.mem_cons_self, rfl, rfl⟩
  refine ⟨standing, ?_⟩
  obtain ⟨server, member, kind, port⟩ := standing
  have reached := (run_reachable counting .disabled {} ⟨0, 0⟩ 0 replacedOperations server member
    kind 0 ⟨[], frontPage 5001, [], [], 0⟩ (by rw [port])).1
  rw [port] at reached
  refine congrArg Prod.snd (reached (by decide) (by decide) ?_)
  exact ⟨[_], .disabled, [], .disabled, [], rfl, fun _ _ _ _ => List.not_mem_nil,
    List.not_mem_nil⟩

/-- The instance that was replaced on the network is listed as running, and a request to it is
forwarded. -/
theorem replaced_unreachable :
    (∃ server ∈ replacedScene.state.active, server.kind = .simulated ∧ server.port = 5000) ∧
      replacedScene.state.fetch counting 0 ⟨[], frontPage 5000, [], [], 0⟩ 0 =
        (.ok ⟨404, [], [], []⟩, 1) :=
  ⟨⟨_, List.mem_cons_self, rfl, rfl⟩, rfl⟩

end Strict

end EndpointPreview.Execution
