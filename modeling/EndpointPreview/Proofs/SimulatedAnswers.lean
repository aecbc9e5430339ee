import EndpointPreview.Proofs.Reachability
import EndpointPreview.Proofs.RouteTables
import EndpointPreview.StrictFormats

/-!
From a source to the answers of its simulated server. When the service fails, the network serves
the table of the source, and a request for the route of an endpoint, by any name of this machine and
with any query, is answered with the JSON text of what stands on that route. No transport is used.
-/

namespace EndpointPreview.Execution

open Text Http Preview Notation

variable {World : Type}

theorem stop_settings [Json.Dialect] (around : Surroundings World) (port : Nat)
    (state : Orchestrator) (world : World) :
    (state.stop around port world).1.service = state.service ∧
      (state.stop around port world).1.overrides = state.overrides := by
  obtain ⟨_, _, _, _, stopped⟩ := state.stop_frame around port world
  rw [stopped]
  exact ⟨rfl, rfl⟩

theorem startNetwork_network (port : Nat) (routes : Routes) (state : Orchestrator) :
    (state.startNetwork port routes).network = { state.network with serving := some port, routes } :=
  rfl

theorem launch_failed [Json.Dialect] (around : Surroundings World) (now : Millis) (source : Bytes)
    (port : Nat) (state : Orchestrator) (world : World) (error : ServiceError)
    (fails : (state.service.launch around (Orchestrator.executable source) port world).1 =
      .error error) :
    (state.launch around now source port world).2.1 =
      state.startNetwork port (routesOf source state.overrides) := by
  unfold Orchestrator.launch
  dsimp only
  generalize state.service.launch around (Orchestrator.executable source) port world = answer at fails
  obtain ⟨answer, after⟩ := answer
  dsimp only at fails
  subst fails
  rfl

/-- A start whose launch fails leaves the network with the table of the source. -/
theorem startOn_simulated [Json.Dialect] (around : Surroundings World) (now : Millis)
    (source : Bytes) (port : Nat) (state : Orchestrator) (world : World) (error : ServiceError)
    (fails : (state.service.launch around (Orchestrator.executable source) port
      (state.stop around port world).2).1 = .error error) :
    (state.startOn around now source port world).1.network.serving = some port ∧
      (state.startOn around now source port world).1.network.routes =
        routesOf source state.overrides := by
  obtain ⟨service, overrides⟩ := stop_settings around port state world
  rw [Orchestrator.startOn_eq]
  generalize state.stop around port world = stopped at fails service overrides
  obtain ⟨stopped, between⟩ := stopped
  dsimp only at fails service overrides ⊢
  rw [← service] at fails
  have launched := launch_failed around now source port stopped between error fails
  have network (server : Instance) (launcher : Option Service) (last : Orchestrator) :
      (last.register port server launcher).network = last.network := rfl
  rw [network, launched, startNetwork_network, overrides]
  exact ⟨rfl, rfl⟩

structure RouteRequest [Json.Dialect] (scene : Scene World) (around : Surroundings World)
    (source : Bytes) (port : Nat) (endpoint : Endpoint) (request : Request) : Prop where
  valid : Utf8.isValid source = true
  marked : hasMarker source = true
  low : 0 < port
  high : port ≤ maxPort
  serializable : ∀ entry ∈ scene.state.overrides, entry.2.isText = true
  fails : ∃ error, (scene.state.service.launch around (Orchestrator.executable source) port
    (scene.state.stop around port scene.world).2).1 = .error error
  parsed : endpoint ∈ (parse source).endpoints
  rooted : endpoint.route.head? = some (byte '/')
  unasked : byte '?' ∉ endpoint.route
  unmarked : byte '#' ∉ endpoint.route
  -- A name of this machine in any case, the port, the route and any query.
  addressed : ∃ host query, lowercase host ∈ Url.localNames ∧
    (query = [] ∨ ∃ text, query = byte '?' :: text) ∧
    request.url = Url.onPort host port (endpoint.route ++ query)

theorem start_answers [Json.Dialect] (around : Surroundings World) (service : Service)
    (settings : Settings)
    (latency : Latency) (world : World) (operations : List Operation) (source : Bytes)
    (port : Nat) (endpoint : Endpoint) (request : Request) (now later : Millis) (current : World)
    (asked : RouteRequest ((Scene.initial service settings latency world).run around operations)
      around source port endpoint request) :
    let scene := (Scene.initial service settings latency world).run around operations
    let started := (Operation.start now source (some port)).run around scene.state scene.world
    let payload := routePayload scene.state.overrides source later endpoint.route
    payload.isText = true ∧ started.1.disposition later request = .simulated payload ∧
      started.1.fetch around later request current =
        (.ok ⟨200, ascii "OK", simulatedHeaders, payload.render⟩, current) := by
  intro scene started payload
  obtain ⟨error, fails⟩ := asked.fails
  obtain ⟨host, query, named, queried, addressed⟩ := asked.addressed
  obtain ⟨serving, routes⟩ :=
    startOn_simulated around now source port scene.state scene.world error fails
  have wired : started.1.Wired :=
    operation_wired around (.start now source (some port)) scene.state scene.world
      (run_wired around operations _ (initial_wired service settings latency))
  have text : payload.isText = true := routePayload_text scene.state.overrides source later
    asked.serializable asked.valid endpoint asked.parsed
  have stops : ∀ b, (endpoint.route ++ query).head? = some b → Url.endsAuthority b = true := by
    intro b first
    rw [List.head?_append, asked.rooted] at first
    cases first
    rfl
  obtain ⟨url, read, loopback, own_port, path⟩ := Url.parse_onPort host port
    (endpoint.route ++ query) named stops asked.low asked.high
  rw [Url.path_route _ _ asked.rooted asked.unasked asked.unmarked queried] at path
  have simulated : started.1.disposition later request = .simulated payload := by
    rw [disposition_here wired later request port serving url (by rw [addressed]; exact read)
      (by simp [Network.addressedBy, loopback, own_port, started, Operation.run, Orchestrator.start,
        serving])]
    unfold Network.payload
    rw [path]
    change Disposition.simulated (((scene.state.startOn around now source port
      scene.world).1.network.routes.get? endpoint.route).getD _) = _
    rw [routes, routesOf_endpoint source _ asked.marked endpoint asked.parsed]
    rfl
  refine ⟨text, simulated, ?_⟩
  rw [fetch_simulated around later request started.1 current payload simulated]
  simp [simulatedResponse?, Json.render?, text]

/-- Two endpoints on one route, the second of which returns a dictionary with a letter that is no
ASCII one. -/
def greetingSource : Bytes :=
  ascii "@endpoint('/hi')\ndef first():\n    return 1\n\n@endpoint('/hi')\ndef second():\n" ++
    ascii "    return \x7b'a': \"caf" ++ [0xC3, 0xA9] ++ ascii "\"\x7d\n"

def greetingEndpoint : Endpoint :=
  { name := ascii "first"
    route := ascii "/hi"
    method := defaultMethod
    parameters := []
    body := ascii "def first():\n    return 1"
    line := 2
    headerLines := 1
    inlineBody := [] }

def greetingRequest : Request := { url := ascii "http://LocalHost:5000/hi?to=/#you" }

section Strict

attribute [local instance] Json.strict

theorem start_answers_greeting :
    RouteRequest ((Scene.initial .disabled {} ⟨0, 0⟩ 0).run counting []) counting greetingSource 5000
        greetingEndpoint greetingRequest ∧
      ((Operation.start 0 greetingSource (some 5000)).run counting
          ((Scene.initial .disabled {} ⟨0, 0⟩ 0).run counting []).state 0).1.fetch counting 0
          greetingRequest 0 =
        (.ok ⟨200, ascii "OK", simulatedHeaders,
          ascii "\x7b\"a\":\"caf" ++ [0xC3, 0xA9] ++ ascii "\"\x7d"⟩, 0) := by
  have asked : RouteRequest ((Scene.initial .disabled {} ⟨0, 0⟩ 0).run counting []) counting
      greetingSource 5000 greetingEndpoint greetingRequest := {
    valid := by decide +kernel
    marked := by decide +kernel
    low := by decide
    high := by decide
    serializable := fun _ member => absurd member List.not_mem_nil
    fails := ⟨.disabled, rfl⟩
    parsed := by decide +kernel
    rooted := by decide
    unasked := by decide
    unmarked := by decide
    addressed := ⟨ascii "LocalHost", ascii "?to=/#you", by decide, .inr ⟨_, rfl⟩, by decide⟩ }
  have written : Json.render (routePayload [] greetingSource 0 (ascii "/hi")) =
      ascii "\x7b\"a\":\"caf" ++ [0xC3, 0xA9] ++ ascii "\"\x7d" := by decide +kernel
  obtain ⟨_, _, answered⟩ := start_answers counting .disabled {} ⟨0, 0⟩ 0 [] greetingSource 5000
    greetingEndpoint greetingRequest 0 0 0 asked
  refine ⟨asked, answered.trans ?_⟩
  exact congrArg (fun body => (Except.ok (Response.mk 200 (ascii "OK") simulatedHeaders body), 0)) written

end Strict

end EndpointPreview.Execution
