import EndpointPreview.Proofs.NetworkRuns
import EndpointPreview.StrictFormats

/-!
A network on a dispatcher that others use too. There is one active transport: the network takes
it over when it starts, answers for its own port as long as nobody else takes it over in turn, and
puts the direct transport back when it stops. So it is transparent to those who left the direct
transport active, and a transport that was installed before the start does not come back.
-/

namespace EndpointPreview.Preview

open Text Http

variable {World : Type}

/-- The move of another user may change the active transport, or the network is stopped. -/
def Move.disturbs (number : Nat) : Move → Bool
  | start other _ _ => other != number
  | stop _ => true
  | install _ => true
  | restore => true
  | setRoute _ _ _ => false
  | setLatency _ _ _ => false
  | fetch _ _ => false

namespace Exchange

structure Holds (number : Nat) (exchange : Exchange World) : Prop where
  serving : (exchange.networks number).isServing = true
  active : exchange.dispatcher.active = .interceptor number

theorem start_holds [Json.Dialect] (send : Send World) (number port : Nat)
    (table : List (Bytes × Json)) (exchange : Exchange World)
    (stopped : (exchange.networks number).serving = none) :
    (exchange.after send (.start number port table)).Holds number := by
  constructor
  · exact congrArg Option.isSome (exchange.after_start send number port table).1
  · simp [after, Network.start, Network.isServing, stopped, Dispatcher.install]

theorem after_holds [Json.Dialect] (send : Send World) (number : Nat) (move : Move)
    (exchange : Exchange World) (calm : move.disturbs number = false)
    (holds : exchange.Holds number) :
    (exchange.after send move).Holds number := by
  have steady (apart : move.turns number = false) :
      ((exchange.after send move).networks number).isServing = true :=
    (congrArg Option.isSome (exchange.after_steady send number move apart).1).trans holds.serving
  cases move with
  | start other port table =>
      obtain rfl : other = number := by simpa [Move.disturbs] using calm
      constructor
      · exact congrArg Option.isSome (exchange.after_start send other port table).1
      · simp only [after, place_dispatcher, Network.start, if_pos holds.serving]
        exact holds.active
  | setRoute other path payload => exact ⟨steady rfl, holds.active⟩
  | setLatency other minMs maxMs => exact ⟨steady rfl, holds.active⟩
  | fetch now request => exact ⟨steady rfl, holds.active⟩
  | stop other => cases calm
  | install transport => cases calm
  | restore => cases calm

theorem run_holds [Json.Dialect] (send : Send World) (number : Nat) (moves : List Move)
    (exchange : Exchange World) (calm : ∀ move ∈ moves, move.disturbs number = false)
    (holds : exchange.Holds number) : (exchange.run send moves).Holds number := by
  induction moves generalizing exchange with
  | nil => exact holds
  | cons move moves ih =>
      obtain ⟨own, all⟩ := List.forall_mem_cons.mp calm
      exact ih _ all (exchange.after_holds send number move own holds)

-- Whichever network is stopped while it serves, the direct transport is the active one then.
theorem stop_restores [Json.Dialect] (send : Send World) (number port : Nat)
    (exchange : Exchange World) (serving : (exchange.networks number).serving = some port) :
    (exchange.after send (.stop number)).dispatcher.active = .direct := by
  simp [after, Network.stop, Network.isServing, serving, Dispatcher.restore]

end Exchange

-- What becomes of requests while the network serves, and what is active when one of the networks is
-- stopped; `prior` is the exchange when the network was started.
structure Transparent [Json.Dialect] (send : Send World) (number : Nat) (moves : List Move)
    (prior exchange : Exchange World) : Prop where
  own : ∀ now request url writes, Addressed number moves request url writes →
    exchange.disposition now request = .simulated (servedPayload now writes url.path)
  others : prior.dispatcher.active = .direct →
    ∀ now request, (¬ ∃ url writes, Addressed number moves request url writes) →
      exchange.fetch send now request =
        (send prior.dispatcher.active request exchange.world).map (·.mapError .transport) id
  restored : (exchange.after send (.stop number)).dispatcher.active = .direct
  -- Another network that still serves puts the direct transport back, too.
  released : ∀ other port, (exchange.networks other).serving = some port →
    (exchange.after send (.stop other)).dispatcher.active = .direct

theorem run_transparent [Json.Dialect] (send : Send World) (latency : Nat → Latency) (world : World)
    (before : List Move) (number port : Nat) (table : List (Bytes × Json)) (later : List Move)
    (stopped : (((Exchange.initial latency world).run send before).networks number).serving = none)
    (calm : ∀ move ∈ later, move.disturbs number = false) :
    Transparent send number (before ++ .start number port table :: later)
      ((Exchange.initial latency world).run send before)
      ((Exchange.initial latency world).run send (before ++ .start number port table :: later)) := by
  have holds : ((Exchange.initial latency world).run send
      (before ++ .start number port table :: later)).Holds number := by
    rw [Exchange.run_append, Exchange.run_cons]
    apply Exchange.run_holds send number later _ calm
    exact Exchange.start_holds send number port table _ stopped
  constructor
  · intro now request url writes addressed
    rw [Exchange.disposition_intercepted now request _ number holds.active,
      Exchange.intercept_addressed send latency world number _ now request url writes addressed]
    rfl
  · intro direct now request elsewhere
    rw [direct]
    apply Exchange.fetch_forwarded
    rw [Exchange.disposition_intercepted now request _ number holds.active,
      Exchange.intercept_elsewhere send latency world number _ now request elsewhere]
    rfl
  · obtain ⟨current, serving⟩ := Option.isSome_iff_exists.mp holds.serving
    exact Exchange.stop_restores send number current _ serving
  · intro other current serving
    exact Exchange.stop_restores send other current _ serving

def signed : Send Unit
  | .outside id, _, _ => (.ok ⟨id, [], [], []⟩, ())
  | _, _, _ => (.ok ⟨200, [], [], []⟩, ())

/-- A transport is installed and taken away again, and another network starts and stops. -/
def firstMoves : List Move := [.install (some (.outside 201)), .restore, .start 0 5000 [], .stop 0]

def signedRun [Json.Dialect] (moves : List Move) : Exchange Unit :=
  (Exchange.initial (fun _ => ⟨0, 0⟩) ()).run signed moves

section Strict

attribute [local instance] Json.strict

theorem run_transparent_second :
    ((signedRun firstMoves).networks 1).serving = none ∧
      (signedRun (firstMoves ++ .start 1 5001 [] :: [.setRoute 1 (ascii "/a") .null])).disposition 0
        { url := ascii "http://localhost:5001/a" } = .simulated .null ∧
      (signedRun (firstMoves ++ .start 1 5001 [] :: [.setRoute 1 (ascii "/a") .null])).fetch signed 0
        { url := ascii "http://example.com/" } = (.ok ⟨200, [], [], []⟩, ()) := by
  have calm : ∀ move ∈ [Move.setRoute 1 (ascii "/a") .null], move.disturbs 1 = false := by decide
  have transparent := run_transparent signed (fun _ => ⟨0, 0⟩) () firstMoves 1 5001 [] _ rfl calm
  have serves : Serves 1 5001 [(ascii "/a", .null)]
      (firstMoves ++ .start 1 5001 [] :: [.setRoute 1 (ascii "/a") .null]) :=
    ⟨firstMoves, [], _, rfl, by decide, rfl⟩
  refine ⟨rfl, ?_, ?_⟩
  · exact transparent.own 0 _ ⟨ascii "http", ascii "localhost", some 5001, ascii "/a", []⟩ _
      ⟨rfl, rfl, serves⟩
  · refine transparent.others rfl 0 _ ?_
    rintro ⟨url, writes, read, loopback, _⟩
    cases read
    cases loopback

/-- The transport that was active before the start is not asked while the network serves and is not
active again after the stop, and a network that still serves does not answer once the other one is
stopped. -/
theorem stop_forgets :
    (signedRun [.install (some (.outside 201))]).dispatcher.active = .outside 201 ∧
      (signedRun [.install (some (.outside 201)), .start 0 5000 []]).fetch signed 0
        { url := ascii "http://example.com/" } = (.ok ⟨200, [], [], []⟩, ()) ∧
      (signedRun [.install (some (.outside 201)), .start 0 5000 [], .stop 0]).dispatcher.active =
        .direct ∧
      ((signedRun [.start 0 5000 [], .start 1 5001 [], .stop 1]).networks 0).serving = some 5000 ∧
      (signedRun [.start 0 5000 [], .start 1 5001 [], .stop 1]).disposition 0
        { url := ascii "http://localhost:5000/" } = .forwarded .direct :=
  ⟨rfl, rfl, rfl, rfl, rfl⟩

end Strict

end EndpointPreview.Preview
