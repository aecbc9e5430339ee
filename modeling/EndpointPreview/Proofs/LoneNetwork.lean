import EndpointPreview.Proofs.NetworkRuns
import EndpointPreview.StrictFormats

/-!
A network whose dispatcher has no other users. Its interceptor is the active transport exactly
while it serves, however often it was started, so a request is answered from its routes when it
names the port of the last start on this machine, and is sent over the direct transport otherwise.
-/

namespace EndpointPreview.Preview

open Text Http

variable {World : Type}

def Move.isOf (number : Nat) : Move → Bool
  | start other _ _ => other == number
  | stop other => other == number
  | setRoute other _ _ => other == number
  | setLatency other _ _ => other == number
  | fetch _ _ => true
  | install _ => false
  | restore => false

namespace Exchange

/-- The interceptor of the network is active while it serves, and nothing else at other times. -/
def Wired (number : Nat) (exchange : Exchange World) : Prop :=
  exchange.dispatcher.active =
    if (exchange.networks number).isServing then .interceptor number else .direct

theorem Wired.serving {number port : Nat} {exchange : Exchange World}
    (wired : exchange.Wired number) (serving : (exchange.networks number).serving = some port) :
    exchange.dispatcher.active = .interceptor number := by
  have serves : (exchange.networks number).isServing = true := congrArg Option.isSome serving
  rw [wired, if_pos serves]

theorem Wired.idle {number : Nat} {exchange : Exchange World} (wired : exchange.Wired number)
    (idle : (exchange.networks number).serving = none) : exchange.dispatcher.active = .direct := by
  have stopped : (exchange.networks number).isServing = false := congrArg Option.isSome idle
  rw [wired, stopped]
  rfl

theorem Wired.of_same {number : Nat} {exchange later : Exchange World}
    (wired : exchange.Wired number)
    (serving : (later.networks number).serving = (exchange.networks number).serving)
    (dispatcher : later.dispatcher = exchange.dispatcher) : later.Wired number := by
  have same : (later.networks number).isServing = (exchange.networks number).isServing :=
    congrArg Option.isSome serving
  unfold Wired
  rw [dispatcher, same]
  exact wired

theorem start_wired [Json.Dialect] (send : Send World) (number port : Nat)
    (table : List (Bytes × Json)) (exchange : Exchange World) (wired : exchange.Wired number) :
    (exchange.after send (.start number port table)).Wired number := by
  cases serving : (exchange.networks number).serving with
  | none =>
      simp [Wired, after, Network.start, Network.isServing, serving, Dispatcher.install]
  | some other =>
      have active := wired.serving serving
      simpa [Wired, after, Network.start, Network.isServing, serving] using active

theorem stop_wired [Json.Dialect] (send : Send World) (number : Nat) (exchange : Exchange World)
    (wired : exchange.Wired number) : (exchange.after send (.stop number)).Wired number := by
  cases serving : (exchange.networks number).serving with
  | none =>
      have active := wired.idle serving
      simpa [Wired, after, Network.stop, Network.isServing, serving] using active
  | some port =>
      simp [Wired, after, Network.stop, Network.isServing, serving, Dispatcher.restore]

theorem after_wired [Json.Dialect] (send : Send World) (number : Nat) (move : Move)
    (exchange : Exchange World) (own : move.isOf number = true) (wired : exchange.Wired number) :
    (exchange.after send move).Wired number := by
  cases move with
  | start other port table =>
      obtain rfl : other = number := by simpa [Move.isOf] using own
      exact exchange.start_wired send other port table wired
  | stop other =>
      obtain rfl : other = number := by simpa [Move.isOf] using own
      exact exchange.stop_wired send other wired
  | setRoute other path payload =>
      exact wired.of_same (exchange.after_steady send number _ rfl).1 rfl
  | setLatency other minMs maxMs =>
      exact wired.of_same (exchange.after_steady send number _ rfl).1 rfl
  | fetch now request => exact wired.of_same rfl rfl
  | install transport => cases own
  | restore => cases own

theorem run_wired [Json.Dialect] (send : Send World) (number : Nat) (moves : List Move)
    (exchange : Exchange World) (alone : ∀ move ∈ moves, move.isOf number = true)
    (wired : exchange.Wired number) : (exchange.run send moves).Wired number := by
  induction moves generalizing exchange with
  | nil => exact wired
  | cons move moves ih =>
      obtain ⟨own, all⟩ := List.forall_mem_cons.mp alone
      exact ih _ all (exchange.after_wired send number move own wired)

theorem Wired.intercepted {number : Nat} {exchange : Exchange World}
    (wired : exchange.Wired number) :
    exchange.dispatcher.isIntercepted = (exchange.networks number).isServing := by
  unfold Dispatcher.isIntercepted
  rw [wired]
  cases (exchange.networks number).isServing <;> rfl

-- A network that does not serve answers nothing, so its interceptor need not be asked then.
theorem Wired.disposition {number : Nat} {exchange : Exchange World}
    (wired : exchange.Wired number) (now : Millis) (request : Request) :
    exchange.disposition now request =
      (((exchange.networks number).intercept? now request).map .simulated).getD
        (.forwarded .direct) := by
  cases serving : (exchange.networks number).serving with
  | none =>
      rw [exchange.disposition_direct now request (wired.idle serving),
        Network.intercept_idle _ now request serving]
      rfl
  | some port => exact exchange.disposition_intercepted now request number (wired.serving serving)

end Exchange

-- What becomes of requests after the moves of a network that has its dispatcher for itself.
structure AnswersAlone [Json.Dialect] (send : Send World) (number : Nat) (moves : List Move)
    (exchange : Exchange World) : Prop where
  intercepted : exchange.dispatcher.isIntercepted = true ↔
    (exchange.networks number).isServing = true
  serving : ∀ port, (exchange.networks number).serving = some port ↔
    ∃ writes, Serves number port writes moves
  undone : (exchange.after send (.stop number)).dispatcher.isIntercepted = false
  simulated : ∀ now request payload,
    exchange.disposition now request = .simulated payload ↔
      ∃ url writes, Addressed number moves request url writes ∧
        payload = servedPayload now writes url.path
  answered : ∀ now request url writes, Addressed number moves request url writes →
    (∀ entry ∈ writes, entry.2.isText = true) → Utf8.isValid url.path = true →
      exchange.fetch send now request =
        (.ok ⟨200, ascii "OK", simulatedHeaders, (servedPayload now writes url.path).render⟩,
          exchange.world)
  -- Any other request is sent once, as it is, and its response or error is the answer.
  forwarded : ∀ now request, (¬ ∃ url writes, Addressed number moves request url writes) →
    exchange.disposition now request = .forwarded .direct ∧
      exchange.fetch send now request =
        (send .direct request exchange.world).map (·.mapError .transport) id

theorem run_alone [Json.Dialect] (send : Send World) (latency : Nat → Latency) (world : World)
    (number : Nat) (moves : List Move) (alone : ∀ move ∈ moves, move.isOf number = true) :
    AnswersAlone send number moves ((Exchange.initial latency world).run send moves) := by
  have wired : ((Exchange.initial latency world).run send moves).Wired number :=
    Exchange.run_wired send number moves _ alone rfl
  have simulated (now : Millis) (request : Request) (url : Url) (writes : List (Bytes × Json))
      (addressed : Addressed number moves request url writes) :
      ((Exchange.initial latency world).run send moves).disposition now request =
        .simulated (servedPayload now writes url.path) := by
    rw [wired.disposition now request,
      Exchange.intercept_addressed send latency world number moves now request url writes addressed]
    rfl
  have forwarded (now : Millis) (request : Request)
      (elsewhere : ¬ ∃ url writes, Addressed number moves request url writes) :
      ((Exchange.initial latency world).run send moves).disposition now request =
        .forwarded .direct := by
    rw [wired.disposition now request,
      Exchange.intercept_elsewhere send latency world number moves now request elsewhere]
    rfl
  constructor
  · rw [wired.intercepted]
  · intro port
    exact Exchange.serving_iff send latency world number port moves
  · have stopped := Exchange.stop_wired send number _ wired
    rw [stopped.intercepted]
    exact congrArg Option.isSome (Exchange.after_stop send number _)
  · intro now request payload
    constructor
    · intro answer
      by_contra elsewhere
      rw [forwarded now request] at answer
      · cases answer
      · rintro ⟨url, writes, addressed⟩
        have same := (simulated now request url writes addressed).symm.trans answer
        exact elsewhere ⟨url, writes, addressed, (Disposition.simulated.inj same).symm⟩
    · rintro ⟨url, writes, addressed, rfl⟩
      exact simulated now request url writes addressed
  · intro now request url writes addressed text valid
    have written := servedPayload_text now writes url.path text valid
    rw [Exchange.fetch_simulated send now request _ _ (simulated now request url writes addressed)]
    simp [simulatedResponse?, Json.render?, written]
  · intro now request elsewhere
    have passed := forwarded now request elsewhere
    exact ⟨passed, Exchange.fetch_forwarded send now request _ .direct passed⟩

def failing : Send Nat :=
  fun _ _ requests => (.error (.reported (ascii "refused")), requests + 1)

/-- A route set on a stopped network, two starts, a latency that is none, and a route written over
one of the table. -/
def restartedMoves : List Move :=
  [.setRoute 0 (ascii "/b") (.nat 1), .start 0 5000 [(ascii "/a", .nat 2)],
    .start 0 5001 [(ascii "/b", .nat 3)], .setLatency 0 9 5, .setRoute 0 (ascii "/b") (.nat 4)]

def restarted [Json.Dialect] : Exchange Nat :=
  (Exchange.initial (fun _ => ⟨0, 0⟩) 0).run failing restartedMoves

section Strict

attribute [local instance] Json.strict

theorem run_alone_restarted :
    (∀ move ∈ restartedMoves, move.isOf 0 = true) ∧
      restarted.fetch failing 0 { url := ascii "http://[::1]:5001/b?c#d" } =
        (.ok ⟨200, ascii "OK", simulatedHeaders, ascii "4"⟩, 0) ∧
      restarted.fetch failing 0 { url := ascii "http://localhost:5000/a" } =
        (.error (.transport (.reported (ascii "refused"))), 1) := by
  have alone : ∀ move ∈ restartedMoves, move.isOf 0 = true := by decide
  have answers := run_alone failing (fun _ => ⟨0, 0⟩) 0 0 restartedMoves alone
  have serves : Serves 0 5001 [(ascii "/b", .nat 3), (ascii "/b", .nat 4)] restartedMoves :=
    ⟨restartedMoves.take 2, _, restartedMoves.drop 3, rfl, by decide, rfl⟩
  refine ⟨alone, ?_, ?_⟩
  · exact answers.answered 0 _ ⟨ascii "http", ascii "::1", some 5001, ascii "/b", ascii "c"⟩ _
      ⟨rfl, rfl, serves⟩ (by decide) (by decide)
  · refine (answers.forwarded 0 _ ?_).2
    rintro ⟨url, writes, read, loopback, served⟩
    cases read
    have elsewhere := (answers.serving 5000).mpr ⟨writes, served⟩
    cases elsewhere

end Strict

end EndpointPreview.Preview
