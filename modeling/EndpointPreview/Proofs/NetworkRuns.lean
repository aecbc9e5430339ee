import EndpointPreview.Proofs.RouteTables
import Mathlib.Data.List.Induction

/-!
Runs of simulated networks on one dispatcher. The networks are known by their numbers, and there
may be other users, who install transports or put the direct one back. What a network serves is
settled by its own last start and by the routes set since, whoever else acts in between.
-/

namespace EndpointPreview.Preview

open Text Http

variable {World : Type}

structure Exchange (World : Type) where
  networks : Nat → Network
  dispatcher : Dispatcher
  world : World

inductive Move where
  -- The table is made of assignments, the last one to a path winning.
  | start (number port : Nat) (table : List (Bytes × Json))
  | stop (number : Nat)
  | setRoute (number : Nat) (path : Bytes) (payload : Json)
  | setLatency (number : Nat) (minMs maxMs : Int)
  | install (transport : Option Transport)
  | restore
  | fetch (now : Millis) (request : Request)

def Network.relaxed (minMs maxMs : Int) (network : Network) : Network :=
  (network.setLatency minMs maxMs).toOption.getD network

theorem Network.relaxed_serves (minMs maxMs : Int) (network : Network) :
    (network.relaxed minMs maxMs).serving = network.serving ∧
      (network.relaxed minMs maxMs).routes = network.routes := by
  unfold relaxed setLatency
  split <;> exact ⟨rfl, rfl⟩

namespace Exchange

def initial (latency : Nat → Latency) (world : World) : Exchange World :=
  ⟨fun number => .stopped (latency number), .fresh, world⟩

def place (number : Nat) (changed : Network × Dispatcher) (exchange : Exchange World) :
    Exchange World :=
  { exchange with
    networks := Function.update exchange.networks number changed.1
    dispatcher := changed.2 }

def disposition (now : Millis) (request : Request) (exchange : Exchange World) : Disposition :=
  Preview.disposition now exchange.networks exchange.dispatcher request

def fetch [Json.Dialect] (send : Send World) (now : Millis) (request : Request)
    (exchange : Exchange World) : Except FetchError Response × World :=
  Preview.fetch send now exchange.networks exchange.dispatcher request exchange.world

def after [Json.Dialect] (send : Send World) (exchange : Exchange World) : Move → Exchange World
  | .start number port table =>
      exchange.place number
        ((exchange.networks number).start number port (Table.ofList precedes table)
          exchange.dispatcher)
  | .stop number => exchange.place number ((exchange.networks number).stop exchange.dispatcher)
  | .setRoute number path payload =>
      exchange.place number ((exchange.networks number).setRoute path payload, exchange.dispatcher)
  | .setLatency number minMs maxMs =>
      exchange.place number
        ((exchange.networks number).relaxed minMs maxMs, exchange.dispatcher)
  | .install transport => { exchange with dispatcher := exchange.dispatcher.install transport }
  | .restore => { exchange with dispatcher := exchange.dispatcher.restore }
  | .fetch now request => { exchange with world := (exchange.fetch send now request).2 }

def run [Json.Dialect] (send : Send World) (moves : List Move) (exchange : Exchange World) :
    Exchange World :=
  moves.foldl (after send) exchange

section Places

variable (number other : Nat) (changed : Network × Dispatcher) (exchange : Exchange World)

@[simp] theorem place_networks : (exchange.place number changed).networks number = changed.1 :=
  Function.update_self ..

theorem place_networks_other (different : other ≠ number) :
    (exchange.place number changed).networks other = exchange.networks other :=
  Function.update_of_ne different ..

@[simp] theorem place_dispatcher : (exchange.place number changed).dispatcher = changed.2 := rfl

end Places

theorem run_append [Json.Dialect] (send : Send World) (before later : List Move)
    (exchange : Exchange World) :
    exchange.run send (before ++ later) = (exchange.run send before).run send later :=
  List.foldl_append ..

theorem run_cons [Json.Dialect] (send : Send World) (move : Move) (later : List Move)
    (exchange : Exchange World) :
    exchange.run send (move :: later) = (exchange.after send move).run send later := rfl

theorem run_concat [Json.Dialect] (send : Send World) (moves : List Move) (move : Move)
    (exchange : Exchange World) :
    exchange.run send (moves ++ [move]) = (exchange.run send moves).after send move :=
  exchange.run_append send moves [move]

theorem fetch_simulated [Json.Dialect] (send : Send World) (now : Millis) (request : Request)
    (exchange : Exchange World) (payload : Json)
    (simulated : exchange.disposition now request = .simulated payload) :
    exchange.fetch send now request =
      ((simulatedResponse? payload).elim (.error .unwritable) .ok, exchange.world) := by
  unfold fetch Preview.fetch
  rw [show Preview.disposition now _ exchange.dispatcher request = _ from simulated]
  dsimp only
  cases simulatedResponse? payload <;> rfl

theorem fetch_forwarded [Json.Dialect] (send : Send World) (now : Millis) (request : Request)
    (exchange : Exchange World) (transport : Transport)
    (forwarded : exchange.disposition now request = .forwarded transport) :
    exchange.fetch send now request =
      (send transport request exchange.world).map (·.mapError .transport) id := by
  unfold fetch Preview.fetch
  rw [show Preview.disposition now _ exchange.dispatcher request = _ from forwarded]
  rfl

theorem disposition_direct (now : Millis) (request : Request) (exchange : Exchange World)
    (active : exchange.dispatcher.active = .direct) :
    exchange.disposition now request = .forwarded .direct := by
  unfold disposition Preview.disposition
  rw [active]

theorem disposition_intercepted (now : Millis) (request : Request) (exchange : Exchange World)
    (number : Nat) (active : exchange.dispatcher.active = .interceptor number) :
    exchange.disposition now request =
      (((exchange.networks number).intercept? now request).map .simulated).getD
        (.forwarded .direct) := by
  unfold disposition Preview.disposition
  rw [active]
  dsimp only
  cases (exchange.networks number).intercept? now request <;> rfl

end Exchange

theorem Network.intercept_iff (network : Network) (now : Millis) (request : Request)
    (payload : Json) :
    network.intercept? now request = some payload ↔
      ∃ url, Url.parse request.url = .ok url ∧ network.addressedBy url = true ∧
        payload = network.payload now url := by
  unfold Network.intercept?
  constructor
  · intro answered
    split at answered
    · rename_i url read
      split at answered
      · rename_i here
        cases answered
        exact ⟨url, read, here, rfl⟩
      · cases answered
    · cases answered
  · rintro ⟨url, read, here, rfl⟩
    simp only [read, if_pos here]

theorem Network.intercept_idle (network : Network) (now : Millis) (request : Request)
    (idle : network.serving = none) : network.intercept? now request = none := by
  cases answer : network.intercept? now request with
  | none => rfl
  | some payload =>
      obtain ⟨url, _, here, _⟩ := (network.intercept_iff now request payload).mp answer
      simp [Network.addressedBy, idle] at here

def Move.turns (number : Nat) : Move → Bool
  | start other _ _ => other == number
  | stop other => other == number
  | _ => false

def Move.write? (number : Nat) : Move → Option (Bytes × Json)
  | setRoute other path payload => if other = number then some (path, payload) else none
  | _ => none

/-- The network was last started on the port and not stopped since; the assignments are those of
its table and of the routes set since. -/
def Serves (number port : Nat) (writes : List (Bytes × Json)) (moves : List Move) : Prop :=
  ∃ before table later, moves = before ++ .start number port table :: later ∧
    (∀ move ∈ later, move.turns number = false) ∧
    writes = table ++ later.filterMap (Move.write? number)

theorem Serves.concat {number port : Nat} {writes : List (Bytes × Json)} {moves : List Move}
    (serves : Serves number port writes moves) (move : Move)
    (steady : move.turns number = false) :
    ∃ more, Serves number port more (moves ++ [move]) := by
  obtain ⟨before, table, later, rfl, stays, _⟩ := serves
  refine ⟨_, before, table, later ++ [move], by simp, ?_, rfl⟩
  exact List.forall_mem_append.mpr ⟨stays, List.forall_mem_singleton.mpr steady⟩

namespace Exchange

variable [Json.Dialect]

/-- A move that does not turn the network leaves its port and assigns to its routes at most. -/
theorem after_steady (send : Send World) (number : Nat) (move : Move)
    (exchange : Exchange World) (steady : move.turns number = false) :
    ((exchange.after send move).networks number).serving = (exchange.networks number).serving ∧
      ((exchange.after send move).networks number).routes =
        Table.setAll precedes (move.write? number).toList (exchange.networks number).routes := by
  have apart (other : Nat) (changed : Network × Dispatcher) (different : other ≠ number) :
      (exchange.place other changed).networks number = exchange.networks number :=
    exchange.place_networks_other other number changed (Ne.symm different)
  cases move with
  | start other port table =>
      have different : other ≠ number := by simpa [Move.turns] using steady
      exact ⟨congrArg Network.serving (apart other _ different),
        congrArg Network.routes (apart other _ different)⟩
  | stop other =>
      have different : other ≠ number := by simpa [Move.turns] using steady
      exact ⟨congrArg Network.serving (apart other _ different),
        congrArg Network.routes (apart other _ different)⟩
  | setRoute other path payload =>
      by_cases same : other = number
      · subst same
        simp [after, Move.write?, Network.setRoute, Routes.set, Table.setAll]
      · simp [after, Move.write?, same, apart other _ same, Table.setAll]
  | setLatency other minMs maxMs =>
      by_cases same : other = number
      · subst same
        obtain ⟨serving, routes⟩ := (exchange.networks other).relaxed_serves minMs maxMs
        simp [after, Move.write?, Table.setAll, serving, routes]
      · simp [after, Move.write?, apart other _ same, Table.setAll]
  | install transport => exact ⟨rfl, rfl⟩
  | restore => exact ⟨rfl, rfl⟩
  | fetch now request => exact ⟨rfl, rfl⟩

theorem run_steady (send : Send World) (number : Nat) (later : List Move)
    (exchange : Exchange World) (steady : ∀ move ∈ later, move.turns number = false) :
    ((exchange.run send later).networks number).serving = (exchange.networks number).serving ∧
      ((exchange.run send later).networks number).routes =
        Table.setAll precedes (later.filterMap (Move.write? number))
          (exchange.networks number).routes := by
  induction later generalizing exchange with
  | nil => exact ⟨rfl, rfl⟩
  | cons move later ih =>
      obtain ⟨own, all⟩ := List.forall_mem_cons.mp steady
      obtain ⟨serving, routes⟩ := exchange.after_steady send number move own
      obtain ⟨later_serving, later_routes⟩ := ih (exchange.after send move) all
      refine ⟨later_serving.trans serving, later_routes.trans ?_⟩
      rw [routes]
      cases written : move.write? number <;> simp [written, Table.setAll]

theorem after_start (send : Send World) (number port : Nat)
    (table : List (Bytes × Json)) (exchange : Exchange World) :
    ((exchange.after send (.start number port table)).networks number).serving = some port ∧
      ((exchange.after send (.start number port table)).networks number).routes =
        Table.ofList precedes table := by
  simp [after, Network.start]

theorem after_stop (send : Send World) (number : Nat) (exchange : Exchange World) :
    ((exchange.after send (.stop number)).networks number).serving = none := by
  cases serving : (exchange.networks number).serving with
  | none => simp [after, Network.stop, Network.isServing, serving]
  | some port => simp [after, Network.stop, Network.isServing, serving]

section Histories

variable (send : Send World) (latency : Nat → Latency) (world : World) (number : Nat)

theorem served_network {port : Nat} {writes : List (Bytes × Json)}
    {moves : List Move} (serves : Serves number port writes moves) :
    (((initial latency world).run send moves).networks number).serving = some port ∧
      (((initial latency world).run send moves).networks number).routes =
        Table.ofList precedes writes := by
  obtain ⟨before, table, later, rfl, steady, rfl⟩ := serves
  rw [run_append, run_cons]
  generalize (initial latency world).run send before = prior
  obtain ⟨started, loaded⟩ := prior.after_start send number port table
  obtain ⟨serving, routes⟩ := run_steady send number later _ steady
  refine ⟨serving.trans started, routes.trans ?_⟩
  rw [loaded]
  exact (List.foldl_append ..).symm

-- The last move either turns the network or keeps what it serves.
theorem serving_iff (port : Nat) (moves : List Move) :
    (((initial latency world).run send moves).networks number).serving = some port ↔
      ∃ writes, Serves number port writes moves := by
  constructor
  · intro serving
    induction moves using List.reverseRecOn with
    | nil => cases serving
    | append_singleton moves move ih =>
        rw [run_concat] at serving
        by_cases steady : move.turns number = false
        · rw [(after_steady send number move _ steady).1] at serving
          obtain ⟨writes, serves⟩ := ih serving
          exact serves.concat move steady
        · cases move with
          | start other started table =>
              have same : other = number := by simpa [Move.turns] using steady
              subst same
              rw [(after_start send other started table _).1] at serving
              cases serving
              exact ⟨_, moves, table, [], rfl, fun _ => (absurd · List.not_mem_nil), rfl⟩
          | stop other =>
              have same : other = number := by simpa [Move.turns] using steady
              subst same
              rw [after_stop] at serving
              cases serving
          | setRoute | setLatency | install | restore | fetch => exact absurd rfl steady
  · rintro ⟨writes, serves⟩
    exact (served_network send latency world number serves).1

end Histories

end Exchange

def servedPayload (now : Millis) (writes : List (Bytes × Json)) (path : Bytes) : Json :=
  (writes.reverse.lookup path).getD (genericPayload now path)

theorem servedPayload_text (now : Millis) (writes : List (Bytes × Json)) (path : Bytes)
    (text : ∀ entry ∈ writes, entry.2.isText = true) (valid : Utf8.isValid path = true) :
    (servedPayload now writes path).isText = true := by
  unfold servedPayload
  cases found : writes.reverse.lookup path with
  | none => exact genericPayload_text now path valid
  | some payload =>
      obtain ⟨before, after, whole, _⟩ := List.lookup_eq_some_iff.mp found
      apply text (path, payload)
      rw [← List.mem_reverse, whole]
      exact List.mem_append_right _ List.mem_cons_self

-- The request is for the simulated server of the network: its URL can be read and names this
-- machine and the port on which the network serves, 80 when it names none.
structure Addressed (number : Nat) (moves : List Move) (request : Request) (url : Url)
    (writes : List (Bytes × Json)) : Prop where
  read : Url.parse request.url = .ok url
  loopback : url.isLoopback = true
  serves : Serves number (url.port.getD defaultHttpPort) writes moves

namespace Exchange

section Answers

variable (send : Send World) (latency : Nat → Latency) (world : World) (number : Nat)
  (moves : List Move) (now : Millis) (request : Request)

theorem intercept_addressed [Json.Dialect] (url : Url) (writes : List (Bytes × Json))
    (addressed : Addressed number moves request url writes) :
    (((initial latency world).run send moves).networks number).intercept? now request =
      some (servedPayload now writes url.path) := by
  obtain ⟨serving, routes⟩ := served_network send latency world number addressed.serves
  refine (Network.intercept_iff _ now request _).mpr ⟨url, addressed.read, ?_, ?_⟩
  · simp [Network.addressedBy, addressed.loopback, serving]
  · unfold servedPayload Network.payload Routes.get?
    rw [routes, Table.find?_ofList precedes_orders]

theorem intercept_elsewhere [Json.Dialect]
    (elsewhere : ¬ ∃ url writes, Addressed number moves request url writes) :
    (((initial latency world).run send moves).networks number).intercept? now request = none := by
  cases answer : (((initial latency world).run send moves).networks number).intercept? now request with
  | none => rfl
  | some payload =>
      obtain ⟨url, read, here, _⟩ := (Network.intercept_iff _ now request payload).mp answer
      simp only [Network.addressedBy, Bool.and_eq_true, beq_iff_eq] at here
      obtain ⟨writes, serves⟩ := (serving_iff send latency world number _ moves).mp here.2
      exact absurd ⟨url, writes, read, here.1, serves⟩ elsewhere

end Answers

end Exchange
end EndpointPreview.Preview
