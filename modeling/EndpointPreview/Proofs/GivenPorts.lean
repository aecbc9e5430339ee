import EndpointPreview.Proofs.CommandReturns
import EndpointPreview.Proofs.Launches
import EndpointPreview.Proofs.PortAllocation
import EndpointPreview.StrictFormats

/-!
Ports that starts hand out, and what can be done with them afterwards. A start that is given no
port answers with one, and the server stays on it through everything that does not name it. By any
port but zero a later status finds that server and a later stop ends it. Port zero is handed out
too, as the first one of a configuration whose base is zero, and by it no command reaches the
server.
-/

namespace EndpointPreview.Execution

open Text Http Preview

variable {World : Type}

/-- The port base that was last taken over; none as soon as a port was asked for. -/
def Operation.untouched (base : Option Nat) : Operation → Option Nat
  | configure settings => if settings.validate.isOk then some settings.portBase else base
  | operation => if operation.asksPort then none else base

def CounterAt (state : Orchestrator) : Option Nat → Prop
  | some base => state.nextPort = base
  | none => 0 < state.nextPort

namespace Orchestrator

/-- After a request for a port the counter is past the first one. -/
theorem allocate_past (state : Orchestrator) : 0 < state.allocate.2.nextPort := by
  have allocates := state.allocate_allocates
  generalize state.allocate = result at allocates
  cases allocates with
  | handed port onward valid free => exact Nat.succ_pos port
  | refused nextPort onward past bounded taken => exact Nat.zero_lt_of_lt past

/-- The counter itself is handed out when it is a port that is free. -/
theorem allocate_first (state : Orchestrator) (valid : state.nextPort ≤ maxPort)
    (free : state.isRunning state.nextPort = false) :
    state.allocate.1 = some state.nextPort := by
  have stops : firstFree (state.isRunning ·) state.nextPort = state.nextPort := by
    rw [firstFree, if_neg]
    rintro ⟨_, taken⟩
    rw [free] at taken
    cases taken
  unfold allocate
  dsimp only
  rw [stops, if_pos valid]

/-- Port zero is handed out only from a counter that has not moved. -/
theorem allocate_zero (state : Orchestrator) :
    state.allocate.1 = some 0 ↔ state.nextPort = 0 ∧ state.isRunning 0 = false := by
  constructor
  · intro handed
    obtain ⟨onward, _, free, _⟩ := state.allocate_allocates.of_some handed
    exact ⟨Nat.le_zero.mp onward, free⟩
  · rintro ⟨unmoved, free⟩
    have first := state.allocate_first (by omega) (by rw [unmoved]; exact free)
    rw [unmoved] at first
    exact first

end Orchestrator

theorem operation_counter [Json.Dialect] (around : Surroundings World) (operation : Operation)
    (state : Orchestrator) (world : World) (base : Option Nat) (counter : CounterAt state base) :
    CounterAt (operation.run around state world).1 (operation.untouched base) := by
  have moves (steady : operation.reconfigures = false) :
      CounterAt (operation.run around state world).1
        (if operation.asksPort then none else base) := by
    have moved := operation_nextPort around operation state world steady
    cases asks : operation.asksPort with
    | true =>
        rw [asks, if_pos rfl] at moved
        rw [if_pos rfl, CounterAt, moved]
        exact state.allocate_past
    | false =>
        rw [asks, if_neg (by decide)] at moved
        rw [if_neg (by decide)]
        cases base with
        | none => exact Nat.lt_of_lt_of_eq counter moved.symm
        | some base => exact moved.trans counter
  cases operation with
  | configure settings =>
      cases valid : settings.validate.isOk with
      | true =>
          rw [configure_run, if_pos valid, Operation.untouched, if_pos valid]
          rfl
      | false =>
          rw [configure_run, valid, Operation.untouched, valid]
          exact counter
  | start now source port => exact moves rfl
  | stop port => exact moves rfl
  | stopAll order => exact moves rfl
  | allocate => exact moves rfl
  | setService service => exact moves rfl

-- The operation neither ends what is on the port nor is told to start something there.
def Operation.spares (port : Nat) : Operation → Bool
  | start _ _ (some other) => other != port
  | stop other => other != port
  | stopAll _ => false
  | _ => true

theorem operation_spares [Json.Dialect] (around : Surroundings World) (operation : Operation)
    (state : Orchestrator) (world : World) (port : Nat) (server : Instance)
    (spares : operation.spares port = true) (found : state.get? port = some server) :
    (operation.run around state world).1.get? port = some server := by
  cases operation with
  | start now source given =>
      cases given with
      | some other =>
          have apart : port ≠ other := (bne_iff_ne.mp spares).symm
          have lands := state.startOn_lands around now source other world
          exact (lands.others port apart).1.trans found
      | none =>
          have allocates := state.allocate_allocates
          unfold Operation.run Orchestrator.start
          generalize state.allocate = result at allocates
          cases allocates with
          | handed other onward valid free =>
              -- What is handed out is free, so it is not the port of the server.
              have apart : port ≠ other := by
                rintro rfl
                rw [Orchestrator.isRunning, found] at free
                cases free
              have lands := Orchestrator.startOn_lands around now source other
                { state with nextPort := other + 1 } world
              exact (lands.others port apart).1.trans found
          | refused nextPort onward past bounded taken => exact found
  | stop other =>
      have apart : port ≠ other := (bne_iff_ne.mp spares).symm
      exact (state.stop_get? around other world port).trans ((if_neg apart).trans found)
  | stopAll order => cases spares
  | allocate =>
      have keeps := state.allocate_allocates.keeps
      unfold Operation.run
      rw [keeps]
      exact found
  | configure settings =>
      rw [configure_run]
      split <;> exact found
  | setService service => exact found

end EndpointPreview.Execution

namespace EndpointPreview.Control

open Text Http Execution

variable {World : Type}

def Command.operation? (fileAt : Bytes → FileRead) (now : Preview.Millis) (name : Bytes)
    (params : Json) : Option Operation :=
  match params with
  | .obj members =>
      match ofName? name with
      | some .start =>
          (startParams fileAt members).toOption.map fun start => .start now start.1 start.2
      | some .stop => (requiredPort members).toOption.map .stop
      | some .stopAll => some (.stopAll .byPort)
      | _ => none
  | _ => none

/-- The orchestrator after a command is the one after its operation. -/
theorem dispatch_operates [Json.Dialect] (context : Context World) (name : Bytes) (params : Json)
    (state : Orchestrator) (world : World) :
    (Command.dispatch context name params state world).2.1 =
      match Command.operation? context.fileAt context.now name params with
      | some operation => (operation.run context.toSurroundings state world).1
      | none => state := by
  unfold Command.dispatch Command.operation?
  cases params with
  | obj members =>
      dsimp only
      cases Command.ofName? name with
      | none => rfl
      | some command =>
          cases command with
          | start =>
              dsimp only [Command.perform]
              cases Command.startParams context.fileAt members with
              | error error => rfl
              | ok start =>
                  dsimp only [Command.withParams, Except.toOption, Option.map, Operation.run]
                  unfold Command.performStart
                  generalize state.start context.toSurroundings context.now start.1 start.2
                    world = result
                  obtain ⟨error | port, later⟩ := result <;> rfl
          | stop =>
              dsimp only [Command.perform]
              cases requiredPort members <;> rfl
          | stopAll => rfl
          | fetch =>
              dsimp only [Command.perform]
              cases requestParam members <;> rfl
          | _ => rfl
  | _ => rfl

-- What happens to an orchestrator: an operation of its own, or a command.
inductive Act where
  | operate (operation : Operation)
  | command (fileAt : Bytes → FileRead) (now : Preview.Millis) (name : Bytes) (params : Json)

namespace Act

variable [Json.Dialect]

def operation? : Act → Option Operation
  | operate operation => some operation
  | command fileAt now name params => Command.operation? fileAt now name params

def run (around : Surroundings World) (act : Act) (state : Orchestrator)
    (world : World) : Orchestrator × World :=
  match act with
  | operate operation => operation.run around state world
  | command fileAt now name params =>
      (Command.dispatch ⟨around, fileAt, now⟩ name params state world).2

def runAll (around : Surroundings World) (acts : List Act)
    (scene : Orchestrator × World) : Orchestrator × World :=
  acts.foldl (fun scene act => act.run around scene.1 scene.2) scene

/-- The port base that was last taken over; none as soon as a port was asked for. -/
def untouched (base : Option Nat) (act : Act) : Option Nat :=
  act.operation?.elim base (Operation.untouched base)

def spares (port : Nat) (act : Act) : Bool := act.operation?.all (Operation.spares port)

variable (around : Surroundings World)

theorem run_operates (act : Act) (state : Orchestrator) (world : World) :
    (act.run around state world).1 =
      match act.operation? with
      | some operation => (operation.run around state world).1
      | none => state := by
  cases act with
  | operate operation => rfl
  | command fileAt now name params =>
      exact dispatch_operates ⟨around, fileAt, now⟩ name params state world

theorem run_counter (act : Act) (state : Orchestrator) (world : World)
    (base : Option Nat) (counter : CounterAt state base) :
    CounterAt (act.run around state world).1 (act.untouched base) := by
  rw [act.run_operates around state world, untouched]
  cases act.operation? with
  | none => exact counter
  | some operation => exact operation_counter around operation state world base counter

theorem run_spares (act : Act) (state : Orchestrator) (world : World) (port : Nat)
    (server : Instance) (spared : act.spares port = true) (found : state.get? port = some server) :
    (act.run around state world).1.get? port = some server := by
  rw [act.run_operates around state world]
  rw [spares] at spared
  cases operation : act.operation? with
  | none => exact found
  | some own =>
      rw [operation] at spared
      exact operation_spares around own state world port server spared found

theorem runAll_counter (acts : List Act) (scene : Orchestrator × World)
    (base : Option Nat) (counter : CounterAt scene.1 base) :
    CounterAt (runAll around acts scene).1 (acts.foldl untouched base) := by
  induction acts generalizing scene base with
  | nil => exact counter
  | cons act acts ih => exact ih _ _ (act.run_counter around scene.1 scene.2 base counter)

theorem runAll_spares (acts : List Act) (scene : Orchestrator × World) (port : Nat)
    (server : Instance) (spared : ∀ act ∈ acts, act.spares port = true)
    (found : scene.1.get? port = some server) :
    (runAll around acts scene).1.get? port = some server := by
  induction acts generalizing scene with
  | nil => exact found
  | cons act acts ih =>
      obtain ⟨first, others⟩ := List.forall_mem_cons.mp spared
      exact ih _ others (act.run_spares around scene.1 scene.2 port server first found)

end Act

/-- A command is run by its name. -/
theorem dispatch_named [Json.Dialect] (context : Context World) (command : Command)
    (params : Json.Members) (state : Orchestrator) (world : World) :
    Command.dispatch context command.name (.obj params) state world =
      command.perform context params state world := by
  have known : Command.ofName? command.name = some command := by
    cases command <;> decide
  rw [Command.dispatch, known]

def Names (port : Nat) (params : Json.Members) : Prop := param? "port" params = some (.nat port)

-- Commands that name the port reach the server: a status finds it and a stop ends it.
structure Reaches [Json.Dialect] (context : Context World) (port : Nat) (server : Instance)
    (state : Orchestrator) (world : World) : Prop where
  status : ∀ params, Names port params →
    Command.dispatch context (ascii "status") (.obj params) state world =
      (.ok [member "port" (.nat port), member "running" (.bool true),
        member "server" server.toJson], state, world)
  stop : ∀ params, Names port params →
    Command.dispatch context (ascii "stop") (.obj params) state world =
      (.ok [member "port" (.nat port), member "stopped" (.bool true)],
        state.stop context.toSurroundings port world)
  ended : (state.stop context.toSurroundings port world).1.get? port = none

structure Refuses [Json.Dialect] (context : Context World) (port : Nat) (state : Orchestrator)
    (world : World) : Prop where
  status : ∀ params, Names port params →
    Command.dispatch context (ascii "status") (.obj params) state world =
      (.error .portRange, state, world)
  stop : ∀ params, Names port params →
    Command.dispatch context (ascii "stop") (.obj params) state world =
      (.error .portRange, state, world)

section Naming

variable {port : Nat} {params : Json.Members}

theorem requiredPort_named (names : Names port params) (nonzero : port ≠ 0)
    (valid : port ≤ maxPort) : requiredPort params = .ok port := by
  have inside : Settings.isPort port = true := by
    have bounded : port ≤ 65535 := valid
    simp only [Settings.isPort, Bool.and_eq_true, decide_eq_true_eq]
    omega
  unfold requiredPort portParam
  rw [names, Json.nat]
  dsimp only
  rw [if_pos inside]
  rfl

theorem requiredPort_zero (names : Names 0 params) : requiredPort params = .error .portRange := by
  unfold requiredPort portParam
  rw [names]
  rfl

theorem reaches_port [Json.Dialect] (context : Context World) (nonzero : port ≠ 0)
    (valid : port ≤ maxPort) (server : Instance) (state : Orchestrator) (world : World)
    (found : state.get? port = some server) : Reaches context port server state world where
  status params names := by
    have outcome : Command.statusOutcome params state =
        .ok ([member "port" (.nat port), member "running" (.bool (state.isRunning port))] ++
          serverMember (state.get? port)) := by
      rw [Command.statusOutcome, requiredPort_named names nonzero valid]
      rfl
    refine (dispatch_named context .status params state world).trans ?_
    rw [Command.perform, outcome, Orchestrator.isRunning, found]
    rfl
  stop params names := by
    refine (dispatch_named context .stop params state world).trans ?_
    rw [Command.perform, requiredPort_named names nonzero valid]
    simp only [Command.withParams, Command.performStop, Orchestrator.isRunning, found]
    rfl
  ended := (state.stop_get? context.toSurroundings port world port).trans (if_pos rfl)

theorem refuses_zero [Json.Dialect] (context : Context World) (state : Orchestrator)
    (world : World) : Refuses context 0 state world where
  status params names := by
    refine (dispatch_named context .status params state world).trans ?_
    rw [Command.perform, Command.statusOutcome, requiredPort_zero names]
    rfl
  stop params names := by
    refine (dispatch_named context .stop params state world).trans ?_
    rw [Command.perform, requiredPort_zero names]
    rfl

end Naming

theorem startParams_unported (fileAt : Bytes → FileRead) (params : Json.Members)
    (unported : portParam params = .ok none) :
    Command.startParams fileAt params =
      (sourceParam fileAt params).map fun source => (source, none) := by
  unfold Command.startParams
  rw [unported]
  cases sourceParam fileAt params <;> rfl

/-- A start that is given no port and succeeds tells of a server on the port that is handed out. -/
theorem performStart_unported [Json.Dialect] (context : Context World) (source : Bytes)
    (state : Orchestrator) (world : World) (members : Json.Members)
    (started : (Command.performStart context source none state world).1 = .ok members) :
    ∃ port server, members = [member "port" (.nat port), member "server" server.toJson] ∧
      state.allocate.1 = some port ∧
      (Command.performStart context source none state world).2.1.get? port = some server := by
  unfold Command.performStart Orchestrator.start at started ⊢
  generalize state.allocate = result at started ⊢
  obtain ⟨_ | port, later⟩ := result
  · cases started
  · obtain ⟨server, found, _⟩ := (later.startOn_lands context.toSurroundings context.now source
      port world).registered
    dsimp only at started ⊢
    rw [found] at started
    exact ⟨port, server, (Except.ok.inj started).symm, rfl, found⟩

theorem dispatch_unported [Json.Dialect] (context : Context World) (params : Json.Members)
    (unported : portParam params = .ok none) (state : Orchestrator) (world : World)
    (members : Json.Members)
    (started : (Command.dispatch context (ascii "start") (.obj params) state world).1 =
      .ok members) :
    ∃ port server, members = [member "port" (.nat port), member "server" server.toJson] ∧
      state.allocate.1 = some port ∧
      (Command.dispatch context (ascii "start") (.obj params) state world).2.1.get? port =
        some server := by
  have command : Command.dispatch context (ascii "start") (.obj params) state world =
      Command.withParams (Command.startParams context.fileAt params) state world fun start =>
        Command.performStart context start.1 start.2 state world :=
    dispatch_named context .start params state world
  rw [command, startParams_unported context.fileAt params unported] at started ⊢
  cases sourced : sourceParam context.fileAt params with
  | error error =>
      rw [sourced] at started
      cases started
  | ok source =>
      rw [sourced] at started
      exact performStart_unported context source state world members started

/-- A start that is given no port, in any run after a configuration, answers with a port of its
own. The server stays there while the port is spared. By any port but zero it can be found and
ended; zero is handed out just when the base is zero, no port was asked for since it was taken
over, and nothing runs there. -/
theorem given_ports [Json.Dialect] (around : Surroundings World) (settings : Settings)
    (valid : settings.validate.isOk = true) (state : Orchestrator) (world : World)
    (acts : List Act) (fileAt : Bytes → FileRead) (now : Preview.Millis) (params : Json.Members)
    (unported : portParam params = .ok none) (members : Json.Members) :
    let before := Act.runAll around acts ((Operation.configure settings).run around state world)
    let start := Command.dispatch ⟨around, fileAt, now⟩ (ascii "start") (.obj params)
      before.1 before.2
    start.1 = .ok members →
      ∃ port server, members = [member "port" (.nat port), member "server" server.toJson] ∧
        port ≤ maxPort ∧ before.1.isRunning port = false ∧
        (port = 0 ↔ acts.foldl Act.untouched (some settings.portBase) = some 0 ∧
          before.1.isRunning 0 = false) ∧
        ∀ later : List Act, (∀ act ∈ later, act.spares port = true) →
          let after := Act.runAll around later start.2
          after.1.get? port = some server ∧
            ∀ context : Context World,
              (port ≠ 0 → Reaches context port server after.1 after.2) ∧
                (port = 0 → Refuses context port after.1 after.2) := by
  intro before start started
  have counter : CounterAt before.1 (acts.foldl Act.untouched (some settings.portBase)) := by
    refine Act.runAll_counter around acts _ (some settings.portBase) ?_
    rw [configure_run, if_pos valid]
    rfl
  obtain ⟨port, server, told, handed, found⟩ :=
    dispatch_unported ⟨around, fileAt, now⟩ params unported before.1 before.2 members started
  obtain ⟨_, small, free, _⟩ := before.1.allocate_allocates.of_some handed
  have first := before.1.allocate_zero
  have unmoved : before.1.nextPort = 0 ↔
      acts.foldl Act.untouched (some settings.portBase) = some 0 := by
    generalize acts.foldl Act.untouched (some settings.portBase) = base at counter
    cases base with
    | none => exact ⟨fun zero => absurd zero (Nat.ne_of_gt counter), (by rintro ⟨⟩)⟩
    | some base => rw [counter, Option.some.injEq]
  refine ⟨port, server, told, small, free, ?_, ?_⟩
  · rw [← unmoved, ← first, handed, Option.some.injEq]
  · intro later spared
    have kept := Act.runAll_spares around later start.2 port server spared found
    refine ⟨kept, fun context => ⟨fun nonzero => ?_, ?_⟩⟩
    · exact reaches_port context nonzero small server _ _ kept
    · rintro rfl
      exact refuses_zero context _ _

def unnamedStart : Json.Members := [member "source" (.str [])]

def takenActs : List Act := [.operate (.start 0 [] (some 5000))]

def startAfter [Json.Dialect] (settings : Settings) (acts : List Act) :
    Outcome × Orchestrator × Nat :=
  let before := Act.runAll counting acts
    ((Operation.configure settings).run counting (.initial .direct) 0)
  Command.dispatch Rpc.countingContext (ascii "start") (.obj unnamedStart) before.1 before.2

def toldPort? (outcome : Outcome) : Option Int :=
  match outcome.toOption.bind (Json.member? (ascii "port")) with
  | some (.int n) => some n
  | _ => none

section Strict

attribute [local instance] Json.strict

theorem given_ports_second :
    ({} : Settings).validate.isOk = true ∧ portParam unnamedStart = .ok none ∧
      ∃ server, (startAfter {} takenActs).1 =
          .ok [member "port" (.nat 5001), member "server" server.toJson] ∧
        Reaches Rpc.countingContext 5001 server (startAfter {} takenActs).2.1
          (startAfter {} takenActs).2.2 := by
  have valid : ({} : Settings).validate.isOk = true := by decide +kernel
  have unported : portParam unnamedStart = .ok none := rfl
  have second : toldPort? (startAfter {} takenActs).1 = some 5001 := by decide +kernel
  refine ⟨valid, unported, ?_⟩
  cases started : (startAfter {} takenActs).1 with
  | error error =>
      rw [started] at second
      cases second
  | ok members =>
      obtain ⟨port, server, told, _, _, _, kept⟩ := given_ports counting {} valid
        (.initial .direct) 0 takenActs (fun _ => .missing) 0 unnamedStart unported members started
      obtain ⟨_, answers⟩ := kept [] (fun _ none_there => absurd none_there List.not_mem_nil)
      rw [started, told] at second
      obtain rfl : port = 5001 := Int.ofNat.inj (Option.some.inj second)
      exact ⟨server, congrArg Except.ok told, (answers Rpc.countingContext).1 (by decide)⟩

def zeroBase : Settings := { portBase := 0 }

/-- The settings are valid and a start then tells of a server on port zero, but no status finds it
and no stop ends it. -/
theorem given_zero :
    zeroBase.validate.isOk = true ∧ toldPort? (startAfter zeroBase []).1 = some 0 ∧
      (startAfter zeroBase []).2.1.isRunning 0 = true ∧
      ∀ name ∈ [ascii "status", ascii "stop"],
        (Command.dispatch Rpc.countingContext name (.obj [member "port" (.nat 0)])
          (startAfter zeroBase []).2.1 (startAfter zeroBase []).2.2).1 = .error .portRange := by
  have refuses := refuses_zero Rpc.countingContext (startAfter zeroBase []).2.1
    (startAfter zeroBase []).2.2
  have names : Names 0 [member "port" (.nat 0)] := rfl
  refine ⟨by decide +kernel, by decide +kernel, by decide +kernel, ?_⟩
  simp only [List.forall_mem_cons, List.not_mem_nil, false_implies, implies_true, and_true]
  exact ⟨congrArg Prod.fst (refuses.status _ names), congrArg Prod.fst (refuses.stop _ names)⟩

end Strict

end EndpointPreview.Control
