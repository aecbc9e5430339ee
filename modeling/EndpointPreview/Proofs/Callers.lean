import EndpointPreview.Proofs.Registry

/-!
Callers that use one orchestrator at the same time. A caller goes from one locked step to the
next, and between two of its steps any steps of the others may happen. A schedule tells whose
turn it is; a caller that has finished lets its turns pass. Every caller finishes after few turns
of its own, whatever the others do, and a caller that is left alone does what the operation does.
-/

namespace EndpointPreview.Execution

open Text Http Preview

variable {World : Type}

inductive Errand where
  | start (source : Bytes) (port : Nat)
  | stop (port : Nat)

/-- The next step of a caller. A caller that clears its port goes on to launch `next` there, if
it has such a source. -/
inductive Phase where
  | checking (source : Bytes)
  | withdrawing (next : Option Bytes)
  | halting (service : Service) (next : Option Bytes)
  | probing (next : Option Bytes)
  | silencing (next : Option Bytes)
  -- Asks the service to run the source, and simulates it when the service fails.
  | launching (source : Bytes)
  | registering (server : Instance) (launcher : Option Service)
  | finished

namespace Phase

def onward : Option Bytes → Phase
  | none => finished
  | some source => launching source

def releasing (server : Instance) (launcher : Option Service) (next : Option Bytes) : Phase :=
  match server.kind, launcher with
  | .delegated, some service => halting service next
  | _, _ => probing next

def onwardTurns : Option Bytes → Nat
  | none => 0
  | some _ => 2

def remaining : Phase → Nat
  | checking _ => 6
  | withdrawing next => 3 + onwardTurns next
  | halting _ next => 1 + onwardTurns next
  | probing next => 2 + onwardTurns next
  | silencing next => 1 + onwardTurns next
  | launching _ => 2
  | registering _ _ => 1
  | finished => 0

end Phase

structure Caller where
  port : Nat
  phase : Phase

def Errand.caller : Errand → Caller
  | start source port => ⟨port, .checking source⟩
  | stop port => ⟨port, .withdrawing none⟩

inductive Deed where
  | did (event : Event)
  -- The port was found free, or its instance has just been withdrawn.
  | cleared (port : Nat)
  | registered (port : Nat)

def Deed.event? : Deed → Option Event
  | did event => some event
  | _ => none

structure Progress (World : Type) where
  phase : Phase
  state : Orchestrator
  world : World
  deeds : List Deed

def Caller.step [Json.Dialect] (around : Surroundings World) (now : Millis) (caller : Caller)
    (state : Orchestrator) (world : World) : Progress World :=
  match caller.phase with
  | .checking source =>
      if state.isRunning caller.port then ⟨.withdrawing (some source), state, world, []⟩
      else ⟨.launching source, state, world, [.cleared caller.port]⟩
  | .withdrawing next =>
      match state.withdraw caller.port with
      | (none, state) => ⟨.onward next, state, world, [.cleared caller.port]⟩
      | (some (server, launcher), state) =>
          ⟨.releasing server launcher next, state, world,
            [.did (.withdrawn caller.port), .cleared caller.port]⟩
  | .halting service next =>
      let (answer, after) := service.halt around caller.port world
      ⟨.onward next, state, after, [.did (.halted service caller.port answer)]⟩
  | .probing next =>
      if state.network.serving == some caller.port then ⟨.silencing next, state, world, []⟩
      else ⟨.onward next, state, world, []⟩
  | .silencing next => ⟨.onward next, state.stopNetwork, world, []⟩
  | .launching source =>
      let answer := (state.service.launch around (Orchestrator.executable source) caller.port world).1
      let ((server, launcher), later, after) := state.launch around now source caller.port world
      ⟨.registering server launcher, later, after,
        [.did (.launched state.service caller.port source answer)]⟩
  | .registering server launcher =>
      ⟨.finished, state.register caller.port server launcher, world, [.registered caller.port]⟩
  | .finished => ⟨.finished, state, world, []⟩

structure Entry where
  caller : Nat
  deed : Deed

structure Crowd (World : Type) where
  callers : List Caller
  state : Orchestrator
  world : World
  journal : List Entry

structure Turn where
  caller : Nat
  now : Millis

namespace Crowd

def of (errands : List Errand) (state : Orchestrator) (world : World) : Crowd World :=
  ⟨errands.map Errand.caller, state, world, []⟩

def moved (index port : Nat) (progress : Progress World) (crowd : Crowd World) : Crowd World :=
  { callers := crowd.callers.set index ⟨port, progress.phase⟩
    state := progress.state
    world := progress.world
    journal := crowd.journal ++ progress.deeds.map (Entry.mk index) }

def take [Json.Dialect] (around : Surroundings World) (turn : Turn) (crowd : Crowd World) :
    Crowd World :=
  match crowd.callers[turn.caller]? with
  | none => crowd
  | some caller =>
      crowd.moved turn.caller caller.port
        (caller.step around turn.now crowd.state crowd.world)

def run [Json.Dialect] (around : Surroundings World) (schedule : List Turn) (crowd : Crowd World) :
    Crowd World :=
  schedule.foldl (fun crowd turn => crowd.take around turn) crowd

def events (crowd : Crowd World) : List Event :=
  crowd.journal.filterMap fun entry => entry.deed.event?

def IsDone (crowd : Crowd World) : Prop := ∀ caller ∈ crowd.callers, caller.phase = .finished

/-- What every step of a caller keeps holds at the end of every schedule. -/
theorem run_keeps [Json.Dialect] {around : Surroundings World} (Holds : Crowd World → Prop)
    (kept : ∀ (crowd : Crowd World) (index : Nat) (caller : Caller) (now : Millis),
      Holds crowd → crowd.callers[index]? = some caller →
        Holds (crowd.moved index caller.port (caller.step around now crowd.state crowd.world)))
    (schedule : List Turn) (crowd : Crowd World) (holds : Holds crowd) :
    Holds (crowd.run around schedule) := by
  induction schedule generalizing crowd with
  | nil => exact holds
  | cons turn later ih =>
      apply ih (crowd.take around turn)
      unfold take
      cases found : crowd.callers[turn.caller]? with
      | none => exact holds
      | some caller => exact kept crowd turn.caller caller turn.now holds found

end Crowd

theorem Caller.step_happens [Json.Dialect] (around : Surroundings World) (now : Millis)
    (caller : Caller) (state : Orchestrator) (world : World) :
    Happens around world
      ((caller.step around now state world).deeds.filterMap Deed.event?)
      (caller.step around now state world).world := by
  obtain ⟨port, phase⟩ := caller
  cases phase with
  | checking source =>
      unfold Caller.step
      dsimp only
      split <;> exact .nothing world
  | withdrawing next =>
      unfold Caller.step
      dsimp only
      split
      · exact .nothing world
      · exact .withdrawn port (.nothing world)
  | halting service next => exact .halted service port (.nothing _)
  | probing next =>
      unfold Caller.step
      dsimp only
      split <;> exact .nothing world
  | silencing next => exact .nothing world
  | launching source =>
      refine .launched state.service port source ?_
      have launched := state.launch_world around now source port world
      rw [← launched]
      exact .nothing _
  | registering server launcher => exact .nothing world
  | finished => exact .nothing world

namespace Crowd

theorem moved_events (index port : Nat) (progress : Progress World) (crowd : Crowd World) :
    (crowd.moved index port progress).events =
      crowd.events ++ progress.deeds.filterMap Deed.event? := by
  unfold events moved
  rw [List.filterMap_append, List.filterMap_map]
  rfl

/-- The calls in the journal were made one after the other, in every schedule. -/
theorem run_happened [Json.Dialect] (around : Surroundings World) (schedule : List Turn)
    (crowd : Crowd World) (first : World)
    (happened : Happens around first crowd.events crowd.world) :
    Happens around first (crowd.run around schedule).events
      (crowd.run around schedule).world := by
  apply run_keeps (fun later => Happens around first later.events later.world)
  · intro later index caller now before _
    rw [moved_events]
    exact before.append (caller.step_happens around now later.state later.world)
  · exact happened

theorem moved_callers (crowd : Crowd World) (index : Nat) (caller : Caller)
    (found : crowd.callers[index]? = some caller) (progress : Progress World) :
    ∃ before after, crowd.callers = before ++ caller :: after ∧
      (crowd.moved index caller.port progress).callers =
        before ++ ⟨caller.port, progress.phase⟩ :: after := by
  obtain ⟨inside, own⟩ := List.getElem?_eq_some_iff.mp found
  refine ⟨crowd.callers.take index, crowd.callers.drop (index + 1), ?_, ?_⟩
  · rw [← own, List.getElem_cons_drop, List.take_append_drop]
  · exact List.set_eq_take_append_cons_drop.trans (if_pos inside)

end Crowd

theorem Phase.remaining_onward (next : Option Bytes) :
    (Phase.onward next).remaining = Phase.onwardTurns next := by
  cases next <;> rfl

theorem Phase.remaining_releasing (server : Instance) (launcher : Option Service)
    (next : Option Bytes) :
    (Phase.releasing server launcher next).remaining ≤ 2 + Phase.onwardTurns next := by
  unfold Phase.releasing
  split
  · exact Nat.add_le_add_right (by decide) _
  · exact Nat.le_refl _

theorem Phase.finished_of_remaining (phase : Phase) (none_left : phase.remaining = 0) :
    phase = .finished := by
  cases phase with
  | finished => rfl
  | checking | withdrawing | halting | probing | silencing | launching | registering =>
      simp [Phase.remaining] at none_left

theorem Caller.step_remaining [Json.Dialect] (around : Surroundings World) (now : Millis)
    (caller : Caller) (state : Orchestrator) (world : World) :
    (caller.step around now state world).phase.remaining ≤ caller.phase.remaining - 1 := by
  obtain ⟨port, phase⟩ := caller
  cases phase with
  | checking source =>
      simp only [Caller.step]
      split <;> simp [Phase.remaining, Phase.onwardTurns]
  | withdrawing next =>
      change _ ≤ 3 + Phase.onwardTurns next - 1
      simp only [Caller.step]
      split
      · rw [Phase.remaining_onward]
        omega
      · exact Nat.le_trans (Phase.remaining_releasing _ _ next) (by omega)
  | halting service next =>
      change (Phase.onward next).remaining ≤ 1 + Phase.onwardTurns next - 1
      rw [Phase.remaining_onward]
      omega
  | probing next =>
      change _ ≤ 2 + Phase.onwardTurns next - 1
      simp only [Caller.step]
      split
      · change 1 + Phase.onwardTurns next ≤ _
        omega
      · rw [Phase.remaining_onward]
        omega
  | silencing next =>
      change (Phase.onward next).remaining ≤ 1 + Phase.onwardTurns next - 1
      rw [Phase.remaining_onward]
      omega
  | launching source => exact Nat.le_refl 1
  | registering server launcher => exact Nat.le_refl 0
  | finished => exact Nat.le_refl 0

namespace Crowd

variable [Json.Dialect]

theorem take_remaining (around : Surroundings World) (turn : Turn)
    (crowd : Crowd World) (index : Nat) (caller : Caller)
    (found : crowd.callers[index]? = some caller) :
    ∃ later, (crowd.take around turn).callers[index]? = some later ∧
      later.phase.remaining ≤
        caller.phase.remaining - (if turn.caller = index then 1 else 0) := by
  unfold take
  by_cases own : turn.caller = index
  · subst own
    rw [found, if_pos rfl]
    refine ⟨⟨caller.port, _⟩, ?_, caller.step_remaining around turn.now crowd.state crowd.world⟩
    exact List.getElem?_set_self (List.getElem?_eq_some_iff.mp found).1
  · rw [if_neg own]
    refine ⟨caller, ?_, Nat.le_refl _⟩
    cases crowd.callers[turn.caller]? with
    | none => exact found
    | some other => exact (List.getElem?_set_ne own).trans found

/-- A caller needs no more turns than its phase says, whoever else has turns in between. -/
theorem run_remaining (around : Surroundings World) (schedule : List Turn)
    (crowd : Crowd World) (index : Nat) (caller : Caller)
    (found : crowd.callers[index]? = some caller) :
    ∃ later, (crowd.run around schedule).callers[index]? = some later ∧
      later.phase.remaining ≤
        caller.phase.remaining - (schedule.map Turn.caller).count index := by
  induction schedule generalizing crowd caller with
  | nil => exact ⟨caller, found, Nat.le_refl _⟩
  | cons turn schedule ih =>
      obtain ⟨between, at_index, fewer⟩ := crowd.take_remaining around turn index caller found
      obtain ⟨later, at_end, bound⟩ := ih (crowd.take around turn) between at_index
      refine ⟨later, at_end, Nat.le_trans bound ?_⟩
      rw [List.map_cons, List.count_cons]
      simp only [beq_iff_eq]
      omega

theorem length_run (around : Surroundings World) (schedule : List Turn)
    (crowd : Crowd World) : (crowd.run around schedule).callers.length = crowd.callers.length := by
  apply run_keeps fun later => later.callers.length = crowd.callers.length
  · intro later index caller now same _
    exact (List.length_set ..).trans same
  · rfl

/-- A schedule that gives each caller the turns it needs brings all of them to an end. -/
theorem run_isDone (around : Surroundings World) (schedule : List Turn)
    (crowd : Crowd World) (enough : ∀ index caller, crowd.callers[index]? = some caller →
      caller.phase.remaining ≤ (schedule.map Turn.caller).count index) :
    (crowd.run around schedule).IsDone := by
  intro last member
  obtain ⟨index, inside, own⟩ := List.getElem_of_mem member
  rw [length_run] at inside
  have found := List.getElem?_eq_getElem inside
  obtain ⟨later, at_end, bound⟩ := crowd.run_remaining around schedule index _ found
  have fits := enough index _ found
  have same : later = last := by
    rw [← own]
    exact (List.getElem?_eq_some_iff.mp at_end).2.symm
  rw [← same]
  exact Phase.finished_of_remaining later.phase (by omega)

theorem run_append (around : Surroundings World) (first later : List Turn)
    (crowd : Crowd World) :
    crowd.run around (first ++ later) = (crowd.run around first).run around later :=
  List.foldl_append ..

def lone (port : Nat) (phase : Phase) (state : Orchestrator) (world : World)
    (journal : List Entry) : Crowd World := ⟨[⟨port, phase⟩], state, world, journal⟩

theorem lone_finished (around : Surroundings World) (now : Millis) (turns port : Nat)
    (state : Orchestrator) (world : World) (journal : List Entry) :
    (lone port .finished state world journal).run around (List.replicate turns ⟨0, now⟩) =
      lone port .finished state world journal := by
  induction turns with
  | zero => rfl
  | succ turns ih =>
      have idle : (lone port .finished state world journal).take around ⟨0, now⟩ =
          lone port .finished state world journal :=
        congrArg (Crowd.mk _ _ _) (List.append_nil journal)
      rw [List.replicate_succ]
      change ((lone port .finished state world journal).take around ⟨0, now⟩).run around _ = _
      rw [idle, ih]

theorem lone_probes (around : Surroundings World) (now : Millis) (port : Nat)
    (next : Option Bytes) (state : Orchestrator) (world : World) (journal : List Entry) :
    ∃ turns, turns ≤ 2 ∧
      (lone port (.probing next) state world journal).run around (List.replicate turns ⟨0, now⟩) =
        lone port (.onward next) (state.stopNetworkOn port) world journal := by
  by_cases here : state.network.serving = some port
  · exact ⟨2, Nat.le_refl 2, by
      simp [run, take, lone, moved, Caller.step, Orchestrator.stopNetworkOn, here]⟩
  · exact ⟨1, by decide, by
      simp [run, take, lone, moved, Caller.step, Orchestrator.stopNetworkOn, here]⟩

/-- Ending what stood behind a withdrawn instance takes at most two turns. -/
theorem lone_releases (around : Surroundings World) (now : Millis) (port : Nat)
    (server : Instance) (launcher : Option Service) (next : Option Bytes) (state : Orchestrator)
    (world : World) (journal : List Entry) :
    ∃ turns made, turns ≤ 2 ∧
      (lone port (.releasing server launcher next) state world journal).run around
          (List.replicate turns ⟨0, now⟩) =
        lone port (.onward next) (state.release around port server launcher world).1
          (state.release around port server launcher world).2 (journal ++ made) ∧
      made.filterMap (fun entry => entry.deed.event?) =
        match server.kind, launcher with
        | .delegated, some service => [.halted service port (service.halt around port world).1]
        | _, _ => [] := by
  obtain ⟨turns, few, probed⟩ := lone_probes around now port next state world journal
  have simulated (probing : Phase.releasing server launcher next = .probing next)
      (ends : state.release around port server launcher world =
        (state.stopNetworkOn port, world)) :
      ∃ turns, turns ≤ 2 ∧
        (lone port (.releasing server launcher next) state world journal).run around
            (List.replicate turns ⟨0, now⟩) =
          lone port (.onward next) (state.release around port server launcher world).1
            (state.release around port server launcher world).2 (journal ++ []) := by
    rw [probing, ends, List.append_nil]
    exact ⟨turns, few, probed⟩
  cases kind : server.kind with
  | simulated =>
      obtain ⟨turns, few, same⟩ := simulated (by simp [Phase.releasing, kind])
        (by simp [Orchestrator.release, kind])
      exact ⟨turns, [], few, same, rfl⟩
  | delegated =>
      cases launcher with
      | none =>
          obtain ⟨turns, few, same⟩ := simulated (by simp [Phase.releasing, kind])
            (by simp [Orchestrator.release, kind])
          exact ⟨turns, [], few, same, rfl⟩
      | some service =>
          refine ⟨1, [⟨0, .did (.halted service port (service.halt around port world).1)⟩],
            by decide, ?_, rfl⟩
          simp [run, take, lone, moved, Caller.step, Phase.releasing, Orchestrator.release, kind]

/-- Clearing a port takes at most three turns. -/
theorem lone_clears (around : Surroundings World) (now : Millis) (port : Nat)
    (next : Option Bytes) (state : Orchestrator) (world : World) (journal : List Entry) :
    ∃ turns made, turns ≤ 3 ∧
      (lone port (.withdrawing next) state world journal).run around
          (List.replicate turns ⟨0, now⟩) =
        lone port (.onward next) (state.stop around port world).1
          (state.stop around port world).2 (journal ++ made) ∧
      made.filterMap (fun entry => entry.deed.event?) = state.stopEvents around port world := by
  cases found : state.get? port with
  | none =>
      refine ⟨1, [⟨0, .cleared port⟩], by decide, ?_, ?_⟩
      · simp [run, take, lone, moved, Caller.step, Orchestrator.stop, Orchestrator.withdraw, found]
      · simp [Orchestrator.stopEvents, found, Deed.event?]
  | some server =>
      let gone : List Entry := [⟨0, .did (.withdrawn port)⟩, ⟨0, .cleared port⟩]
      obtain ⟨turns, made, few, released, halts⟩ := lone_releases around now port server
        (state.launcher? port) next (state.cleared port) world (journal ++ gone)
      have withdrawn : (lone port (.withdrawing next) state world journal).take around ⟨0, now⟩ =
          lone port (.releasing server (state.launcher? port) next) (state.cleared port) world
            (journal ++ gone) := by
        simp [take, lone, moved, Caller.step, Orchestrator.withdraw, found, Orchestrator.cleared, gone]
      have stopped : state.stop around port world =
          (state.cleared port).release around port server (state.launcher? port) world := by
        simp [Orchestrator.stop, Orchestrator.withdraw, found, Orchestrator.cleared]
      refine ⟨turns + 1, gone ++ made, Nat.succ_le_succ few, ?_, ?_⟩
      · rw [List.replicate_succ]
        change ((lone port (.withdrawing next) state world journal).take around ⟨0, now⟩).run _ _ = _
        rw [withdrawn, released, stopped, List.append_assoc]
      · rw [List.filterMap_append, halts, Orchestrator.stopEvents, found]
        rfl

/-- A caller that stops a port while no one else comes does what stopping the port does. -/
theorem stop_alone (around : Surroundings World) (now : Millis) (port : Nat)
    (state : Orchestrator) (world : World) :
    let last := (of [.stop port] state world).run around (List.replicate 3 ⟨0, now⟩)
    last.IsDone ∧ (last.state, last.world) = state.stop around port world ∧
      last.events = state.stopEvents around port world := by
  obtain ⟨turns, made, few, clears, events⟩ := lone_clears around now port none state world []
  have whole : (of [.stop port] state world).run around (List.replicate 3 ⟨0, now⟩) =
      lone port .finished (state.stop around port world).1 (state.stop around port world).2 made := by
    rw [show 3 = turns + (3 - turns) by omega, ← List.replicate_append_replicate, run_append]
    change ((lone port (.withdrawing none) state world []).run _ _).run _ _ = _
    rw [clears]
    exact lone_finished around now _ port _ _ made
  rw [whole]
  refine ⟨?_, rfl, events⟩
  simp [IsDone, lone]

theorem lone_checks (around : Surroundings World) (now : Millis) (source : Bytes)
    (port : Nat) (state : Orchestrator) (world : World) :
    ∃ turns made, turns ≤ 4 ∧
      (lone port (.checking source) state world []).run around (List.replicate turns ⟨0, now⟩) =
        lone port (.launching source) (state.stop around port world).1
          (state.stop around port world).2 made ∧
      made.filterMap (fun entry => entry.deed.event?) = state.stopEvents around port world := by
  cases found : state.get? port with
  | none =>
      obtain ⟨idle, no_events⟩ := state.stop_free around port world found
      refine ⟨1, [⟨0, .cleared port⟩], by decide, ?_, ?_⟩
      · simp [run, take, lone, moved, Caller.step, Orchestrator.isRunning, found, idle]
      · rw [no_events]
        rfl
  | some server =>
      obtain ⟨turns, made, few, clears, events⟩ :=
        lone_clears around now port (some source) state world []
      have checked : (lone port (.checking source) state world []).take around ⟨0, now⟩ =
          lone port (.withdrawing (some source)) state world [] := by
        simp [take, lone, moved, Caller.step, Orchestrator.isRunning, found]
      refine ⟨turns + 1, made, Nat.succ_le_succ few, ?_, events⟩
      rw [List.replicate_succ]
      change ((lone port (.checking source) state world []).take around ⟨0, now⟩).run _ _ = _
      rw [checked, clears]
      rfl

/-- A caller that starts a source while no one else comes does what starting it does. -/
theorem start_alone (around : Surroundings World) (now : Millis) (source : Bytes)
    (port : Nat) (state : Orchestrator) (world : World) :
    let last := (of [.start source port] state world).run around (List.replicate 6 ⟨0, now⟩)
    last.IsDone ∧ (last.state, last.world) = state.startOn around now source port world ∧
      last.events = state.startOnEvents around source port world := by
  obtain ⟨turns, made, few, checks, events⟩ := lone_checks around now source port state world
  let launching := lone port (.launching source) (state.stop around port world).1
    (state.stop around port world).2 made
  let last := launching.run around (List.replicate 2 ⟨0, now⟩)
  let answer := ((state.stop around port world).1.service.launch around
    (Orchestrator.executable source) port (state.stop around port world).2).1
  have registered : last.callers = [⟨port, .finished⟩] := rfl
  have written : last.journal = made ++
      [⟨0, .did (.launched (state.stop around port world).1.service port source answer)⟩] ++
        [⟨0, .registered port⟩] := rfl
  have whole : (of [.start source port] state world).run around (List.replicate 6 ⟨0, now⟩) =
      last := by
    rw [show 6 = turns + (2 + (4 - turns)) by omega, ← List.replicate_append_replicate, run_append,
      ← List.replicate_append_replicate, run_append]
    change (((lone port (.checking source) state world []).run _ _).run _ _).run _ _ = _
    rw [checks]
    exact lone_finished around now _ port last.state last.world last.journal
  dsimp only
  rw [whole]
  refine ⟨?_, ?_, ?_⟩
  · simp [IsDone, registered]
  · rw [Orchestrator.startOn_eq]
    rfl
  · change last.journal.filterMap _ = _
    rw [written, List.filterMap_append, List.filterMap_append, events, List.append_assoc]
    rfl

end Crowd

end EndpointPreview.Execution
