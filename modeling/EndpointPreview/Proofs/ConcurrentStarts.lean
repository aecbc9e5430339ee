import EndpointPreview.Proofs.Callers
import EndpointPreview.StrictFormats

/-!
Launching from several callers at once. A caller looks whether its port is free, launches and
registers in separate steps, so two callers may both find the port free. A launch that a service
accepted is still registered, or was withdrawn and its service asked to end it, or another caller
that had found the port free before registered its own instance over it; that is the one way in
which a launch is lost.
-/

namespace EndpointPreview.Execution

open Text Http Preview

variable {World : Type}

def Deed.resettles (port : Nat) : Deed → Bool
  | did (.withdrawn other) => other == port
  | registered other => other == port
  | _ => false

def Untouched (port : Nat) (entries : List Entry) : Prop :=
  ∀ entry ∈ entries, entry.deed.resettles port = false

/-- The caller has found its port free, or has freed it, and has not registered yet. -/
def Phase.isPast : Phase → Bool
  | checking _ => false
  | withdrawing _ => false
  | finished => false
  | _ => true

inductive StepKind (caller : Caller) (state : Orchestrator) (progress : Progress World) : Prop where
  | keeps (instances : progress.state.instances = state.instances)
      (launchers : progress.state.launchers = state.launchers)
      (untouched : ∀ port, ∀ deed ∈ progress.deeds, deed.resettles port = false)
      (past : progress.phase.isPast = true → caller.phase.isPast = true ∨
        state.get? caller.port = none ∧ .cleared caller.port ∈ progress.deeds)
      (registers : ∀ server launcher, caller.phase ≠ .registering server launcher)
  | withdraws (server : Instance) (next : Option Bytes)
      (found : state.get? caller.port = some server)
      (before : caller.phase = .withdrawing next)
      (phase : progress.phase = .releasing server (state.launcher? caller.port) next)
      (later : progress.state = state.cleared caller.port)
      (deeds : progress.deeds = [.did (.withdrawn caller.port), .cleared caller.port])
  | registers (server : Instance) (launcher : Option Service)
      (before : caller.phase = .registering server launcher)
      (phase : progress.phase = .finished)
      (later : progress.state = state.register caller.port server launcher)
      (deeds : progress.deeds = [.registered caller.port])

theorem Caller.step_kind [Json.Dialect] (around : Surroundings World) (now : Millis)
    (caller : Caller) (state : Orchestrator) (world : World) :
    StepKind caller state (caller.step around now state world) := by
  obtain ⟨port, phase⟩ := caller
  cases phase with
  | checking source =>
      cases found : state.get? port with
      | none =>
          have free : state.isRunning port = false := by simp [Orchestrator.isRunning, found]
          have next : Caller.step around now ⟨port, .checking source⟩ state world =
              ⟨.launching source, state, world, [.cleared port]⟩ := by simp [Caller.step, free]
          rw [next]
          refine .keeps rfl rfl ?_ (fun _ => .inr ⟨found, List.mem_cons_self⟩) (by simp)
          simp [Deed.resettles]
      | some server =>
          have taken : state.isRunning port = true := by simp [Orchestrator.isRunning, found]
          have next : Caller.step around now ⟨port, .checking source⟩ state world =
              ⟨.withdrawing (some source), state, world, []⟩ := by simp [Caller.step, taken]
          rw [next]
          exact .keeps rfl rfl (by simp) (by simp [Phase.isPast]) (by simp)
  | withdrawing next =>
      cases found : state.get? port with
      | none =>
          have free : Caller.step around now ⟨port, .withdrawing next⟩ state world =
              ⟨.onward next, state, world, [.cleared port]⟩ := by
            simp [Caller.step, Orchestrator.withdraw, found]
          rw [free]
          refine .keeps rfl rfl ?_ (fun _ => .inr ⟨found, List.mem_cons_self⟩) (by simp)
          simp [Deed.resettles]
      | some server =>
          have taken : Caller.step around now ⟨port, .withdrawing next⟩ state world =
              ⟨.releasing server (state.launcher? port) next, state.cleared port, world,
                [.did (.withdrawn port), .cleared port]⟩ := by
            simp [Caller.step, Orchestrator.withdraw, found, Orchestrator.cleared]
          rw [taken]
          exact .withdraws server next found rfl rfl rfl rfl
  | halting service next =>
      refine .keeps rfl rfl ?_ (fun _ => .inl rfl) (by simp)
      simp [Caller.step, Deed.resettles]
  | probing next =>
      have same : (Caller.step around now ⟨port, .probing next⟩ state world).state = state ∧
          (Caller.step around now ⟨port, .probing next⟩ state world).deeds = [] := by
        unfold Caller.step
        dsimp only
        split <;> exact ⟨rfl, rfl⟩
      refine .keeps (by rw [same.1]) (by rw [same.1]) ?_ (fun _ => .inl rfl) (by simp)
      simp [same.2]
  | silencing next =>
      refine .keeps rfl rfl ?_ (fun _ => .inl rfl) (by simp)
      simp [Caller.step]
  | launching source =>
      obtain ⟨instances, launchers⟩ := state.launch_tables around now source port world
      refine .keeps instances launchers ?_ (fun _ => .inl rfl) (by simp)
      simp [Caller.step, Deed.resettles]
  | registering server launcher => exact .registers server launcher rfl rfl rfl rfl
  | finished =>
      refine .keeps rfl rfl ?_ (by simp [Caller.step]) (by simp)
      simp [Caller.step]

theorem launch_accepted [Json.Dialect] (around : Surroundings World) (now : Millis) (source : Bytes)
    (port : Nat) (state : Orchestrator) (world : World) (id : Bytes)
    (accepted : (state.service.launch around (Orchestrator.executable source) port world).1 = .ok id) :
    (state.launch around now source port world).1.1.backing = .process id ∧
      (state.launch around now source port world).1.2 = some state.service := by
  unfold Orchestrator.launch
  dsimp only
  generalize state.service.launch around (Orchestrator.executable source) port world = answer
    at accepted
  obtain ⟨answer, after⟩ := answer
  dsimp only at accepted
  subst accepted
  exact ⟨rfl, rfl⟩

/-- The step that launches leaves the caller with the instance it is to register. -/
theorem Caller.step_launched [Json.Dialect] (around : Surroundings World) (now : Millis)
    (caller : Caller)
    (state : Orchestrator) (world : World) (service : Service) (port : Nat) (source id : Bytes)
    (launched : .did (.launched service port source (.ok id)) ∈
      (caller.step around now state world).deeds) :
    port = caller.port ∧
      (caller.step around now state world).deeds = [.did (.launched service port source (.ok id))] ∧
      ∃ server, (caller.step around now state world).phase = .registering server (some service) ∧
        server.backing = .process id := by
  obtain ⟨own, phase⟩ := caller
  cases phase with
  | launching submitted =>
      have only := List.mem_singleton.mp launched
      injection only with only
      injection only with own_service own_port own_source accepted
      subst own_service own_port own_source
      obtain ⟨process, launcher⟩ :=
        launch_accepted around now source port state world id accepted.symm
      refine ⟨rfl, ?_, _, ?_, process⟩
      · rw [accepted]
        rfl
      · rw [← launcher]
        rfl
  | checking submitted =>
      unfold Caller.step at launched
      dsimp only at launched
      split at launched <;> simp at launched
  | withdrawing next =>
      unfold Caller.step at launched
      dsimp only at launched
      split at launched <;> simp at launched
  | probing next =>
      unfold Caller.step at launched
      dsimp only at launched
      split at launched <;> simp at launched
  | halting | silencing | registering | finished => simp [Caller.step] at launched

-- What has become of a registered launch, of which `later` are the entries since.
inductive Fate (crowd : Crowd World) (port : Nat) (service : Service) (id : Bytes)
    (earlier later : List Entry) : Prop where
  -- It is the registered one, and any caller that is past clearing the port was so before.
  | stands (server : Instance) (found : crowd.state.get? port = some server)
      (process : server.backing = .process id)
      (launcher : crowd.state.launcher? port = some service) (untouched : Untouched port later)
      (before : ∀ index caller, crowd.callers[index]? = some caller → caller.port = port →
        caller.phase.isPast = true → ⟨index, .cleared port⟩ ∈ earlier)
  -- A caller that has withdrawn it is about to ask its service to end it.
  | ending (index : Nat) (next : Option Bytes)
      (halting : crowd.callers[index]? = some ⟨port, .halting service next⟩)
  | ended (index : Nat) (answer : Except ServiceError Unit)
      (requested : ⟨index, .did (.halted service port answer)⟩ ∈ later)
  -- A caller that had found the port free before has registered its own instance over it.
  | replaced (index : Nat) (between after : List Entry)
      (whole : later = between ++ ⟨index, .registered port⟩ :: after)
      (untouched : Untouched port between) (cleared : ⟨index, .cleared port⟩ ∈ earlier)

theorem Untouched.append {port : Nat} {entries more : List Entry}
    (first : Untouched port entries) (second : Untouched port more) :
    Untouched port (entries ++ more) := by
  intro entry member
  rcases List.mem_append.mp member with early | late
  · exact first entry early
  · exact second entry late

theorem releasing_delegated (server : Instance) (service : Service) (id : Bytes)
    (next : Option Bytes) (process : server.backing = .process id) :
    Phase.releasing server (some service) next = .halting service next := by
  simp [Phase.releasing, Instance.kind, process]

theorem get_of_tables {state later : Orchestrator} (port : Nat)
    (instances : later.instances = state.instances)
    (launchers : later.launchers = state.launchers) :
    later.get? port = state.get? port ∧ later.launcher? port = state.launcher? port := by
  unfold Orchestrator.get? Orchestrator.launcher?
  rw [instances, launchers]
  exact ⟨rfl, rfl⟩

/-- A step of a caller on another port leaves the port as it is. -/
theorem StepKind.elsewhere {caller : Caller} {state : Orchestrator} {progress : Progress World}
    (kind : StepKind caller state progress) (port : Nat) (different : port ≠ caller.port) :
    progress.state.get? port = state.get? port ∧
      progress.state.launcher? port = state.launcher? port ∧
      ∀ deed ∈ progress.deeds, deed.resettles port = false := by
  have other : (caller.port == port) = false := by simpa using Ne.symm different
  cases kind with
  | keeps instances launchers untouched =>
      obtain ⟨get, launcher⟩ := get_of_tables port instances launchers
      exact ⟨get, launcher, untouched port⟩
  | withdraws server next found before phase later deeds =>
      rw [later, deeds]
      refine ⟨state.cleared_get?_other caller.port port different,
        state.cleared_launcher?_other caller.port port different, ?_⟩
      simp [Deed.resettles, other]
  | registers server launcher before phase later deeds =>
      rw [later, deeds]
      refine ⟨state.register_get?_other caller.port port server launcher different,
        state.register_launcher?_other caller.port port server launcher different, ?_⟩
      simp [Deed.resettles, other]

-- An entry of an extended journal stands in its old part or among the new entries.
theorem append_split {journal new before after : List Entry} {entry : Entry}
    (whole : journal ++ new = before ++ entry :: after) :
    (∃ rest, journal = before ++ entry :: rest ∧ after = rest ++ new) ∨
      ∃ early, new = early ++ entry :: after := by
  rcases List.append_eq_append_iff.mp whole with ⟨early, _, same⟩ | ⟨rest, same, left⟩
  · exact .inr ⟨early, same⟩
  · cases rest with
    | nil => exact .inr ⟨[], left.symm⟩
    | cons first rest =>
        obtain ⟨rfl, own⟩ := List.cons.inj left
        exact .inl ⟨rest, same, own⟩

def Entry.accepted (index : Nat) (service : Service) (port : Nat) (source id : Bytes) : Entry :=
  ⟨index, .did (.launched service port source (.ok id))⟩

section Step

variable {crowd : Crowd World} {index : Nat} {caller : Caller} {progress : Progress World}

/-- The callers after a step: the one that made it, and the others as they were. -/
theorem callers_moved (at_index : crowd.callers[index]? = some caller) (other : Nat) (who : Caller)
    (after : (crowd.moved index caller.port progress).callers[other]? = some who) :
    (other = index ∧ who = ⟨caller.port, progress.phase⟩) ∨
      (other ≠ index ∧ crowd.callers[other]? = some who) := by
  by_cases own : other = index
  · subst own
    left
    have inside := (List.getElem?_eq_some_iff.mp at_index).1
    have moved : (crowd.callers.set other ⟨caller.port, progress.phase⟩)[other]? = some who := after
    rw [List.getElem?_set_self inside] at moved
    exact ⟨rfl, (Option.some.inj moved).symm⟩
  · right
    have moved : (crowd.callers.set index ⟨caller.port, progress.phase⟩)[other]? = some who := after
    rw [List.getElem?_set_ne (Ne.symm own)] at moved
    exact ⟨own, moved⟩

theorem caller_moved (at_index : crowd.callers[index]? = some caller) :
    (crowd.moved index caller.port progress).callers[index]? =
      some ⟨caller.port, progress.phase⟩ :=
  List.getElem?_set_self (List.getElem?_eq_some_iff.mp at_index).1

theorem untouched_deeds {port : Nat} {deeds : List Deed}
    (untouched : ∀ deed ∈ deeds, deed.resettles port = false) :
    Untouched port (deeds.map (Entry.mk index)) := by
  intro entry member
  obtain ⟨deed, inside, rfl⟩ := List.mem_map.mp member
  exact untouched deed inside

variable {port : Nat} {service : Service} {id : Bytes} {earlier later : List Entry}

-- The instance is still there after the step; only a caller on another port can have become past.
theorem Fate.stays (at_index : crowd.callers[index]? = some caller) {server : Instance}
    (process : server.backing = .process id) (untouched : Untouched port later)
    (before : ∀ index caller, crowd.callers[index]? = some caller → caller.port = port →
      caller.phase.isPast = true → ⟨index, .cleared port⟩ ∈ earlier)
    (found : progress.state.get? port = some server)
    (launcher : progress.state.launcher? port = some service)
    (deeds : ∀ deed ∈ progress.deeds, deed.resettles port = false)
    (past : caller.port = port → progress.phase.isPast = true → caller.phase.isPast = true) :
    Fate (crowd.moved index caller.port progress) port service id earlier
      (later ++ progress.deeds.map (Entry.mk index)) := by
  refine .stands server found process launcher (untouched.append (untouched_deeds deeds)) ?_
  intro other who after own is_past
  rcases callers_moved at_index other who after with ⟨rfl, rfl⟩ | ⟨_, same⟩
  · exact before other caller at_index own (past own is_past)
  · exact before other who same own is_past

theorem Fate.step [Json.Dialect] (fate : Fate crowd port service id earlier later)
    (at_index : crowd.callers[index]? = some caller) (around : Surroundings World)
    (now : Millis) :
    Fate (crowd.moved index caller.port (caller.step around now crowd.state crowd.world)) port
      service id earlier
      (later ++ (caller.step around now crowd.state crowd.world).deeds.map (Entry.mk index)) := by
  have kind := caller.step_kind around now crowd.state crowd.world
  cases fate with
  | ended other answer requested => exact .ended other answer (List.mem_append_left _ requested)
  | replaced other between after whole untouched cleared =>
      exact .replaced other between _ (by rw [whole, List.append_assoc, List.cons_append])
        untouched cleared
  | ending other next halting =>
      by_cases own : other = index
      · subst own
        obtain rfl := Option.some.inj (at_index.symm.trans halting)
        exact .ended other _ (List.mem_append_right _ List.mem_cons_self)
      · exact .ending other next ((List.getElem?_set_ne (Ne.symm own)).trans halting)
  | stands server found process launcher untouched before =>
      by_cases own : port = caller.port
      · subst own
        cases kind with
        | keeps instances launchers deeds past registers =>
            obtain ⟨same_get, same_launcher⟩ := get_of_tables caller.port instances launchers
            refine Fate.stays at_index process untouched before (same_get.trans found)
              (same_launcher.trans launcher) (deeds caller.port) ?_
            intro _ is_past
            refine (past is_past).resolve_right ?_
            rintro ⟨free, _⟩
            rw [found] at free
            cases free
        | withdraws other next there _ phase =>
            obtain rfl := Option.some.inj (found.symm.trans there)
            rw [launcher, releasing_delegated server service id next process] at phase
            refine .ending index next ?_
            rw [caller_moved at_index, phase]
        | registers other replacement holding _ _ deeds =>
            refine .replaced index later [] ?_ untouched ?_
            · rw [deeds]
              rfl
            · exact before index caller at_index rfl (by rw [holding]; rfl)
      · obtain ⟨same_get, same_launcher, deeds⟩ := kind.elsewhere port own
        exact Fate.stays at_index process untouched before (same_get.trans found)
          (same_launcher.trans launcher) deeds fun same => absurd same.symm own

end Step

-- Between the first turn and the last: every accepted launch of a caller is about to be registered
-- or has its fate, and so has every instance that was there before.
structure LaunchesTracked (start : Orchestrator) (crowd : Crowd World) : Prop where
  cleared : ∀ index caller, crowd.callers[index]? = some caller → caller.phase.isPast = true →
    ⟨index, .cleared caller.port⟩ ∈ crowd.journal
  launched : ∀ before index service port source id after,
    crowd.journal = before ++ .accepted index service port source id :: after →
      (∃ server, crowd.callers[index]? = some ⟨port, .registering server (some service)⟩ ∧
        server.backing = .process id) ∨
      ∃ between later, after = between ++ ⟨index, .registered port⟩ :: later ∧
        Fate crowd port service id (before ++ .accepted index service port source id :: between)
          later
  standing : ∀ port server service id, start.get? port = some server →
    server.backing = .process id → start.launcher? port = some service →
      Fate crowd port service id [] crowd.journal

namespace LaunchesTracked

variable {start : Orchestrator} {crowd : Crowd World} {index : Nat} {caller : Caller}

theorem step_cleared [Json.Dialect] (holds : LaunchesTracked start crowd)
    (at_index : crowd.callers[index]? = some caller) (around : Surroundings World)
    (now : Millis) (other : Nat) (who : Caller)
    (after : (crowd.moved index caller.port
      (caller.step around now crowd.state crowd.world)).callers[other]? = some who)
    (past : who.phase.isPast = true) :
    ⟨other, .cleared who.port⟩ ∈ (crowd.moved index caller.port
      (caller.step around now crowd.state crowd.world)).journal := by
  rcases callers_moved at_index other who after with ⟨rfl, rfl⟩ | ⟨_, same⟩
  · have written (deed : Deed)
        (inside : deed ∈ (caller.step around now crowd.state crowd.world).deeds) :
        ⟨other, deed⟩ ∈ crowd.journal ++
          (caller.step around now crowd.state crowd.world).deeds.map (Entry.mk other) :=
      List.mem_append_right _ (List.mem_map_of_mem inside)
    cases caller.step_kind around now crowd.state crowd.world with
    | keeps _ _ _ became =>
        rcases became past with before | ⟨_, clears⟩
        · exact List.mem_append_left _ (holds.cleared other caller at_index before)
        · exact written _ clears
    | withdraws _ _ _ _ _ _ deeds => exact written _ (by simp [deeds])
    | registers _ _ _ finished =>
        dsimp only at past
        rw [finished] at past
        cases past
  · exact List.mem_append_left _ (holds.cleared other who same past)

/-- A caller with an accepted launch registers it. -/
theorem step_registers [Json.Dialect] (holds : LaunchesTracked start crowd)
    (around : Surroundings World) (now : Millis) (port : Nat) (service : Service)
    (server : Instance) (id : Bytes) (process : server.backing = .process id)
    (at_index : crowd.callers[index]? = some ⟨port, .registering server (some service)⟩) :
    Fate (crowd.moved index port (Caller.step around now ⟨port, .registering server (some service)⟩
      crowd.state crowd.world)) port service id crowd.journal [] := by
  refine .stands server ?_ process ?_ (fun _ member => absurd member List.not_mem_nil) ?_
  · exact crowd.state.register_get? port server (some service)
  · exact crowd.state.register_launcher? port server (some service)
  · intro other who after own past
    rcases callers_moved at_index other who after with ⟨_, rfl⟩ | ⟨_, same⟩
    · cases past
    · rw [← own]
      exact holds.cleared other who same past

theorem step_launched [Json.Dialect] (holds : LaunchesTracked start crowd)
    (at_index : crowd.callers[index]? = some caller) (around : Surroundings World)
    (now : Millis) (before : List Entry) (launcher : Nat) (service : Service) (port : Nat)
    (source id : Bytes) (after : List Entry)
    (whole : (crowd.moved index caller.port
      (caller.step around now crowd.state crowd.world)).journal =
        before ++ .accepted launcher service port source id :: after) :
    (∃ server, (crowd.moved index caller.port
        (caller.step around now crowd.state crowd.world)).callers[launcher]? =
          some ⟨port, .registering server (some service)⟩ ∧ server.backing = .process id) ∨
      ∃ between later, after = between ++ ⟨launcher, .registered port⟩ :: later ∧
        Fate (crowd.moved index caller.port (caller.step around now crowd.state crowd.world)) port
          service id (before ++ .accepted launcher service port source id :: between) later := by
  rcases append_split whole with ⟨rest, old, rfl⟩ | ⟨early, new⟩
  · rcases holds.launched before launcher service port source id rest old with
      ⟨server, waiting, process⟩ | ⟨between, later, rfl, fate⟩
    · by_cases own : launcher = index
      · subst own
        obtain rfl := Option.some.inj (at_index.symm.trans waiting)
        right
        refine ⟨rest, [], rfl, ?_⟩
        rw [← old]
        exact holds.step_registers around now port service server id process waiting
      · exact .inl ⟨server, (List.getElem?_set_ne (Ne.symm own)).trans waiting, process⟩
    · right
      refine ⟨between, _, ?_, fate.step at_index around now⟩
      rw [List.append_assoc, List.cons_append]
  · have member : Entry.accepted launcher service port source id ∈
        (caller.step around now crowd.state crowd.world).deeds.map (Entry.mk index) := by
      rw [new]
      exact List.mem_append_right _ List.mem_cons_self
    obtain ⟨deed, inside, same⟩ := List.mem_map.mp member
    obtain ⟨rfl, rfl⟩ := Entry.mk.inj same
    obtain ⟨rfl, _, server, phase, process⟩ := caller.step_launched around now crowd.state
      crowd.world service port source id inside
    refine .inl ⟨server, ?_, process⟩
    rw [caller_moved at_index, phase]

theorem step [Json.Dialect] (holds : LaunchesTracked start crowd)
    (at_index : crowd.callers[index]? = some caller) (around : Surroundings World)
    (now : Millis) :
    LaunchesTracked start
      (crowd.moved index caller.port (caller.step around now crowd.state crowd.world)) where
  cleared := holds.step_cleared at_index around now
  launched := holds.step_launched at_index around now
  standing port server service id found process launcher :=
    (holds.standing port server service id found process launcher).step at_index around now

end LaunchesTracked

theorem Errand.caller_fresh (errand : Errand) : errand.caller.phase.isPast = false := by
  cases errand <;> rfl

theorem launches_start (errands : List Errand) (start : Orchestrator) (world : World) :
    LaunchesTracked start (Crowd.of errands start world) := by
  have fresh (index : Nat) (caller : Caller)
      (at_index : (Crowd.of errands start world).callers[index]? = some caller) :
      caller.phase.isPast = false := by
    obtain ⟨errand, _, rfl⟩ := List.mem_map.mp (List.mem_of_getElem? at_index)
    exact errand.caller_fresh
  constructor
  · intro index caller at_index past
    rw [fresh index caller at_index] at past
    cases past
  · intro before index service port source id after whole
    cases (List.append_eq_nil_iff.mp whole.symm).2
  · intro port server service id found process launcher
    refine .stands server found process launcher
      (fun _ member => absurd member List.not_mem_nil) ?_
    intro index caller at_index _ past
    rw [fresh index caller at_index] at past
    cases past

theorem run_launches [Json.Dialect] (around : Surroundings World) (schedule : List Turn)
    (errands : List Errand) (start : Orchestrator) (world : World) :
    LaunchesTracked start ((Crowd.of errands start world).run around schedule) :=
  Crowd.run_keeps (LaunchesTracked start)
    (fun _ _ _ now holds at_index => holds.step at_index around now) schedule _
    (launches_start errands start world)

def Orchestrator.Runs (state : Orchestrator) (port : Nat) (service : Service) (id : Bytes) : Prop :=
  ∃ server, state.get? port = some server ∧ server.backing = .process id ∧
    state.launcher? port = some service

def Requested (service : Service) (port : Nat) (entries : List Entry) : Prop :=
  ∃ index answer, ⟨index, .did (.halted service port answer)⟩ ∈ entries

namespace Crowd

/-- Every launch that a service accepted is the one registered on its port, or its service was
asked later to end it. -/
def KeepsLaunches (crowd : Crowd World) : Prop :=
  ∀ before index service port source id after,
    crowd.journal = before ++ .accepted index service port source id :: after →
      (crowd.state.Runs port service id ∧ ∃ between later,
        after = between ++ ⟨index, .registered port⟩ :: later ∧ Untouched port later) ∨
      Requested service port after

/-- A caller has registered its instance over one that came to the port after the caller had found
it free. -/
def Overwrites (crowd : Crowd World) : Prop :=
  ∃ before first port between second after,
    crowd.journal =
      before ++ ⟨first, .registered port⟩ :: (between ++ ⟨second, .registered port⟩ :: after) ∧
    Untouched port between ∧ ⟨second, .cleared port⟩ ∈ before

end Crowd

structure LaunchesSettled (start : Orchestrator) (crowd : Crowd World) : Prop where
  -- An accepted launch was registered, and from then on it is the registered one, its service was
  -- asked to end it, or a caller that had found the port free before registered over it.
  accepted : ∀ before index service port source id after,
    crowd.journal = before ++ .accepted index service port source id :: after →
      ∃ between later, after = between ++ ⟨index, .registered port⟩ :: later ∧
        ((crowd.state.Runs port service id ∧ Untouched port later) ∨
          Requested service port later ∨
          ∃ early second rest, later = early ++ ⟨second, .registered port⟩ :: rest ∧
            Untouched port early ∧
            ⟨second, .cleared port⟩ ∈
              before ++ .accepted index service port source id :: between)
  -- An instance that was there before is still registered, or its service was asked to end it.
  standing : ∀ port service id, start.Runs port service id →
    (crowd.state.Runs port service id ∧ Untouched port crowd.journal) ∨
      Requested service port crowd.journal
  kept : ¬ crowd.Overwrites → crowd.KeepsLaunches

theorem Fate.settled {crowd : Crowd World} {port : Nat} {service : Service} {id : Bytes}
    {earlier later : List Entry} (fate : Fate crowd port service id earlier later)
    (done : crowd.IsDone) :
    (crowd.state.Runs port service id ∧ Untouched port later) ∨ Requested service port later ∨
      ∃ early second rest, later = early ++ ⟨second, .registered port⟩ :: rest ∧
        Untouched port early ∧ ⟨second, .cleared port⟩ ∈ earlier := by
  cases fate with
  | stands server found process launcher untouched =>
      exact .inl ⟨⟨server, found, process, launcher⟩, untouched⟩
  | ending index next halting => cases done _ (List.mem_of_getElem? halting)
  | ended index answer requested => exact .inr (.inl ⟨index, answer, requested⟩)
  | replaced second early rest whole untouched cleared =>
      exact .inr (.inr ⟨early, second, rest, whole, untouched, cleared⟩)

theorem LaunchesTracked.settled {start : Orchestrator} {crowd : Crowd World}
    (tracked : LaunchesTracked start crowd) (done : crowd.IsDone) :
    LaunchesSettled start crowd := by
  have accepted (before : List Entry) (index : Nat) (service : Service) (port : Nat)
      (source id : Bytes) (after : List Entry)
      (whole : crowd.journal = before ++ .accepted index service port source id :: after) :
      ∃ between later, after = between ++ ⟨index, .registered port⟩ :: later ∧
        Fate crowd port service id (before ++ .accepted index service port source id :: between)
          later := by
    refine (tracked.launched before index service port source id after whole).resolve_left ?_
    rintro ⟨server, waiting, _⟩
    cases done _ (List.mem_of_getElem? waiting)
  constructor
  · intro before index service port source id after whole
    obtain ⟨between, later, same, fate⟩ := accepted before index service port source id after whole
    exact ⟨between, later, same, fate.settled done⟩
  · rintro port service id ⟨server, found, process, launcher⟩
    rcases (tracked.standing port server service id found process launcher).settled done with
      stands | requested | ⟨_, _, _, _, _, never⟩
    · exact .inl stands
    · exact .inr requested
    · cases never
  · intro apart before index service port source id after whole
    obtain ⟨between, later, rfl, fate⟩ := accepted before index service port source id after whole
    rcases fate.settled done with
      ⟨runs, untouched⟩ | ⟨caller, answer, requested⟩ | ⟨early, second, rest, rfl, untouched, cleared⟩
    · exact .inl ⟨runs, between, later, rfl, untouched⟩
    · refine .inr ⟨caller, answer, ?_⟩
      exact List.mem_append_right _ (List.mem_cons_of_mem _ requested)
    · refine absurd ?_ apart
      refine ⟨before ++ .accepted index service port source id :: between, index, port, early,
        second, rest, ?_, untouched, cleared⟩
      rw [whole, List.append_assoc]
      rfl

theorem Errand.remaining_le (errand : Errand) : errand.caller.phase.remaining ≤ 6 := by
  cases errand with
  | start source port => exact Nat.le_refl 6
  | stop port =>
      change 3 ≤ 6
      decide

theorem startTogether_launches [Json.Dialect] (around : Surroundings World) (service : Service)
    (settings : Settings) (latency : Latency) (world : World) (operations : List Operation)
    (errands : List Errand) (schedule : List Turn) :
    let scene := (Scene.initial service settings latency world).run around operations
    let last := (Crowd.of errands scene.state scene.world).run around schedule
    Happens around scene.world last.events last.world ∧
      ((∀ index < errands.length, 6 ≤ (schedule.map Turn.caller).count index) → last.IsDone) ∧
      (last.IsDone → LaunchesSettled scene.state last) := by
  intro scene last
  refine ⟨?_, ?_, ?_⟩
  · exact Crowd.run_happened around schedule _ scene.world (.nothing scene.world)
  · intro enough
    apply Crowd.run_isDone around schedule
    intro index caller at_index
    have inside := (List.getElem?_eq_some_iff.mp at_index).1
    obtain ⟨errand, _, rfl⟩ := List.mem_map.mp (List.mem_of_getElem? at_index)
    refine Nat.le_trans errand.remaining_le (enough index ?_)
    simpa [Crowd.of] using inside
  · exact (run_launches around schedule errands scene.state scene.world).settled

def numbering : Surroundings Nat where
  send _ _ processes := (.ok ⟨200, ascii "OK", [], []⟩, processes)
  describe _ := []
  launch _ _ _ processes := (.ok [UInt8.ofNat processes], processes + 1)
  halt _ _ processes := (.ok (), processes)

section Strict

attribute [local instance] Json.strict

/-- Two callers look whether a port is free before either of them launches: each launch is
accepted, the second is registered over the first, and nothing ever asks to end the first. -/
theorem startTogether_loses :
    let start := (Scene.initial (.outside 0) {} ⟨0, 0⟩ 0).state
    let crowd := Crowd.of [.start [] 5000, .start [] 5000] start 0
    let schedule := [0, 1, 0, 1, 0, 1].map fun caller => Turn.mk caller 0
    (crowd.run numbering schedule).IsDone ∧ ¬ (crowd.run numbering schedule).KeepsLaunches := by
  intro start crowd schedule
  constructor
  · have finished : (crowd.run numbering schedule).callers =
        [⟨5000, .finished⟩, ⟨5000, .finished⟩] := rfl
    intro caller member
    rw [finished] at member
    simp only [List.mem_cons, List.not_mem_nil, or_false, or_self] at member
    rw [member]
  · intro keeps
    have journal : (crowd.run numbering schedule).journal =
        [⟨0, .cleared 5000⟩, ⟨1, .cleared 5000⟩] ++ .accepted 0 (.outside 0) 5000 [] [0] ::
          [.accepted 1 (.outside 0) 5000 [] [1], ⟨0, .registered 5000⟩,
            ⟨1, .registered 5000⟩] := rfl
    rcases keeps _ 0 (.outside 0) 5000 [] [0] _ journal with
      ⟨⟨server, found, process, _⟩, _⟩ | ⟨caller, answer, requested⟩
    · have second : ((crowd.run numbering schedule).state.get? 5000).map Instance.backing =
          some (.process [1]) := rfl
      rw [found, Option.map_some, process] at second
      simp at second
    · simp [Entry.accepted] at requested

end Strict

end EndpointPreview.Execution
