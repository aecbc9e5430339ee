import EndpointPreview.Proofs.StartReplies
import EndpointPreview.StrictFormats

/-!
What commands return. While file names are never too long, every command whose parameters were read
from JSON returns a code and an answer whose verdict agrees with it. A command that is refused says
why and leaves the servers as they are; a refused start may at most have moved the port counter.
-/

namespace EndpointPreview.Json

open Text

section Texts

variable {text : Bytes → Prop} {whole : Int → Prop}

mutual

/-- A value whose strings are of whole characters has a JSON text. -/
theorem isText_of_holds (valid : ∀ content, text content → Utf8.isValid content = true) :
    ∀ value : Json, value.Holds text whole → value.isText = true
  | .null, _ => rfl
  | .bool _, _ => rfl
  | .int _, _ => rfl
  | .float _, _ => rfl
  | .str content, holds => valid content holds
  | .arr items, holds => areText_of_hold valid items holds
  | .obj members, holds => membersAreText_of_hold valid members holds

theorem areText_of_hold (valid : ∀ content, text content → Utf8.isValid content = true) :
    ∀ items : List Json, ItemsHold text whole items → areText items = true
  | [], _ => rfl
  | item :: rest, ⟨own, further⟩ =>
      Bool.and_eq_true_iff.mpr ⟨isText_of_holds valid item own, areText_of_hold valid rest further⟩

theorem membersAreText_of_hold (valid : ∀ content, text content → Utf8.isValid content = true) :
    ∀ members : Members, MembersHold text whole members → membersAreText members = true
  | [], _ => rfl
  | (key, value) :: rest, ⟨keyHolds, own, further⟩ =>
      Bool.and_eq_true_iff.mpr
        ⟨Bool.and_eq_true_iff.mpr ⟨valid key keyHolds, isText_of_holds valid value own⟩,
          membersAreText_of_hold valid rest further⟩

end

end Texts

theorem read_isText [Dialect] (content : Bytes) (value : Json) (read : read? content = some value) :
    value.isText = true :=
  isText_of_holds (fun _ within => within.1) value (read_within content value read)

theorem member_isText (members : Members) (key : Bytes) (value : Json)
    (text : (Json.obj members).isText = true) (found : member? key members = some value) :
    value.isText = true :=
  ((membersAreText_iff members).mp text _
    (Table.mem_of_find? precedes_orders key value members found)).2

end EndpointPreview.Json

namespace EndpointPreview.Control

open Text Http Execution

variable {World : Type}

def Apart (members : Json.Members) : Prop := ∀ entry ∈ members, entry.1 ≠ ascii "ok"

theorem Apart.nil : Apart [] := fun _ member => absurd member List.not_mem_nil

theorem Apart.cons {name : String} (other : ascii name ≠ ascii "ok") {value : Json}
    {members : Json.Members} (apart : Apart members) : Apart (member name value :: members) :=
  List.forall_mem_cons.mpr ⟨other, apart⟩

theorem serverMember_apart (server : Option Instance) : Apart (serverMember server) := by
  cases server with
  | none => exact .nil
  | some server => exact .cons (by decide) .nil

theorem responseMembers_apart [Json.Dialect] (response : Response) : Apart
    (responseMembers response) := by
  refine .cons (by decide) (.cons (by decide) (.cons (by decide) ?_))
  cases response.json? with
  | none => exact .nil
  | some value => exact .cons (by decide) .nil

-- An answer, or a refusal that is told and leaves all but the port counter.
inductive Concludes (state : Orchestrator) : Outcome → Orchestrator → Prop where
  | answer (members : Json.Members) (apart : Apart members) (later : Orchestrator) :
      Concludes state (.ok members) later
  | refusal (error : CommandError) (calm : error.interrupts = false) (nextPort : Nat) :
      Concludes state (.error error) { state with nextPort }

theorem Concludes.looked {outcome : Outcome} (ends : Ends (fun _ => False) Apart outcome)
    (state : Orchestrator) : Concludes state outcome state := by
  cases ends with
  | value members apart => exact .answer members apart state
  | refusal error calm => exact .refusal error calm state.nextPort
  | interruption error never => exact never.elim

-- The code agrees with the verdict of the answer. With another code than zero the answer gives a
-- reason, and servers, their services, the simulated server and the dispatcher stay as they were.
structure Returns (before after : Orchestrator) (code : Nat) (answer : Json) : Prop where
  succeeds : code = 0 ↔ answer.get? "ok" = some (.bool true)
  fails : code ≠ 0 → answer.get? "ok" = some (.bool false)
  reason : code ≠ 0 → ∃ error, answer.get? "error" = some (.str error)
  instances : code ≠ 0 → after.instances = before.instances
  launchers : code ≠ 0 → after.launchers = before.launchers
  serving : code ≠ 0 → after.network.serving = before.network.serving
  routes : code ≠ 0 → after.network.routes = before.network.routes
  dispatcher : code ≠ 0 → after.dispatcher = before.dispatcher

theorem Concludes.returns {before after : Orchestrator} {outcome : Outcome}
    (ends : Concludes before outcome after) :
    ∃ code answer, returned? outcome = some (code, answer) ∧ Returns before after code answer := by
  cases ends with
  | answer members apart =>
      have verdict : (answerJson (.ok members)).get? "ok" = some (.bool true) :=
        Rpc.member_first (ascii "ok") (.bool true) members apart
      refine ⟨0, answerJson (.ok members), rfl, ?_⟩
      constructor
      · exact ⟨fun _ => verdict, fun _ => rfl⟩
      all_goals exact fun failed => absurd rfl failed
  | refusal error calm nextPort =>
      have verdict : (answerJson (.error error)).get? "ok" = some (.bool false) := rfl
      refine ⟨1, answerJson (.error error), by simp [returned?, calm], ?_⟩
      constructor
      · rw [verdict]
        simp
      · exact fun _ => verdict
      · exact fun _ => ⟨error.message, rfl⟩
      all_goals exact fun _ => rfl

namespace Command

/-! Commands that only look. -/

theorem status_apart (params : Json.Members) (state : Orchestrator) :
    Ends (fun _ => False) Apart (statusOutcome params state) := by
  refine (requiredPort_ends params).bind fun port _ => .value _ ?_
  exact .cons (by decide) (.cons (by decide) (serverMember_apart _))

section Reading

variable (fileAt : Bytes → FileRead) (short : ∀ path, fileAt path ≠ .nameTooLong)
  (params : Json.Members)
include short

theorem sourceParam_concludes :
    Ends (fun _ => False) (fun _ => True) (sourceParam fileAt params) :=
  sourceParam_ends params fileAt (fun _ _ => trivial) (fun _ _ _ => trivial)
    fun path _ long => short path long

theorem validate_apart : Ends (fun _ => False) Apart (validateOutcome fileAt params) :=
  (sourceParam_concludes fileAt short params).bind fun _ _ => .value _ (.cons (by decide) .nil)

theorem parse_apart : Ends (fun _ => False) Apart (parseOutcome fileAt params) :=
  (sourceParam_concludes fileAt short params).bind fun _ _ => .value _ (.cons (by decide) .nil)

theorem generate_apart : Ends (fun _ => False) Apart (generateOutcome fileAt params) :=
  (sourceParam_concludes fileAt short params).bind fun _ _ =>
    .value _ (.cons (by decide) (.cons (by decide) .nil))

end Reading

/-! Commands that act. -/

theorem withParams_concludes {α : Type} {kind : α → Prop} {params : Except CommandError α}
    (ends : Ends (fun _ => False) kind params) (state : Orchestrator) (world : World)
    (act : α → Outcome × Orchestrator × World)
    (each : ∀ value, Concludes state (act value).1 (act value).2.1) :
    Concludes state (withParams params state world act).1
      (withParams params state world act).2.1 := by
  cases ends with
  | value value own => exact each value
  | refusal error calm => exact .refusal error calm state.nextPort
  | interruption error never => exact never.elim

section Acting

variable (context : Context World) (state : Orchestrator) (world : World)

variable [Json.Dialect]

theorem performStart_concludes (source : Bytes) (port : Option Nat) :
    Concludes state (performStart context source port state world).1
      (performStart context source port state world).2.1 := by
  unfold performStart
  obtain ⟨nextPort, refused | ⟨own, _, launched⟩⟩ :=
    state.start_cases context.toSurroundings context.now source port world
  · rw [refused]
    exact .refusal _ rfl nextPort
  · rw [launched]
    exact .answer _ (.cons (by decide) (serverMember_apart _)) _

theorem performStop_concludes (port : Nat) :
    Concludes state (performStop context port state world).1
      (performStop context port state world).2.1 :=
  .answer [member "port" (.nat port), member "stopped" (.bool (state.isRunning port))]
    (.cons (by decide) (.cons (by decide) .nil)) _

theorem performFetch_concludes (request : Request) :
    Concludes state (performFetch context request state world).1
      (performFetch context request state world).2.1 := by
  unfold performFetch
  generalize state.fetch context.toSurroundings context.now request world = result
  obtain ⟨error | response, after⟩ := result
  · cases error <;> exact .refusal _ rfl state.nextPort
  · exact .answer _ (responseMembers_apart response) state

theorem perform_concludes (short : ∀ path, context.fileAt path ≠ .nameTooLong)
    (command : Command) (params : Json.Members) (text : (Json.obj params).isText = true) :
    Concludes state (command.perform context params state world).1
      (command.perform context params state world).2.1 := by
  cases command with
  | start =>
      have starts : Ends (fun _ => False) (fun _ => True) (startParams context.fileAt params) :=
        (sourceParam_concludes context.fileAt short params).bind fun _ _ =>
          (portParam_ends params).bind fun _ _ => .value _ trivial
      exact withParams_concludes starts state world _ fun start =>
        performStart_concludes context state world start.1 start.2
  | stop =>
      exact withParams_concludes (requiredPort_ends params) state world _ fun port =>
        performStop_concludes context state world port
  | stopAll => exact .answer [member "stopped" _] (.cons (by decide) .nil) _
  | status => exact .looked (status_apart params state) state
  | list => exact .answer [member "servers" _] (.cons (by decide) .nil) _
  | validate => exact .looked (validate_apart context.fileAt short params) state
  | parse => exact .looked (parse_apart context.fileAt short params) state
  | generate => exact .looked (generate_apart context.fileAt short params) state
  | fetch =>
      -- What is sent as JSON is part of the parameters, which are text.
      have body (value : Json) (found : param? "body" params = some value)
          (garbled : value.isText = false) : False := by
        have written := Json.member_isText params _ value text found
        simp [garbled] at written
      have headers (members : Json.Members) (found : param? "headers" params = some (.obj members))
          (entry : Bytes × Json) (member : entry ∈ members) (garbled : entry.2.isText = false) :
          False := by
        have all := Json.member_isText params _ (.obj members) text found
        have written := ((Json.membersAreText_iff members).mp all entry member).2
        simp [garbled] at written
      exact withParams_concludes (requestParam_ends params body headers) state world _
        fun request => performFetch_concludes context state world request

end Acting

theorem dispatch_concludes [Json.Dialect] (context : Context World)
    (short : ∀ path, context.fileAt path ≠ .nameTooLong) (name : Bytes) (params : Json)
    (text : params.isText = true) (state : Orchestrator) (world : World) :
    Concludes state (dispatch context name params state world).1
      (dispatch context name params state world).2.1 := by
  unfold dispatch
  split
  · split
    · exact perform_concludes context state world short _ _ text
    · exact .refusal _ rfl state.nextPort
  · exact .refusal _ rfl state.nextPort

/-- Every command whose parameters were read from JSON returns. -/
theorem dispatch_returns [Json.Dialect] (context : Context World)
    (short : ∀ path, context.fileAt path ≠ .nameTooLong) (name content : Bytes) (params : Json)
    (read : Json.read? content = some params) (state : Orchestrator) (world : World) :
    ∃ code answer, returned? (dispatch context name params state world).1 = some (code, answer) ∧
      Returns state (dispatch context name params state world).2.1 code answer :=
  (dispatch_concludes context short name params (Json.read_isText content params read) state
    world).returns

section Strict

attribute [local instance] Json.strict

def simulatingState : Orchestrator :=
  ((Orchestrator.initial .direct).startOn Rpc.countingContext.toSurroundings 0 [] 5000 0).1

def largePort : Bytes := ascii "\x7b\"source\":\"\",\"port\":18446744073709551615\x7d"

theorem dispatch_returns_refusal :
    (∀ path, Rpc.countingContext.fileAt path ≠ .nameTooLong) ∧
      ∃ params, Json.read? largePort = some params ∧
        let result := dispatch Rpc.countingContext (ascii "start") params simulatingState 0
        ∃ code answer, returned? result.1 = some (code, answer) ∧ code = 1 ∧
          result.2.1.active.map Instance.port = [5000] ∧
          Returns simulatingState result.2.1 code answer := by
  have short (path : Bytes) : Rpc.countingContext.fileAt path ≠ .nameTooLong := nofun
  have readable : (Json.read? largePort).isSome = true := by decide +kernel
  obtain ⟨params, read⟩ := Option.isSome_iff_exists.mp readable
  have code : (returned? (dispatch Rpc.countingContext (ascii "start")
      ((Json.read? largePort).getD .null) simulatingState 0).1).map Prod.fst = some 1 := by
    decide +kernel
  have kept : (dispatch Rpc.countingContext (ascii "start") ((Json.read? largePort).getD .null)
      simulatingState 0).2.1.active.map Instance.port = [5000] := by decide +kernel
  rw [read, Option.getD_some] at code kept
  obtain ⟨own, answer, returned, returns⟩ := dispatch_returns Rpc.countingContext short
    (ascii "start") largePort params read simulatingState 0
  rw [returned] at code
  exact ⟨short, params, read, own, answer, returned, Option.some.inj code, kept, returns⟩

end Strict

end Command
end EndpointPreview.Control
