import EndpointPreview.Proofs.CommandAnswers
import EndpointPreview.Proofs.Reachability
import EndpointPreview.Proofs.ReplyFraming
import EndpointPreview.StrictFormats

/-!
What a client of the control service is sent. A request that does not arrive whole gets no reply;
any other gets one, which the client reads as a status and a JSON object whose verdict agrees with
the status. Only a POST of a JSON object to the control path runs a command.
-/

namespace EndpointPreview.Control.Rpc

open Text Http Execution

-- The header block has no end, or fewer bytes follow it than it declares.
inductive Incomplete (sent : Bytes) : Prop where
  | header (unended : indexOf? blankLine sent = none)
  | body (position : Nat) (length : Int) (ended : indexOf? blankLine sent = some position)
      (declared : contentLength? (sent.take (position + blankLine.length)) = some length)
      (short : (sent.drop (position + blankLine.length)).length < length)

def LongHeader (sent : Bytes) : Prop :=
  ∃ position, indexOf? blankLine sent = some position ∧ headerLimit < position + blankLine.length

theorem bodyOf_eq_none (declared : Option Int) (arrived : Bytes) :
    bodyOf declared arrived = none ↔ ∃ length, declared = some length ∧ arrived.length < length := by
  unfold bodyOf
  split
  · simp
  · rename_i length
    split
    · simp
      omega
    · split
      · simp
        omega
      · simp
        omega

theorem bodyOf_length (declared : Option Int) (arrived body : Bytes)
    (found : bodyOf declared arrived = some body) :
    body = [] ∨ ∃ length, declared = some length ∧ (body.length : Int) = length := by
  unfold bodyOf at found
  split at found
  · cases found
    exact .inl rfl
  · rename_i length
    split at found
    · cases found
      exact .inl rfl
    · split at found
      · cases found
        refine .inr ⟨length, rfl, ?_⟩
        rw [List.length_take]
        omega
      · cases found

/-- Without a call, the request did not arrive whole or its header block is too long. -/
theorem ofChunks_eq_none (chunks : List Bytes) (silent : Call.ofChunks chunks = none) :
    Incomplete (readAll chunks) ∨ LongHeader (readAll chunks) := by
  have reads := readHeaders_reads chunks
  unfold Call.ofChunks at silent
  cases header : readHeaders chunks with
  | incomplete received =>
      rw [header] at reads
      cases ended : indexOf? blankLine (readAll chunks) with
      | none => exact .inl (.header ended)
      | some position => exact .inr ⟨position, ended, reads position ended⟩
  | complete headers extra later =>
      rw [header] at reads silent
      obtain ⟨position, ended, rfl, rest⟩ := reads
      rw [Option.map_eq_none_iff, rest, bodyOf_eq_none] at silent
      obtain ⟨length, declared, short⟩ := silent
      exact .inl (.body position length ended declared short)

theorem Incomplete.silent {chunks : List Bytes} (incomplete : Incomplete (readAll chunks)) :
    Call.ofChunks chunks = none := by
  have reads := readHeaders_reads chunks
  unfold Call.ofChunks
  cases header : readHeaders chunks with
  | incomplete received => rfl
  | complete headers extra later =>
      rw [header] at reads
      obtain ⟨position, ended, rfl, rest⟩ := reads
      cases incomplete with
      | header unended =>
          rw [unended] at ended
          cases ended
      | body other length found declared short =>
          rw [ended, Option.some.injEq] at found
          subst found
          exact Option.map_eq_none_iff.mpr
            (rest ▸ (bodyOf_eq_none _ _).mpr ⟨length, declared, short⟩)

theorem contentLength_lt (headers : Bytes) (length : Int)
    (declared : contentLength? headers = some length) : length < Numeral.limit32 := by
  unfold contentLength? at declared
  dsimp only at declared
  split at declared
  · obtain ⟨n, _, fits⟩ := Option.bind_eq_some_iff.mp declared
    unfold Numeral.fits32 Numeral.within at fits
    split at fits
    · cases fits
      omega
    · cases fits
  · cases declared

/-- The body of a call has a length that could be declared. -/
theorem ofChunks_body (chunks : List Bytes) (call : Call)
    (found : Call.ofChunks chunks = some call) : call.body.length < Numeral.wordLimit := by
  unfold Call.ofChunks at found
  split at found
  · cases found
  · rename_i headers extra later _
    obtain ⟨body, read, rfl⟩ := Option.map_eq_some_iff.mp found
    rcases bodyOf_length _ _ _ read with rfl | ⟨length, declared, own⟩
    · exact (by decide : 0 < Numeral.wordLimit)
    · have small := contentLength_lt headers length declared
      unfold Numeral.limit32 at small
      unfold Numeral.wordLimit
      dsimp only
      omega

-- A client reads the reply as a status and a JSON object of the declared length, whose verdict
-- agrees with the status.
structure ReadAs [Json.Dialect] (reply : Reply) (response : Response) (members : Json.Members)
    (ok : Bool) : Prop where
  parsed : Response.parse reply.wire = .ok response
  status : response.status = 200 ∨ response.status = 400 ∨ response.status = 404 ∨
    response.status = 500
  declared : response.headers.get? (ascii "Content-Length") = some (decimal response.body.length)
  object : response.json? = some (.obj members)
  verdict : Json.member? (ascii "ok") members = some (.bool ok)
  agrees : response.status = 200 ↔ ok = true

def Reply.Tells [Json.Dialect] (reply : Reply) : Prop :=
  ∃ members ok, Json.read? reply.body = some (.obj members) ∧
    Json.member? (ascii "ok") members = some (.bool ok) ∧ (reply.status = .ok ↔ ok = true)

theorem Reply.Tells.readAs [Json.Dialect] {reply : Reply} (tells : reply.Tells)
    (small : reply.body.length < 2147483648) :
    ∃ response members ok, ReadAs reply response members ok := by
  obtain ⟨members, ok, read, verdict, agrees⟩ := tells
  obtain ⟨response, parsed, status, body, declared⟩ := parse_wire reply small
  refine ⟨response, members, ok, parsed, ?_, ?_, ?_, verdict, ?_⟩
  · rw [status]
    cases reply.status <;> decide
  · rw [declared, body]
  · rw [Response.json?, body, read]
  · rw [← agrees, status]
    cases reply.status <;> decide

/-- The first of some members is found in the object when no later one has its key. -/
theorem member_first (key : Bytes) (value : Json) (members : Json.Members)
    (other : ∀ entry ∈ members, entry.1 ≠ key) :
    Json.member? key (Table.ofList precedes ((key, value) :: members)) = some value := by
  unfold Json.member?
  rw [Table.find?_ofList precedes_orders, List.reverse_cons, List.lookup_append]
  have absent : members.reverse.lookup key = none := by
    rw [List.lookup_eq_none_iff]
    intro entry inside
    simpa using (other entry (List.mem_reverse.mp inside)).symm
  simp [absent]

theorem tells_object [Json.Dialect] [Json.LawfulDialect] (status : Status) (ok : Bool)
    (members : Json.Members) (each : ∀ entry ∈ members, Supplements entry)
    (agrees : status = .ok ↔ ok = true)
    (text : (Json.object (member "ok" (.bool ok) :: members)).isText = true) :
    (Reply.mk status (Json.object (member "ok" (.bool ok) :: members)).render).Tells := by
  have fits : (Json.object (member "ok" (.bool ok) :: members)).WholesFit :=
    Json.wholesFit_object _
      (List.forall_mem_cons.mpr ⟨trivial, fun entry inside => (each entry inside).fits⟩)
  obtain ⟨table, read, found⟩ := Json.read_object _ text fits
  obtain ⟨verdict, own, same⟩ := found (ascii "ok") (.bool ok)
    (member_first _ _ members fun entry inside => (each entry inside).other)
  cases same
  exact ⟨table, ok, (Json.read?_eq_some _ _).mpr read, own, agrees⟩

theorem tells_error [Json.Dialect] [Json.LawfulDialect] (status : Status) (failed : status ≠ .ok)
    (message : Bytes) (valid : Utf8.isValid message = true) :
    (errorReply status message).Tells := by
  have text : (Json.object [member "ok" (.bool false), member "error" (.str message)]).isText =
      true := by
    refine Json.isText_object _ ?_
    simp only [List.forall_mem_cons, List.not_mem_nil, false_implies, implies_true, and_true]
    exact ⟨⟨(by decide : Utf8.isValid (ascii "ok") = true), rfl⟩,
      (by decide : Utf8.isValid (ascii "error") = true), valid⟩
  refine tells_object status false [member "error" (.str message)] ?_ (by simp [failed]) text
  exact List.forall_mem_singleton.mpr (member_supplements (by decide) trivial)

theorem tells_jsonFailure [Json.Dialect] [Json.LawfulDialect] : jsonFailure.Tells :=
  tells_error .failed (by decide) _ (by decide)

theorem tells_answer [Json.Dialect] [Json.LawfulDialect] (outcome : Outcome)
    (answers : Answers outcome) : (answerReply outcome).Tells := by
  unfold answerReply Json.render?
  by_cases text : (answerJson outcome).isText = true
  · rw [if_pos text]
    cases outcome with
    | ok members =>
        obtain ⟨_, each⟩ := answers
        exact tells_object .ok true members each (by simp) text
    | error error =>
        refine tells_object .failed false [member "error" (.str error.message)] ?_ (by simp) text
        exact List.forall_mem_singleton.mpr (member_supplements (by decide) trivial)
  · rw [if_neg text]
    exact tells_jsonFailure

theorem tells_outcome [Json.Dialect] [Json.LawfulDialect] (outcome : Outcome)
    (answers : Answers outcome) : (outcomeReply outcome).Tells := by
  cases answers with
  | value members each => exact tells_answer (.ok members) (.value members each)
  | refusal error calm =>
      unfold outcomeReply
      dsimp only
      rw [if_neg (by simp [calm])]
      exact tells_answer (.error error) (.refusal error calm)
  | interruption error valid =>
      unfold outcomeReply
      dsimp only
      split
      · exact tells_error .failed (by decide) _ (Utf8.isValid_append _ _ (by decide) valid)
      · exact tells_answer (.error error) (.interruption error valid)

abbrev Runner (World : Type) :=
  Bytes → Json → Orchestrator → World → Outcome × Orchestrator × World

variable {World : Type}

def answerBy [Json.Dialect] (run : Runner World) (call : Call) (state : Orchestrator)
    (world : World) : Reply × Orchestrator × World :=
  if !call.isControl then (wrongTarget, state, world)
  else
    match Json.read? call.body with
    | some (.obj members) =>
        match commandName? members with
        | none => (jsonFailure, state, world)
        | some name =>
            let (outcome, state, world) := run name (commandParams members) state world
            (outcomeReply outcome, state, world)
    | _ => (notObject, state, world)

def serveBy [Json.Dialect] (run : Runner World) (chunks : List Bytes) (state : Orchestrator)
    (world : World) : Option Reply × Orchestrator × World :=
  match Call.ofChunks chunks with
  | none => (none, state, world)
  | some call =>
      let (reply, state, world) := answerBy run call state world
      (some reply, state, world)

/-- The service runs the commands that are dispatched. -/
theorem serve_eq [Json.Dialect] (context : Context World) :
    serve context = serveBy (Command.dispatch context) := rfl

structure Call.IsCommand [Json.Dialect] (call : Call) : Prop where
  method : call.method = ascii "POST"
  path : call.path = ascii "/rpc" ∨ call.path = ascii "/rpc/"
  body : ∃ members, Json.read? call.body = some (.obj members)

theorem isControl_iff (call : Call) : call.isControl = true ↔
    call.method = ascii "POST" ∧ (call.path = ascii "/rpc" ∨ call.path = ascii "/rpc/") := by
  simp [Call.isControl]

theorem answerBy_refused [Json.Dialect] (World : Type) (call : Call) (other : ¬ call.IsCommand) :
    ∃ refusal, ∀ (run : Runner World) (state : Orchestrator) (world : World),
      answerBy run call state world = (refusal, state, world) := by
  cases control : call.isControl with
  | false =>
      refine ⟨wrongTarget, fun run state world => ?_⟩
      rw [answerBy, control]
      rfl
  | true =>
      obtain ⟨method, path⟩ := (isControl_iff call).mp control
      refine ⟨notObject, fun run state world => ?_⟩
      rw [answerBy, control]
      dsimp only [Bool.not_true]
      rw [if_neg (by simp)]
      split
      · rename_i members read
        exact absurd ⟨method, path, members, read⟩ other
      · rfl

section Answering

variable (context : Context World) (bounded : context.Bounded) (call : Call)
  (small : call.body.length < Numeral.wordLimit) (state : Orchestrator) (registry : state.Bounded)
  (world : World)
include bounded small registry

theorem answer_tells [Json.Dialect] [Json.LawfulDialect] :
    (answer context call state world).1.Tells ∧ (answer context call state world).2.1.Bounded := by
  unfold answer
  split
  · exact ⟨tells_error .notFound (by decide) _ (by decide), registry⟩
  split
  · rename_i members read
    have within := Json.read_within call.body (.obj members) read
    split
    · exact ⟨tells_jsonFailure, registry⟩
    · rename_i name _
      have params :
          (commandParams members).Holds (Json.IsTextWithin call.body.length) Json.Fits := by
        unfold commandParams
        cases found : param? "params" members with
        | none => exact trivial
        | some value => exact param_holds within "params" value found
      obtain ⟨answers, later⟩ :=
        Command.dispatch_answers context bounded name small params state registry world
      exact ⟨tells_outcome _ answers, later⟩
  · exact ⟨tells_error .badRequest (by decide) _ (by decide), registry⟩

end Answering

/-- Serving keeps the numbers of the registry in range. -/
theorem serve_bounded [Json.Dialect] [Json.LawfulDialect] (context : Context World)
    (bounded : context.Bounded) (chunks : List Bytes) (state : Orchestrator)
    (registry : state.Bounded) (world : World) :
    (serve context chunks state world).2.1.Bounded := by
  unfold serve
  split
  · exact registry
  · rename_i call found
    exact (answer_tells context bounded call (ofChunks_body chunks call found) state registry world).2

structure Served [Json.Dialect] (context : Context World) (chunks : List Bytes)
    (state : Orchestrator) (world : World) : Prop where
  silent : (serve context chunks state world).1 = none →
    Incomplete (readAll chunks) ∨ LongHeader (readAll chunks)
  incomplete : Incomplete (readAll chunks) → (serve context chunks state world).1 = none
  idle : (serve context chunks state world).1 = none →
    (serve context chunks state world).2 = (state, world)
  read : ∀ reply, (serve context chunks state world).1 = some reply →
    reply.body.length < 2147483648 → ∃ response members ok, ReadAs reply response members ok
  -- Only the commands of a POST of an object to the control path are run.
  refused : ∀ call, Call.ofChunks chunks = some call → ¬ call.IsCommand →
    ∃ refusal, ∀ (run : Runner World) (state : Orchestrator) (world : World),
      serveBy run chunks state world = (some refusal, state, world)

theorem serve_replies [Json.Dialect] [Json.LawfulDialect] (context : Context World)
    (bounded : context.Bounded) (chunks : List Bytes) (state : Orchestrator)
    (registry : state.Bounded) (world : World) :
    Served context chunks state world := by
  cases found : Call.ofChunks chunks with
  | none =>
      have served : serve context chunks state world = (none, state, world) := by
        rw [serve, found]
      exact {
        silent := fun _ => ofChunks_eq_none chunks found
        incomplete := fun _ => by rw [served]
        idle := fun _ => by rw [served]
        read := fun reply sent => by
          rw [served] at sent
          cases sent
        refused := fun call read => by
          rw [found] at read
          cases read }
  | some call =>
      have served : (serve context chunks state world).1 =
          some (answer context call state world).1 := by
        rw [serve, found]
      have replied : (serve context chunks state world).1 ≠ none := by
        rw [served]
        exact Option.some_ne_none _
      have tells := (answer_tells context bounded call (ofChunks_body chunks call found) state
        registry world).1
      exact {
        silent := fun unsent => absurd unsent replied
        incomplete := fun incomplete => by
          rw [incomplete.silent] at found
          cases found
        idle := fun unsent => absurd unsent replied
        read := fun reply sent small => by
          rw [served, Option.some.injEq] at sent
          subst sent
          exact tells.readAs small
        refused := fun own read other => by
          rw [found, Option.some.injEq] at read
          subst read
          obtain ⟨refusal, same⟩ := answerBy_refused World call other
          refine ⟨refusal, fun run state world => ?_⟩
          rw [serveBy, found]
          dsimp only
          rw [same] }

/-- A machine without files at the start of time, whose transport counts the requests. -/
def countingContext : Context Nat := { counting with fileAt := fun _ => .missing, now := 0 }

-- A request for the list of servers, cut inside its end of the header block.
def listChunks : List Bytes :=
  [ascii "POST /rpc HTTP/1.0\r\nContent-Length: 18\r\n\r",
    ascii "\n\x7b\"command\":\"list\"\x7d"]

section Strict

attribute [local instance] Json.strict

theorem serve_replies_list :
    countingContext.Bounded ∧ (Orchestrator.initial .direct).Bounded ∧
      (serve countingContext listChunks (.initial .direct) 0).1 =
        some ⟨.ok, ascii "\x7b\"ok\":true,\"servers\":[]\x7d"⟩ ∧
      ∃ response members ok,
        ReadAs ⟨.ok, ascii "\x7b\"ok\":true,\"servers\":[]\x7d"⟩ response members ok := by
  have bounded : countingContext.Bounded := by
    refine ⟨by decide, fun path text found => ?_, fun transport request world response after sent => ?_⟩
    · cases found
    · cases sent
      exact (Json.wholesFit_nat 404).mpr (by decide)
  have registry := Orchestrator.bounded_initial .direct
  have sent : (serve countingContext listChunks (.initial .direct) 0).1 =
      some ⟨.ok, ascii "\x7b\"ok\":true,\"servers\":[]\x7d"⟩ := by decide +kernel
  have served := serve_replies countingContext bounded listChunks (.initial .direct) registry 0
  exact ⟨bounded, registry, sent, served.read _ sent (by decide)⟩

end Strict

end EndpointPreview.Control.Rpc
