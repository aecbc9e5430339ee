import EndpointPreview.Proofs.CommandReturns
import EndpointPreview.StrictFormats

/-!
What a service over HTTP answers. A launch gives a process id exactly when the transport brings a
good status and an object that tells of no error and names a process; a stop succeeds on any good
status without an error. All other answers of the transport are failures that a service declares,
but for a number that is too large for a double. A source that is no text is not sent at all, and
that failure is not declared either.
-/

namespace EndpointPreview.Execution

open Text Http

-- The failures of JSON are not declared: a request that has no text, and a number in the reply that
-- is too large.
def ServiceError.isDeclared : ServiceError → Bool
  | unwritableRequest => false
  | overflowingReply => false
  | _ => true

def GoodStatus (response : Response) : Prop := 200 ≤ response.status ∧ response.status < 300

def TellsNoError (members : Json.Members) : Prop :=
  ∀ error ∈ Json.member? (ascii "error") members, error = .null

theorem isOk_iff (response : Response) : response.isOk = true ↔ GoodStatus response := by
  simp [Response.isOk, GoodStatus]

theorem isNull_iff (value : Json) : value.isNull = true ↔ value = .null := by
  cases value <;> simp [Json.isNull]

theorem presentMember_none (key : String) (value : Json) :
    presentMember? key value = none ↔ ∀ found ∈ value.get? key, found = .null := by
  simp [presentMember?, Option.filter_eq_none_iff, isNull_iff]

theorem presentMember_some (key : String) (value found : Json) :
    presentMember? key value = some found ↔ value.get? key = some found ∧ found ≠ .null := by
  simp [presentMember?, Option.filter_eq_some_iff, ← isNull_iff]

theorem startPayload_isText (source : Bytes) (port : Nat) :
    (HttpService.startPayload source port).isText = Utf8.isValid source := by
  have members : HttpService.startPayload source port =
      .obj [(ascii "port", .nat port), (ascii "pythonCode", .str source)] := rfl
  have keys : Utf8.isValid (ascii "port") = true ∧ Utf8.isValid (ascii "pythonCode") = true := by
    decide
  simp [members, Json.isText, Json.membersAreText, keys, Json.nat]

section Answers

variable [Json.Dialect]

/-- The id that a value stands for: a string that is not empty, or the JSON text of what is neither
a string nor null. -/
inductive Identifies : Json → Bytes → Prop where
  | string (id : Bytes) (solid : id ≠ []) : Identifies (.str id) id
  | value (value : Json) (present : value ≠ .null) (other : ∀ text, value ≠ .str text) (id : Bytes)
      (written : value.render? = some id) : Identifies value id

inductive Started : Except TransportError Response → Bytes → Prop where
  | answer (response : Response) (good : GoodStatus response) (members : Json.Members)
      (read : Json.read? response.body = some (.obj members)) (fine : TellsNoError members)
      (value : Json) (named : Json.member? (ascii "processId") members = some value) (id : Bytes)
      (identifies : Identifies value id) : Started (.ok response) id

-- The transport answers with a number that is too large, which is not taken for a malformed answer.
inductive Overflowed : Except TransportError Response → Prop where
  | answer (response : Response) (good : GoodStatus response)
      (large : Json.read response.body = .error .overflow)
      (told : Json.Dialect.tellsOverflow = true) : Overflowed (.ok response)

inductive Stopped : Except TransportError Response → Prop where
  | silent (response : Response) (good : GoodStatus response) (empty : response.body = []) :
      Stopped (.ok response)
  | answer (response : Response) (good : GoodStatus response) (reply : Json)
      (read : Json.read? response.body = some reply)
      (fine : ∀ members, reply = .obj members → TellsNoError members) : Stopped (.ok response)

-- The end is a failure that is not declared exactly when the answer holds a number too large.
structure Declares (answer : Except TransportError Response) (ended : Except ServiceError α) :
    Prop where
  overflowed : ended = .error .overflowingReply ↔ Overflowed answer
  declared : ∀ error, ended = .error error → error ≠ .overflowingReply → error.isDeclared = true

theorem read_empty : Json.read [] = .error .malformed := by
  simp [Json.read, Json.withoutMark, Json.beforeEnd, startsWith, Json.byteOrderMark, beforeZero]
  rfl

/-- When a response is taken as a reply. -/
theorem readReply_ok (response : Response) (reply : Json) :
    readReply response = .ok reply ↔ GoodStatus response ∧
      (response.body = [] ∧ reply = .obj [] ∨
        Json.read? response.body = some reply ∧
          ∀ error ∈ reply.get? "error", error = .null) := by
  rw [← isOk_iff]
  unfold readReply
  cases response.isOk with
  | false => exact ⟨(by rintro ⟨⟩), (by rintro ⟨⟨⟩, _⟩)⟩
  | true =>
      simp only [Bool.not_true, Bool.false_eq_true, ↓reduceIte, List.isEmpty_iff, true_and]
      by_cases empty : response.body = []
      · rw [if_pos empty, empty, Json.read?, read_empty]
        simp [eq_comm, Except.toOption]
      · rw [if_neg empty, Response.json, Json.read?]
        simp only [empty, false_and, false_or]
        cases Json.read response.body with
        | error error => exact ⟨(by rintro ⟨⟩), (by rintro ⟨⟨⟩, _⟩)⟩
        | ok value =>
            dsimp only [Except.toOption]
            cases refused : presentMember? "error" value with
            | none =>
                have fine := (presentMember_none "error" value).mp refused
                constructor
                · rintro ⟨⟩
                  exact ⟨rfl, fine⟩
                · rintro ⟨⟨⟩, _⟩
                  rfl
            | some reason =>
                obtain ⟨found, present⟩ := (presentMember_some "error" value reason).mp refused
                constructor
                · rintro ⟨⟩
                · rintro ⟨⟨⟩, fine⟩
                  exact absurd (fine reason found) present

theorem ofRead_overflowing (error : Json.ReadError) :
    ServiceError.ofRead error = .overflowingReply ↔
      error = .overflow ∧ Json.Dialect.tellsOverflow = true := by
  cases error with
  | malformed => exact ⟨(by rintro ⟨⟩), (by rintro ⟨⟨⟩, _⟩)⟩
  | overflow => simp [ServiceError.ofRead]

theorem ofRead_declared (error : Json.ReadError)
    (other : ServiceError.ofRead error ≠ .overflowingReply) :
    (ServiceError.ofRead error).isDeclared = true := by
  cases error with
  | malformed => rfl
  | overflow =>
      have untold : ¬ Json.Dialect.tellsOverflow = true := fun told =>
        other ((ofRead_overflowing _).mpr ⟨rfl, told⟩)
      simp [ServiceError.ofRead, untold, ServiceError.isDeclared]

theorem Declares.ok {answer : Except TransportError Response} (value : α)
    (calm : ¬ Overflowed answer) : Declares answer (.ok value : Except ServiceError α) where
  overflowed := ⟨(by rintro ⟨⟩), fun overflowed => absurd overflowed calm⟩
  declared := nofun

theorem Declares.error {answer : Except TransportError Response} {error : ServiceError}
    (declared : error.isDeclared = true) (calm : ¬ Overflowed answer) :
    Declares answer (.error error : Except ServiceError α) where
  overflowed := by
    refine ⟨?_, fun overflowed => absurd overflowed calm⟩
    rintro ⟨⟩
    cases declared
  declared := by
    rintro _ ⟨⟩ _
    exact declared

/-- What is done with a value adds declared failures only. -/
theorem Declares.bind {answer : Except TransportError Response} {ended : Except ServiceError α}
    (declares : Declares answer ended) (next : α → Except ServiceError β)
    (declared : ∀ value error, next value = .error error → error.isDeclared = true) :
    Declares answer (ended.bind next) := by
  cases ended with
  | error error =>
      refine ⟨?_, ?_⟩
      · rw [← declares.overflowed]
        exact ⟨(by rintro ⟨⟩; rfl), (by rintro ⟨⟩; rfl)⟩
      · rintro _ ⟨⟩ other
        exact declares.declared error rfl other
  | ok value =>
      have calm : ¬ Overflowed answer := fun overflowed => by
        cases declares.overflowed.mpr overflowed
      change Declares answer (next value)
      cases found : next value with
      | error error => exact .error (declared value error found) calm
      | ok result => exact .ok result calm

theorem readReply_declares (response : Response) :
    Declares (.ok response) (readReply response) := by
  unfold readReply
  split
  · rename_i bad
    refine .error rfl ?_
    rintro ⟨_, good, _, _⟩
    simp [(isOk_iff response).mpr good] at bad
  split
  · rename_i good empty
    refine .ok _ ?_
    rintro ⟨_, _, large, _⟩
    rw [List.isEmpty_iff.mp empty, read_empty] at large
    cases large
  rename_i good solid
  rw [Bool.not_eq_true', Bool.not_eq_false] at good
  unfold Response.json
  cases found : Json.read response.body with
  | error error =>
      refine ⟨?_, ?_⟩
      · rw [Except.error.injEq, ofRead_overflowing]
        constructor
        · rintro ⟨rfl, told⟩
          exact .answer response ((isOk_iff response).mp good) found told
        · rintro ⟨_, _, large, told⟩
          rw [found] at large
          exact ⟨Except.error.inj large, told⟩
      · rintro _ ⟨⟩ other
        exact ofRead_declared error other
  | ok reply =>
      have calm : ¬ Overflowed (.ok response) := by
        rintro ⟨_, _, large, _⟩
        rw [found] at large
        cases large
      dsimp only
      split
      · exact .error rfl calm
      · exact .ok reply calm

theorem processIdOf_ok (reply : Json) (id : Bytes) :
    processIdOf reply = .ok id ↔
      ∃ value, reply.get? "processId" = some value ∧ value ≠ .null ∧ plainText value ≠ [] ∧
        id = plainText value := by
  unfold processIdOf
  cases named : presentMember? "processId" reply with
  | none =>
      have absent := (presentMember_none "processId" reply).mp named
      constructor
      · rintro ⟨⟩
      · rintro ⟨value, found, present, _⟩
        exact absurd (absent value found) present
  | some own =>
      obtain ⟨found, present⟩ := (presentMember_some "processId" reply own).mp named
      dsimp only
      simp only [List.isEmpty_iff]
      constructor
      · intro taken
        split at taken
        · cases taken
        · rename_i solid
          exact ⟨own, found, present, solid, (Except.ok.inj taken).symm⟩
      · rintro ⟨value, again, _, solid, rfl⟩
        obtain rfl : own = value := Option.some.inj (found.symm.trans again)
        rw [if_neg solid]

theorem processIdOf_declared (reply : Json) (error : ServiceError)
    (failed : processIdOf reply = .error error) : error.isDeclared = true := by
  unfold processIdOf at failed
  split at failed
  · cases failed
    rfl
  · split at failed
    · cases failed
      rfl
    · cases failed

/-- A value that was read identifies the process by its text. -/
theorem identifies_iff (value : Json) (text : value.isText = true) (id : Bytes) :
    Identifies value id ↔ value ≠ .null ∧ plainText value ≠ [] ∧ id = plainText value := by
  have rendered : value.render? = some value.render := if_pos text
  constructor
  · intro identifies
    cases identifies with
    | string id solid => exact ⟨nofun, solid, rfl⟩
    | value value present other id written =>
        have own : plainText value = value.render := by
          unfold plainText
          split
          · exact absurd rfl (other _)
          · rfl
        rw [own]
        refine ⟨present, ?_, (Option.some.inj (rendered.symm.trans written)).symm⟩
        exact value.render_solid
  · rintro ⟨present, solid, rfl⟩
    cases value with
    | str content => exact .string content solid
    | _ => exact .value _ present nofun _ rendered

/-- A member of a reply identifies the process by its text. -/
theorem identifies_named (body : Bytes) (members : Json.Members)
    (read : Json.read? body = some (.obj members)) (key : Bytes) (value : Json)
    (found : Json.member? key members = some value) (id : Bytes) :
    Identifies value id ↔ value ≠ .null ∧ plainText value ≠ [] ∧ id = plainText value :=
  identifies_iff value (Json.member_isText members key value (Json.read_isText body _ read) found) id

theorem request_some (service : HttpService) (path : Bytes) (payload : Json)
    (text : payload.isText = true) :
    service.request? path payload = some
      { method := ascii "POST"
        url := service.baseUrl ++ path
        headers := [(contentType, jsonType)]
        body := payload.render
        timeoutMs := service.timeoutMs } := by
  have rendered : payload.render? = some payload.render := if_pos text
  rw [HttpService.request?, Request.postJson?, rendered]
  rfl

theorem request_none (service : HttpService) (path : Bytes) (payload : Json)
    (garbled : payload.isText = false) : service.request? path payload = none := by
  have unrendered : payload.render? = none := if_neg (by simp [garbled])
  rw [HttpService.request?, Request.postJson?, unrendered]
  rfl

variable (answer : Except TransportError Response)

def replyTo : Except ServiceError Json := (answer.mapError .undelivered).bind readReply

theorem replyTo_ok (reply : Json) :
    replyTo answer = .ok reply ↔
      ∃ response, answer = .ok response ∧ readReply response = .ok reply := by
  cases answer with
  | error error => exact ⟨(by rintro ⟨⟩), (by rintro ⟨_, ⟨⟩, _⟩)⟩
  | ok response =>
      constructor
      · intro replied
        exact ⟨response, rfl, replied⟩
      · rintro ⟨_, ⟨⟩, replied⟩
        exact replied

theorem replyTo_declares : Declares answer (replyTo answer) := by
  cases answer with
  | error undelivered => exact .error rfl nofun
  | ok response => exact readReply_declares response

/-- The id of a launch is the one that the transport answers. -/
theorem launched_iff (id : Bytes) :
    (replyTo answer).bind processIdOf = .ok id ↔ Started answer id := by
  constructor
  · intro taken
    cases replied : replyTo answer with
    | error error =>
        rw [replied] at taken
        cases taken
    | ok reply =>
        rw [replied] at taken
        obtain ⟨value, found, own⟩ := (processIdOf_ok reply id).mp taken
        obtain ⟨response, rfl, read⟩ := (replyTo_ok answer reply).mp replied
        obtain ⟨good, ⟨_, rfl⟩ | ⟨read, fine⟩⟩ := (readReply_ok response reply).mp read
        · cases found
        · cases reply with
          | obj members =>
              exact .answer response good members read fine value found id
                ((identifies_named response.body members read _ value found id).mpr own)
          | _ => cases found
  · rintro ⟨response, good, members, read, fine, value, found, id, identifies⟩
    have own := (identifies_named response.body members read _ value found id).mp identifies
    have replied : replyTo (.ok response) = .ok (.obj members) :=
      (readReply_ok response _).mpr ⟨good, .inr ⟨read, fine⟩⟩
    rw [replied]
    exact (processIdOf_ok (.obj members) id).mpr ⟨value, found, own⟩

theorem launched_declares : Declares answer ((replyTo answer).bind processIdOf) :=
  (replyTo_declares answer).bind processIdOf processIdOf_declared

theorem halted_iff : (replyTo answer).map (fun _ => ()) = .ok () ↔ Stopped answer := by
  constructor
  · intro taken
    cases replied : replyTo answer with
    | error error =>
        rw [replied] at taken
        cases taken
    | ok reply =>
        obtain ⟨response, rfl, read⟩ := (replyTo_ok answer reply).mp replied
        obtain ⟨good, ⟨empty, _⟩ | ⟨read, fine⟩⟩ := (readReply_ok response reply).mp read
        · exact .silent response good empty
        · refine .answer response good reply read ?_
          rintro members rfl
          exact fine
  · intro stopped
    have replied : ∃ reply, replyTo answer = .ok reply := by
      cases stopped with
      | silent response good empty =>
          exact ⟨_, (readReply_ok response _).mpr ⟨good, .inl ⟨empty, rfl⟩⟩⟩
      | answer response good reply read fine =>
          refine ⟨_, (readReply_ok response reply).mpr ⟨good, .inr ⟨read, ?_⟩⟩⟩
          cases reply with
          | obj members => exact fine members rfl
          | _ => nofun
    obtain ⟨reply, replied⟩ := replied
    rw [replied]
    rfl

theorem halted_declares : Declares answer ((replyTo answer).map fun _ => ()) := by
  have own : (replyTo answer).map (fun _ => ()) = (replyTo answer).bind fun _ => .ok () := by
    cases replyTo answer <;> rfl
  rw [own]
  exact (replyTo_declares answer).bind _ nofun

variable {World : Type} (around : Surroundings World) (service : HttpService)
  (transport : Transport) (port : Nat) (world : World)

theorem post_some (path : Bytes) (payload : Json) (request : Request)
    (made : service.request? path payload = some request) :
    Service.post around service transport path payload world =
      (replyTo (around.send transport request world).1,
        (around.send transport request world).2) := by
  unfold Service.post
  rw [made]
  rfl

theorem post_none (path : Bytes) (payload : Json) (garbled : service.request? path payload = none) :
    Service.post around service transport path payload world =
      (.error .unwritableRequest, world) := by
  unfold Service.post
  rw [garbled]

theorem launch_http (source : Bytes) :
    (Service.http service transport).launch around source port world =
      let posted := Service.post around service transport HttpService.startPath
        (HttpService.startPayload source port) world
      (posted.1.bind processIdOf, posted.2) := rfl

theorem halt_http :
    (Service.http service transport).halt around port world =
      let posted := Service.post around service transport HttpService.stopPath
        (HttpService.stopPayload port) world
      (posted.1.map fun _ => (), posted.2) := rfl

structure LaunchEnds (source : Bytes) : Prop where
  -- A text is sent, in one request, and the id is the one that is answered.
  sent : Utf8.isValid source = true →
    ∃ request,
      service.request? HttpService.startPath (HttpService.startPayload source port) = some request ∧
        ((Service.http service transport).launch around source port world).2 =
          (around.send transport request world).2 ∧
        (∀ id, ((Service.http service transport).launch around source port world).1 = .ok id ↔
          Started (around.send transport request world).1 id) ∧
        Declares (around.send transport request world).1
          ((Service.http service transport).launch around source port world).1
  unsent : Utf8.isValid source = false →
    (Service.http service transport).launch around source port world =
      (.error .unwritableRequest, world)

def HaltEnds : Prop :=
  ∃ request,
    service.request? HttpService.stopPath (HttpService.stopPayload port) = some request ∧
      ((Service.http service transport).halt around port world).2 =
        (around.send transport request world).2 ∧
      (((Service.http service transport).halt around port world).1 = .ok () ↔
        Stopped (around.send transport request world).1) ∧
      Declares (around.send transport request world).1
        ((Service.http service transport).halt around port world).1

theorem launch_ends (source : Bytes) :
    LaunchEnds around service transport port world source where
  sent valid := by
    have made := request_some service HttpService.startPath _
      ((startPayload_isText source port).trans valid)
    refine ⟨_, made, ?_⟩
    rw [launch_http, post_some around service transport world _ _ _ made]
    exact ⟨rfl, launched_iff _, launched_declares _⟩
  unsent garbled := by
    have unmade := request_none service HttpService.startPath _
      ((startPayload_isText source port).trans garbled)
    rw [launch_http, post_none around service transport world _ _ unmade]
    rfl

theorem halt_ends : HaltEnds around service transport port world := by
  have made := request_some service HttpService.stopPath (HttpService.stopPayload port) rfl
  refine ⟨_, made, ?_⟩
  rw [halt_http, post_some around service transport world _ _ _ made]
  exact ⟨rfl, halted_iff _, halted_declares _⟩

/-- A service over HTTP has started and stopped what the transport answers, whatever that is; the
only failures that it does not declare are that of a source that is no text and that of a number in
the answer that is too large. -/
theorem http_answers :
    (∀ source, LaunchEnds around service transport port world source) ∧
      HaltEnds around service transport port world :=
  ⟨launch_ends around service transport port world, halt_ends around service transport port world⟩

end Answers

def answering (body : Bytes) : Surroundings Unit where
  send _ _ _ := (.ok ⟨200, ascii "OK", [], body⟩, ())
  describe _ := []
  launch _ _ _ _ := (.error .disabled, ())
  halt _ _ _ := (.error .disabled, ())

def localService : Service := .http (.make (ascii "http://localhost:9000") 30000) .direct

abbrev telling : Json.Dialect := { Json.strict with tellsOverflow := true }

section Strict

attribute [local instance] Json.strict

/-- The failure for a source that is no text is not declared, nor is that for a number too large. -/
theorem launch_undeclared :
    (localService.launch (answering (ascii "\x7b\"processId\":\"p\"\x7d")) [0xff] 5000 ()).1 =
        .error .unwritableRequest ∧
      ServiceError.unwritableRequest.isDeclared = false ∧
      (@Service.halt telling Unit (answering (ascii "1e999")) 5000 () localService).1 =
        .error .overflowingReply ∧
      ServiceError.overflowingReply.isDeclared = false :=
  ⟨rfl, rfl, rfl, rfl⟩

end Strict

end EndpointPreview.Execution
