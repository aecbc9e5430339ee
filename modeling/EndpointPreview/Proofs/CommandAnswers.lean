import EndpointPreview.Control.Rpc
import EndpointPreview.Proofs.DecoratorBinding
import EndpointPreview.Proofs.JsonReading
import EndpointPreview.Proofs.Registry

/-!
Answers of commands. While times, lengths, statuses and counts are numbers of 64 bits, so are all
whole numbers in an answer, and no member of an answer takes the place of its verdict.
-/

namespace EndpointPreview.Json

open Text

section Fitting

@[simp] theorem wholesFit_null : WholesFit .null := trivial

@[simp] theorem wholesFit_bool (value : Bool) : WholesFit (.bool value) := trivial

@[simp] theorem wholesFit_str (content : Bytes) : WholesFit (.str content) := trivial

@[simp] theorem wholesFit_text (content : String) : WholesFit (.text content) := trivial

@[simp] theorem wholesFit_int (n : Int) : WholesFit (.int n) ↔ Fits n := Iff.rfl

@[simp] theorem wholesFit_nat (n : Nat) : WholesFit (.nat n) ↔ n < Numeral.wordLimit := by
  change Fits (n : Int) ↔ _
  unfold Fits Numeral.limit64 Numeral.wordLimit
  omega

@[simp] theorem wholesFit_arr (items : List Json) :
    WholesFit (.arr items) ↔ ∀ item ∈ items, item.WholesFit := itemsHold_iff _ _ _

@[simp] theorem wholesFit_ofOption (text : Option Bytes) : WholesFit (.ofOption .str text) := by
  cases text <;> trivial

theorem wholesFit_object (members : Members) (each : ∀ member ∈ members, member.2.WholesFit) :
    (object members).WholesFit :=
  holds_object members fun member inside => ⟨trivial, each member inside⟩

end Fitting

end EndpointPreview.Json

namespace EndpointPreview.Notation

open Text

def Finding.line : Finding → Nat
  | .endpoint found => found.line
  | .helper found => found.line
  | .diagnostic found => found.line

-- A finding stands on one of the rows of the scan, or on the row of the decorator that waited.
theorem Scanned.on_rows {lineNumber : Nat} {pending : Option Pending} {rows : List Bytes}
    {found : List Finding} (scanned : Scanned lineNumber pending rows found) (limit : Nat)
    (waits : ∀ waiting ∈ pending, waiting.line < limit) (fits : lineNumber + rows.length ≤ limit) :
    ∀ finding ∈ found, finding.line < limit := by
  induction scanned with
  | finish lineNumber pending =>
      intro finding member
      obtain ⟨report, reported, rfl⟩ := List.mem_map.mp member
      obtain ⟨waiting, inside, rfl⟩ := List.mem_map.mp reported
      exact waits waiting (Option.mem_toList.mp inside)
  | @row lineNumber pending next line later reports found passed rest ih =>
      rw [List.length_cons] at fits
      obtain ⟨reported, waiting⟩ := passed.lines
      refine List.forall_mem_append.mpr
        ⟨fun finding member => ?_, ih (fun next inside => ?_) (by omega)⟩
      · obtain ⟨report, inside, rfl⟩ := List.mem_map.mp member
        rcases reported report inside with own | ⟨held, member, own⟩
        · exact own.trans_lt (by omega)
        · exact own.trans_lt (waits held member)
      · rcases waiting next inside with own | held
        · omega
        · exact waits next held
  | @function lineNumber pending line later gap header block found unmarked read taken rest ih =>
      rw [List.length_cons] at fits
      refine List.forall_mem_cons.mpr ⟨?_, ?_⟩
      · have own : (functionFinding pending lineNumber header block).line = lineNumber := by
          cases pending <;> rfl
        omega
      · rcases Nat.le_total block.laterLines later.length with inside | past
        · exact ih (by simp) (by rw [List.length_drop]; omega)
        · have gone : later.drop block.laterLines = [] := List.drop_eq_nil_of_le past
          rw [gone] at rest
          cases rest
          simp [dropped]

theorem length_rawLines (text : Bytes) : (rawLines text).length ≤ text.length := by
  induction text with
  | nil => exact Nat.le_refl _
  | cons b rest ih =>
      unfold rawLines
      split
      · exact Nat.succ_le_succ ih
      · split
        · simp
        · rename_i line later rows
          rw [rows] at ih
          exact ih.trans (Nat.le_succ _)

/-- Every finding stands on a line of the source. -/
theorem findings_line (source : Bytes) (finding : Finding) (member : finding ∈ findings source) :
    finding.line ≤ source.length := by
  have count : (lines source).length ≤ source.length := by
    rw [lines, List.length_map]
    exact length_rawLines source
  have below := (findings_scanned source).on_rows (source.length + 1) (by simp) (by omega)
    finding member
  omega

theorem parameters_fit (parameters : List Parameter) :
    (Parameter.listToJson parameters).WholesFit := by
  unfold Parameter.listToJson
  rw [Json.wholesFit_arr, List.forall_mem_map]
  exact fun parameter _ => Json.wholesFit_object _ (by simp)

theorem parsed_fits (source : Bytes) (small : source.length < Numeral.wordLimit) :
    (parse source).toJson.WholesFit := by
  have line (finding : Finding) (member : finding ∈ findings source) :
      finding.line < Numeral.wordLimit := (findings_line source finding member).trans_lt small
  have found {α : Type} {kind : Finding → Option α} {one : α}
      (inside : one ∈ (findings source).filterMap kind) :
      ∃ finding ∈ findings source, kind finding = some one := List.mem_filterMap.mp inside
  refine Json.wholesFit_object _ ?_
  simp only [List.forall_mem_cons, Json.wholesFit_arr, List.forall_mem_map, List.not_mem_nil,
    false_implies, implies_true, and_true]
  refine ⟨fun endpoint inside => ?_, fun helper inside => ?_, fun diagnostic inside => ?_⟩
  · obtain ⟨finding, member, own⟩ := found inside
    have bound := line finding member
    cases finding <;> cases own
    rw [Finding.line] at bound
    exact Json.wholesFit_object _ (by simpa [Endpoint.members, parameters_fit] using bound)
  · obtain ⟨finding, member, own⟩ := found inside
    have bound := line finding member
    cases finding <;> cases own
    rw [Finding.line] at bound
    exact Json.wholesFit_object _ (by simpa [parameters_fit] using bound)
  · obtain ⟨finding, member, own⟩ := found inside
    have bound := line finding member
    cases finding <;> cases own
    rw [Finding.line] at bound
    exact Json.wholesFit_object _ (by simpa using bound)

theorem report_fits (source : Bytes) (small : source.length < Numeral.wordLimit) :
    (validate source).toJson.WholesFit := by
  have parsed : (validate source).parsed.toJson.WholesFit := by
    unfold validate
    split
    · exact parsed_fits source small
    · have empty : (validateConventional source).parsed = .empty := rfl
      rw [empty]
      exact Json.wholesFit_object _ (by simp [ParsedSource.empty])
  exact Json.wholesFit_object _ (by simpa using parsed)

/-- A source has no more endpoints than lines. -/
theorem endpoints_few (source : Bytes) : (parse source).endpoints.length ≤ source.length := by
  have inside : (parse source).endpoints.map Endpoint.line ⊆ List.range' 1 source.length := by
    refine List.forall_mem_map.mpr fun endpoint member => ?_
    obtain ⟨index, _, _, _, first, _⟩ := endpoint_header source endpoint member
    have last := findings_line source _ (endpoint_finding source endpoint member)
    rw [Finding.line] at last
    exact List.mem_range'_1.mpr ⟨by omega, by omega⟩
  have few := ((endpoints_alone source).subperm inside).length_le
  rwa [List.length_map, List.length_range'] at few

end EndpointPreview.Notation

namespace EndpointPreview.Execution

open Text Preview

variable {World : Type}

structure Instance.Bounded (server : Instance) : Prop where
  port : server.port ≤ maxPort
  startedAt : server.startedAt < Numeral.wordLimit

theorem Instance.toJson_fits (server : Instance) (bounded : server.Bounded) :
    server.toJson.WholesFit := by
  have port : server.port < Numeral.wordLimit := bounded.port.trans_lt (by decide)
  have steps : ∀ step ∈ server.log, (Instance.stepToJson step).WholesFit := fun step _ =>
    Json.wholesFit_object _ (by simp)
  refine Json.wholesFit_object _ ?_
  simpa [port, bounded.startedAt] using steps

namespace Orchestrator

structure Bounded (state : Orchestrator) : Prop where
  sorted : Table.Sorted portLess state.instances
  servers : ∀ entry ∈ state.instances, entry.1 ≤ maxPort ∧ entry.2.Bounded

theorem bounded_initial (transport : Http.Transport) : (initial transport).Bounded where
  sorted := List.Pairwise.nil
  servers := fun _ member => absurd member List.not_mem_nil

namespace Bounded

variable {state : Orchestrator} (bounded : state.Bounded)
include bounded

theorem sublist {later : Orchestrator} (fewer : later.instances.Sublist state.instances) :
    later.Bounded where
  sorted := bounded.sorted.sublist fewer
  servers := fun entry member => bounded.servers entry (fewer.subset member)

theorem same {later : Orchestrator} (instances : later.instances = state.instances) :
    later.Bounded := bounded.sublist (instances ▸ List.Sublist.refl _)

/-- There are no more instances than ports. -/
theorem count : state.instances.length < Numeral.wordLimit := by
  have once := Table.keys_nodup portLess_orders _ bounded.sorted
  have low : state.instances.map Prod.fst ⊆ List.range (maxPort + 1) := by
    intro port member
    obtain ⟨entry, inside, rfl⟩ := List.mem_map.mp member
    exact List.mem_range.mpr (Nat.lt_succ_of_le (bounded.servers entry inside).1)
  have few := (once.subperm low).length_le
  rw [List.length_map, List.length_range] at few
  exact few.trans_lt (by decide)

theorem get? {port : Nat} {server : Instance} (found : state.get? port = some server) :
    server.Bounded :=
  (bounded.servers _ (Table.mem_of_find? portLess_orders port server _ found)).2

theorem active : ∀ server ∈ state.active, server.Bounded := by
  intro server member
  obtain ⟨entry, inside, rfl⟩ := List.mem_map.mp member
  exact (bounded.servers entry inside).2

theorem register {port : Nat} (small : port ≤ maxPort) {server : Instance} (own : server.Bounded)
    (launcher : Option Service) : (state.register port server launcher).Bounded where
  sorted := Table.set_sorted portLess_orders port server _ bounded.sorted
  servers := by
    intro entry member
    rcases Table.mem_set portLess_orders port server _ entry member with rfl | kept
    · exact ⟨small, own⟩
    · exact bounded.servers entry kept

/-! Operations keep the numbers in range. -/

theorem stop [Json.Dialect] (around : Surroundings World) (port : Nat) (world : World) :
    (state.stop around port world).1.Bounded := by
  unfold Orchestrator.stop withdraw
  cases found : state.get? port with
  | none => exact bounded
  | some server =>
      refine bounded.sublist ?_
      dsimp only
      have released : (release around port server (state.launcher? port) (state.cleared port)
          world).1.instances = (state.cleared port).instances := by
        unfold release
        split
        · rfl
        · exact (stopNetworkOn_registry port _).1
      exact released ▸ Table.erase_sublist port state.instances

theorem stopEach [Json.Dialect] (around : Surroundings World) (ports : List Nat) (world : World) :
    (stopEach around ports state world).1.Bounded := by
  induction ports generalizing state world with
  | nil => exact bounded
  | cons port ports ih => exact ih (bounded.stop around port world) _

theorem stopAll [Json.Dialect] (around : Surroundings World) (world : World) :
    (state.stopAll around world).1.Bounded := (bounded.stopEach around _ world).same rfl

theorem startOn [Json.Dialect] (around : Surroundings World) {now : Millis}
    (soon : now < Numeral.wordLimit) (source : Bytes) {port : Nat} (small : port ≤ maxPort)
    (world : World) :
    (state.startOn around now source port world).1.Bounded := by
  have stopped := bounded.stop around port world
  rw [startOn_eq]
  dsimp only
  generalize state.stop around port world = result at stopped
  obtain ⟨later, after⟩ := result
  unfold launch
  dsimp only
  split
  · refine stopped.register small ?_ _
    exact ⟨small, soon⟩
  · have served : (later.startNetwork port (routesOf source later.overrides)).Bounded :=
      stopped.same rfl
    refine served.register small ?_ _
    exact ⟨small, soon⟩

theorem allocate :
    state.allocate.2.Bounded ∧ ∀ port, state.allocate.1 = some port → port ≤ maxPort := by
  unfold Orchestrator.allocate
  dsimp only
  split
  · rename_i free
    refine ⟨bounded.same rfl, ?_⟩
    rintro port ⟨⟩
    exact free
  · exact ⟨bounded.same rfl, by rintro port ⟨⟩⟩

/-- A start hands out a port, which is in range. -/
theorem start [Json.Dialect] (around : Surroundings World) {now : Millis}
    (soon : now < Numeral.wordLimit) (source : Bytes) {port : Option Nat}
    (small : ∀ given ∈ port, given ≤ maxPort) (world : World) :
    (state.start around now source port world).2.1.Bounded ∧
      ∀ handed, (state.start around now source port world).1 = .ok handed → handed ≤ maxPort := by
  unfold Orchestrator.start
  cases port with
  | some port =>
      have own : port ≤ maxPort := small port rfl
      refine ⟨bounded.startOn around soon source own world, ?_⟩
      rintro handed ⟨⟩
      exact own
  | none =>
      obtain ⟨later, given⟩ := bounded.allocate
      generalize state.allocate = result at later given
      obtain ⟨none | port, next⟩ := result
      · exact ⟨later, by rintro handed ⟨⟩⟩
      · have own : port ≤ maxPort := given port rfl
        refine ⟨later.startOn around soon source own world, ?_⟩
        rintro handed ⟨⟩
        exact own

end Bounded
end Orchestrator
end EndpointPreview.Execution

namespace EndpointPreview.Control

open Text Http Execution

variable {World : Type}

-- The numbers of a context are those of a machine: times, lengths of files and the statuses of
-- responses fit 64 bits.
structure Context.Bounded (context : Context World) : Prop where
  now : context.now < Numeral.wordLimit
  files : ∀ path text, context.fileAt path = .contents text → text.length < Numeral.wordLimit
  statuses : ∀ transport request world response after,
    context.send transport request world = (.ok response, after) → Json.Fits response.status

-- A value of the kind, a refusal, or one of the interruptions that may happen.
inductive Ends (interruption : CommandError → Prop) {α : Type} (kind : α → Prop) :
    Except CommandError α → Prop where
  | value (value : α) (own : kind value) : Ends interruption kind (.ok value)
  | refusal (error : CommandError) (calm : error.interrupts = false) :
      Ends interruption kind (.error error)
  | interruption (error : CommandError) (own : interruption error) :
      Ends interruption kind (.error error)

-- The end of a command that can be told in a reply, even when it is interrupted.
abbrev Yields {α : Type} (kind : α → Prop) : Except CommandError α → Prop :=
  Ends (fun error => Utf8.isValid error.message = true) kind

theorem Ends.bind {interruption : CommandError → Prop} {α β : Type} {kind : α → Prop}
    {after : β → Prop} {read : Except CommandError α} (ends : Ends interruption kind read)
    {next : α → Except CommandError β} (each : ∀ value, kind value → Ends interruption after (next value)) :
    Ends interruption after (read.bind next) := by
  cases ends with
  | value value own => exact each value own
  | refusal error calm => exact .refusal error calm
  | interruption error own => exact .interruption error own

theorem isValid_beforeZero (text : Bytes) (valid : Utf8.isValid text = true) :
    Utf8.isValid (beforeZero text) = true := by
  have whole : text.takeWhile (· != 0) ++ text.dropWhile (· != 0) = text :=
    List.takeWhile_append_dropWhile
  rw [Utf8.isValid_iff] at valid ⊢
  unfold beforeZero
  cases rest : text.dropWhile (· != 0) with
  | nil =>
      rw [rest, List.append_nil] at whole
      rwa [whole]
  | cons b later =>
      have zero : b = 0 := by
        have stops := List.head_dropWhile_not (· != 0) (l := text) (by simp [rest])
        simpa [rest] using stops
      rw [← whole, rest, zero] at valid
      exact (Utf8.run_before _ _ _ 0 later (by decide) valid).1

theorem longFileName_valid (path : Bytes) (valid : Utf8.isValid path = true) :
    Utf8.isValid (CommandError.longFileName path).message = true := by
  refine isValid_beforeZero _ ?_
  exact Utf8.isValid_append _ _ (Utf8.isValid_append _ _ (by decide) valid) (by decide)

section Readers

variable {interruption : CommandError → Prop} (params : Json.Members)

theorem stringParam_ends {kind : Bytes → Prop} (key : String) (default : Bytes) (own : kind default)
    (given : ∀ text, param? key params = some (.str text) → kind text) :
    Ends interruption kind (stringParam key default params) := by
  unfold stringParam
  split
  · exact .value default own
  · exact .value default own
  · rename_i text found
    exact .value text (given text found)
  · exact .refusal _ rfl

/-- A source is the one given as text or that of a file; a long name of the file interrupts. -/
theorem sourceParam_ends {kind : Bytes → Prop} (fileAt : Bytes → FileRead)
    (given : ∀ source, param? "source" params = some (.str source) → kind source)
    (filed : ∀ path source, fileAt path = .contents source → kind source)
    (long : ∀ path, param? "file" params = some (.str path) → fileAt path = .nameTooLong →
      interruption (.longFileName path)) :
    Ends interruption kind (sourceParam fileAt params) := by
  unfold sourceParam
  split
  · rename_i source found
    exact .value source (given source found)
  · exact .refusal _ rfl
  · have file : Ends interruption (fun path => path ≠ [] → param? "file" params = some (.str path))
        (stringParam "file" [] params) :=
      stringParam_ends params "file" [] (fun empty => absurd rfl empty) fun path found _ => found
    refine file.bind fun path named => ?_
    unfold readSource
    split
    · exact .refusal _ rfl
    · rename_i filled
      split
      · exact .refusal _ rfl
      · exact .refusal _ rfl
      · rename_i tooLong
        exact .interruption _ (long path (named (by simpa using filled)) tooLong)
      · rename_i source found
        exact .value source (filed path source found)

theorem portParam_ends :
    Ends interruption (fun port => ∀ given ∈ port, given ≤ maxPort) (portParam params) := by
  unfold portParam
  split
  · exact .value none (by simp)
  · exact .value none (by simp)
  · rename_i n found
    split
    · rename_i isPort
      refine .value (some n.toNat) ?_
      have bound : 1 ≤ n ∧ n ≤ 65535 := by simpa [Settings.isPort] using isPort
      rintro given ⟨⟩
      unfold maxPort
      omega
    · exact .refusal _ rfl
  · exact .refusal _ rfl

theorem requiredPort_ends : Ends interruption (· ≤ maxPort) (requiredPort params) := by
  refine (portParam_ends params).bind fun port small => ?_
  cases port with
  | none => exact .refusal _ rfl
  | some port => exact .value port (small port rfl)

theorem sentText_ends [Json.Dialect] (value : Json)
    (unwritable : value.isText = false → interruption .unwritableParam) :
    Ends interruption (fun _ => True) (sentText value) := by
  unfold sentText
  split
  · exact .value _ trivial
  · unfold Json.render?
    split
    · exact .value _ trivial
    · rename_i garbled
      exact .interruption _ (unwritable (by simpa using garbled))

theorem setHeaders_ends [Json.Dialect] (request : Request) (members : Json.Members)
    (unwritable : ∀ entry ∈ members, entry.2.isText = false → interruption .unwritableParam) :
    Ends interruption (fun _ => True) (setHeaders request members) := by
  induction members generalizing request with
  | nil => exact .value _ trivial
  | cons entry later ih =>
      obtain ⟨own, all⟩ := List.forall_mem_cons.mp unwritable
      exact (sentText_ends entry.2 own).bind fun text _ => ih _ all

/-- Only a value that has no JSON text interrupts the making of a request. -/
theorem requestParam_ends [Json.Dialect]
    (body : ∀ value, param? "body" params = some value → value.isText = false →
      interruption .unwritableParam)
    (headers : ∀ members, param? "headers" params = some (.obj members) →
      ∀ entry ∈ members, entry.2.isText = false → interruption .unwritableParam) :
    Ends interruption (fun _ => True) (requestParam params) := by
  have string (key : String) (default : Bytes) :
      Ends interruption (fun _ => True) (stringParam key default params) :=
    stringParam_ends params key default trivial fun _ _ => trivial
  have bodied (request : Request) : Ends interruption (fun _ => True) (withBody params request) := by
    unfold withBody
    split
    · exact .value _ trivial
    · exact .value _ trivial
    · rename_i value _ found
      exact (sentText_ends value (body value found)).bind fun text _ => .value _ trivial
  have headed (request : Request) :
      Ends interruption (fun _ => True) (withHeaders params request) := by
    unfold withHeaders
    split
    · rename_i members found
      exact setHeaders_ends request members (headers members found)
    · exact .value _ trivial
  have timed (request : Request) :
      Ends interruption (fun _ => True) (withTimeout params request) := by
    unfold withTimeout
    split
    · exact .value _ trivial
    · exact .value _ trivial
    · split
      · exact .value _ trivial
      · exact .refusal _ rfl
    · exact .refusal _ rfl
  refine (string "url" []).bind fun url _ => ?_
  dsimp only
  split
  · exact .refusal _ rfl
  · refine (string "method" (ascii "GET")).bind fun method _ => ?_
    refine (bodied _).bind fun request _ => ?_
    exact (headed request).bind fun request _ => timed request

end Readers

section Parameters

variable {limit : Nat} {params : Json.Members} (small : limit < Numeral.wordLimit)
  (read : (Json.obj params).Holds (Json.IsTextWithin limit) Json.Fits)

include read in
theorem param_holds (key : String) (value : Json) (found : param? key params = some value) :
    value.Holds (Json.IsTextWithin limit) Json.Fits :=
  Json.holds_member params (ascii key) value read found

include small read in
theorem sourceParam_yields (context : Context World) (bounded : context.Bounded) :
    Yields (·.length < Numeral.wordLimit) (sourceParam context.fileAt params) := by
  refine sourceParam_ends params context.fileAt (fun source found => ?_) bounded.files
    fun path named _ => ?_
  · have text := param_holds read "source" (.str source) found
    exact text.2.trans_lt small
  · have text := param_holds read "file" (.str path) named
    exact longFileName_valid path text.1

include small read in
theorem startParams_yields (context : Context World) (bounded : context.Bounded) :
    Yields (fun start => ∀ given ∈ start.2, given ≤ maxPort)
      (Command.startParams context.fileAt params) := by
  refine (sourceParam_yields small read context bounded).bind fun source _ => ?_
  refine (portParam_ends params).bind fun port small => ?_
  exact .value (source, port) small

theorem requestParam_yields [Json.Dialect] (params : Json.Members) :
    Yields (fun _ => True) (requestParam params) :=
  requestParam_ends params (fun _ _ _ => rfl) fun _ _ _ _ _ => rfl

end Parameters

structure Supplements (entry : Bytes × Json) : Prop where
  other : entry.1 ≠ ascii "ok"
  fits : entry.2.WholesFit

abbrev Answers (outcome : Outcome) : Prop :=
  Yields (fun members => ∀ entry ∈ members, Supplements entry) outcome

theorem member_supplements {name : String} (other : ascii name ≠ ascii "ok") {value : Json}
    (fits : value.WholesFit) : Supplements (member name value) := ⟨other, fits⟩

theorem serverMember_supplements (server : Option Instance) (bounded : ∀ own ∈ server, own.Bounded) :
    ∀ entry ∈ serverMember server, Supplements entry := by
  intro entry inside
  obtain ⟨own, found, rfl⟩ := List.mem_map.mp inside
  have fits := own.toJson_fits (bounded own (Option.mem_toList.mp found))
  exact member_supplements (by decide) fits

theorem responseMembers_supplements [Json.Dialect] (response : Response)
    (status : Json.Fits response.status) :
    ∀ entry ∈ responseMembers response, Supplements entry := by
  have headers :
      (Json.object (response.headers.map fun entry => (entry.1, .str entry.2))).WholesFit := by
    refine Json.wholesFit_object _ fun entry inside => ?_
    obtain ⟨header, _, rfl⟩ := List.mem_map.mp inside
    exact trivial
  refine List.forall_mem_append.mpr ⟨?_, fun entry inside => ?_⟩
  · simp only [List.forall_mem_cons, List.not_mem_nil, false_implies, implies_true, and_true]
    exact ⟨member_supplements (by decide) status, member_supplements (by decide) headers,
      member_supplements (by decide) trivial⟩
  · obtain ⟨value, found, rfl⟩ := List.mem_map.mp inside
    have read := Json.read_within response.body value (Option.mem_toList.mp found)
    exact member_supplements (by decide)
      (Json.holds_mono (fun _ _ => trivial) (fun _ fits => fits) value read)

theorem port_supplements {port : Nat} (small : port ≤ maxPort) :
    Supplements (member "port" (.nat port)) :=
  member_supplements (by decide) ((Json.wholesFit_nat port).mpr (small.trans_lt (by decide)))

namespace Command

/-! Commands that only look. -/

theorem status_answers (params : Json.Members) (state : Orchestrator) (registry : state.Bounded) :
    Answers (statusOutcome params state) := by
  refine (requiredPort_ends params).bind fun port small => .value _ ?_
  refine List.forall_mem_append.mpr ⟨?_, ?_⟩
  · refine List.forall_mem_cons.mpr ⟨port_supplements small, ?_⟩
    exact List.forall_mem_singleton.mpr (member_supplements (by decide) trivial)
  · exact serverMember_supplements _ fun server found => registry.get? found

theorem list_answers (state : Orchestrator) (registry : state.Bounded) :
    Answers (listOutcome state) := by
  have servers : (Json.arr (state.active.map Instance.toJson)).WholesFit := by
    rw [Json.wholesFit_arr, List.forall_mem_map]
    exact fun server found => server.toJson_fits (registry.active server found)
  exact .value _ (List.forall_mem_singleton.mpr (member_supplements (by decide) servers))

section Bounded

variable {limit : Nat} {params : Json.Members} (small : limit < Numeral.wordLimit)
  (read : (Json.obj params).Holds (Json.IsTextWithin limit) Json.Fits)
  (context : Context World) (bounded : context.Bounded)
include small read bounded

theorem validate_answers : Answers (validateOutcome context.fileAt params) := by
  refine (sourceParam_yields small read context bounded).bind fun source short => .value _ ?_
  exact List.forall_mem_singleton.mpr
    (member_supplements (by decide) (Notation.report_fits source short))

theorem parse_answers : Answers (parseOutcome context.fileAt params) := by
  refine (sourceParam_yields small read context bounded).bind fun source short => .value _ ?_
  exact List.forall_mem_singleton.mpr
    (member_supplements (by decide) (Notation.parsed_fits source short))

theorem generate_answers : Answers (generateOutcome context.fileAt params) := by
  refine (sourceParam_yields small read context bounded).bind fun source short => .value _ ?_
  have count := (Json.wholesFit_nat _).mpr ((Notation.endpoints_few source).trans_lt short)
  refine List.forall_mem_cons.mpr ⟨member_supplements (by decide) trivial, ?_⟩
  exact List.forall_mem_singleton.mpr (member_supplements (by decide) count)

end Bounded

/-! Commands that act leave a registry whose numbers are in range. -/

section Acting

variable (context : Context World) (bounded : context.Bounded) (state : Orchestrator)
  (registry : state.Bounded) (world : World)
include bounded registry

variable [Json.Dialect]

theorem performStart_answers (source : Bytes) (port : Option Nat)
    (small : ∀ given ∈ port, given ≤ maxPort) :
    Answers (performStart context source port state world).1 ∧
      (performStart context source port state world).2.1.Bounded := by
  obtain ⟨later, handed⟩ :=
    registry.start context.toSurroundings bounded.now source small world
  unfold performStart
  generalize state.start context.toSurroundings context.now source port world = result
    at later handed
  obtain ⟨error | port, after, world'⟩ := result
  · exact ⟨.refusal _ rfl, later⟩
  · refine ⟨.value _ ?_, later⟩
    refine List.forall_mem_cons.mpr ⟨port_supplements (handed port rfl), ?_⟩
    exact serverMember_supplements _ fun server found => later.get? found

omit bounded in
theorem performStop_answers (port : Nat) (small : port ≤ maxPort) :
    Answers (performStop context port state world).1 ∧
      (performStop context port state world).2.1.Bounded := by
  refine ⟨.value _ ?_, registry.stop context.toSurroundings port world⟩
  refine List.forall_mem_cons.mpr ⟨port_supplements small, ?_⟩
  exact List.forall_mem_singleton.mpr (member_supplements (by decide) trivial)

omit bounded in
theorem performStopAll_answers :
    Answers (performStopAll context state world).1 ∧
      (performStopAll context state world).2.1.Bounded := by
  refine ⟨.value _ ?_, registry.stopAll context.toSurroundings world⟩
  have count := (Json.wholesFit_nat _).mpr registry.count
  exact List.forall_mem_singleton.mpr (member_supplements (by decide) count)

end Acting

theorem fetch_status [Json.Dialect] (context : Context World) (bounded : context.Bounded)
    (state : Orchestrator) (request : Request) (world after : World) (response : Response)
    (fetched : state.fetch context.toSurroundings context.now request world = (.ok response, after)) :
    Json.Fits response.status := by
  unfold Orchestrator.fetch Preview.fetch at fetched
  split at fetched
  · split at fetched
    · rename_i simulated
      cases fetched
      obtain ⟨body, _, rfl⟩ := Option.map_eq_some_iff.mp simulated
      exact (Json.wholesFit_nat 200).mpr (by decide)
    · cases fetched
  · rename_i transport _
    cases sent : context.send transport request world with
    | mk answer later =>
        rw [sent] at fetched
        cases answer with
        | error error => cases fetched
        | ok own =>
            cases fetched
            exact bounded.statuses transport request world response after sent

theorem performFetch_answers [Json.Dialect] (context : Context World) (bounded : context.Bounded)
    (request : Request) (state : Orchestrator) (world : World) :
    Answers (performFetch context request state world).1 := by
  unfold performFetch
  generalize fetched : state.fetch context.toSurroundings context.now request world = result
  obtain ⟨error | response, after⟩ := result
  · cases error <;> exact .refusal _ rfl
  · have status := fetch_status context bounded state request world after response fetched
    exact .value _ (responseMembers_supplements response status)

/-! Every command. -/

theorem withParams_answers {α : Type} {kind : α → Prop} {params : Except CommandError α}
    (yields : Yields kind params) (state : Orchestrator) (registry : state.Bounded) (world : World)
    (act : α → Outcome × Orchestrator × World)
    (each : ∀ value, kind value → Answers (act value).1 ∧ (act value).2.1.Bounded) :
    Answers (withParams params state world act).1 ∧
      (withParams params state world act).2.1.Bounded := by
  cases yields with
  | value value own => exact each value own
  | refusal error calm => exact ⟨.refusal error calm, registry⟩
  | interruption error valid => exact ⟨.interruption error valid, registry⟩

theorem perform_answers [Json.Dialect] (context : Context World) (bounded : context.Bounded)
    (command : Command) {limit : Nat} {params : Json.Members} (small : limit < Numeral.wordLimit)
    (read : (Json.obj params).Holds (Json.IsTextWithin limit) Json.Fits) (state : Orchestrator)
    (registry : state.Bounded) (world : World) :
    Answers (command.perform context params state world).1 ∧
      (command.perform context params state world).2.1.Bounded := by
  cases command with
  | start =>
      refine withParams_answers (startParams_yields small read context bounded) state registry world
        _ fun (source, port) inRange => ?_
      exact performStart_answers context bounded state registry world source port inRange
  | stop =>
      refine withParams_answers (requiredPort_ends params) state registry world _
        fun port inRange => ?_
      exact performStop_answers context state registry world port inRange
  | stopAll => exact performStopAll_answers context state registry world
  | status => exact ⟨status_answers params state registry, registry⟩
  | list => exact ⟨list_answers state registry, registry⟩
  | validate => exact ⟨validate_answers small read context bounded, registry⟩
  | parse => exact ⟨parse_answers small read context bounded, registry⟩
  | generate => exact ⟨generate_answers small read context bounded, registry⟩
  | fetch =>
      refine withParams_answers (requestParam_yields params) state registry world _
        fun request _ => ?_
      exact ⟨performFetch_answers context bounded request state world, registry⟩

/-- Whatever is dispatched, the answer is a verdict with members that leave it alone. -/
theorem dispatch_answers [Json.Dialect] (context : Context World) (bounded : context.Bounded)
    (name : Bytes) {limit : Nat} {params : Json} (small : limit < Numeral.wordLimit)
    (read : params.Holds (Json.IsTextWithin limit) Json.Fits) (state : Orchestrator)
    (registry : state.Bounded) (world : World) :
    Answers (dispatch context name params state world).1 ∧
      (dispatch context name params state world).2.1.Bounded := by
  unfold dispatch
  split
  · split
    · rename_i command _
      exact command.perform_answers context bounded small read state registry world
    · exact ⟨.refusal _ rfl, registry⟩
  · exact ⟨.refusal _ rfl, registry⟩

end Command
end EndpointPreview.Control
