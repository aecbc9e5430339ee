import EndpointPreview.Proofs.StartReplies
import EndpointPreview.StrictFormats

/-!
What is reported of a source in UTF-8. Where the reading of a decorator stops at a character beyond
ASCII, the report quotes the first byte of it alone. Such a report is the only text of a parse that
is not of whole characters, and the answers to the commands that parse and validate have a JSON text
exactly when there is none.
-/

namespace EndpointPreview.Utf8

open Text

theorem isValid_between (before text after : Bytes) (front : Plain before) (back : Plain after) :
    isValid (before ++ text ++ after) = isValid text := by
  rw [Bool.eq_iff_iff]
  constructor
  · intro valid
    have cut := run_plain_end _ _ after back ((isValid_iff _).mp valid)
    rw [← isValid_plain_append before text front]
    exact (isValid_iff _).mpr cut
  · intro valid
    refine isValid_append _ after ?_ (isValid_plain after back)
    rwa [isValid_plain_append before text front]

def isFragment : Bytes → Bool
  | [b] => !decide (b ≤ 0x7F)
  | _ => false

theorem isFragment_invalid (text : Bytes) (fragment : isFragment text = true) :
    isValid text = false := by
  unfold isFragment at fragment
  split at fragment
  · rename_i b
    have high : ¬ b ≤ 0x7F := by simpa using fragment
    have lead_high : lead b ≠ some .boundary := by
      unfold lead
      split_ifs <;> decide
    rw [Bool.eq_false_iff]
    intro valid
    obtain ⟨next, stepped, rest⟩ := run_cons _ _ b [] ((isValid_iff [b]).mp valid)
    cases rest
    exact lead_high stepped
  · cases fragment

end EndpointPreview.Utf8

namespace EndpointPreview.Notation

open Text Utf8

-- Why a decorator among these tokens was not read; a report quotes one of them.
inductive StopsAt (tokens : TokenRest) : DecoratorError → Prop where
  | openString : StopsAt tokens .openString
  | ended {wanted : Bytes} (plain : Plain wanted) : StopsAt tokens (.ended wanted)
  | unexpected {wanted : Bytes} (rest : TokenRest) (plain : Plain wanted) (back : rest <:+ tokens) :
      StopsAt tokens (.unexpected wanted (nextText rest))
  | emptyRoute : StopsAt tokens .emptyRoute
  | severalMethods : StopsAt tokens .severalMethods
  | emptyMethod : StopsAt tokens .emptyMethod
  | trailing (rest : TokenRest) (back : rest <:+ tokens) : StopsAt tokens (.trailing (nextText rest))

section Stops

variable {tokens : TokenRest} {error : DecoratorError}

theorem StopsAt.of_suffix {rest : TokenRest} (stops : StopsAt rest error) (back : rest <:+ tokens) :
    StopsAt tokens error := by
  cases stops with
  | openString => exact .openString
  | ended plain => exact .ended plain
  | unexpected later plain inside => exact .unexpected later plain (inside.trans back)
  | emptyRoute => exact .emptyRoute
  | severalMethods => exact .severalMethods
  | emptyMethod => exact .emptyMethod
  | trailing later inside => exact .trailing later (inside.trans back)

theorem StopsAt.later (stops : StopsAt (tokens.drop 1) error) : StopsAt tokens error :=
  stops.of_suffix (List.drop_suffix 1 tokens)

theorem mismatch_stops (wanted : Bytes) (plain : Plain wanted) :
    StopsAt tokens (mismatch wanted tokens) := by
  unfold mismatch
  split
  · exact .ended plain
  · exact .unexpected tokens plain List.suffix_rfl

/-- Taking a token stops here, or what comes after it stops later. -/
theorem takeKind_stops {Read : Type} {kind : TokenKind} {wanted : String}
    {next : Bytes × TokenRest → Except DecoratorError Read} (plain : Plain (ascii wanted))
    (failed : (takeKind kind wanted tokens >>= next) = .error error)
    (later : next (nextText tokens, tokens.drop 1) = .error error →
      StopsAt (tokens.drop 1) error) : StopsAt tokens error := by
  unfold takeKind at failed
  split at failed
  · exact (later failed).later
  · split at failed
    · cases failed
      exact .openString
    · cases failed
      exact mismatch_stops _ plain

theorem takeName_stops {Read : Type} {name : String}
    {next : TokenRest → Except DecoratorError Read} (plain : Plain (ascii name))
    (failed : (takeName name tokens >>= next) = .error error)
    (later : next (tokens.drop 1) = .error error → StopsAt (tokens.drop 1) error) :
    StopsAt tokens error := by
  unfold takeName at failed
  split at failed
  · exact (later failed).later
  · cases failed
    refine mismatch_stops _ ?_
    rw [Plain.append_iff, Plain.append_iff]
    exact ⟨⟨by decide, plain⟩, by decide⟩

theorem takeMethod_stops (failed : takeMethod tokens = .error error) : StopsAt tokens error := by
  unfold takeMethod at failed
  refine takeName_stops (by decide) failed fun failed => ?_
  refine takeKind_stops (by decide) failed fun failed => ?_
  refine takeKind_stops (by decide) failed fun failed => ?_
  refine takeKind_stops (by decide) failed fun failed => ?_
  dsimp only at failed
  split at failed
  · cases failed
    exact .severalMethods
  · refine takeKind_stops (by decide) failed fun failed => ?_
    dsimp only at failed
    split at failed
    · cases failed
      exact .emptyMethod
    · cases failed

theorem takeMethodPart_stops (failed : takeMethodPart tokens = .error error) :
    StopsAt tokens error := by
  unfold takeMethodPart at failed
  split at failed
  · exact (takeMethod_stops failed).later
  · cases failed

theorem ofTokens_stops (spelled : SpelledTokens tokens)
    (failed : Decorator.ofTokens tokens = .error error) : StopsAt tokens error := by
  unfold Decorator.ofTokens at failed
  refine takeKind_stops (by decide) failed fun failed => ?_
  refine takeName_stops (by decide) failed fun failed => ?_
  refine takeKind_stops (by decide) failed fun failed => ?_
  refine takeKind_stops (by decide) failed fun failed => ?_
  dsimp only at failed
  split at failed
  · cases failed
    exact .emptyRoute
  · rcases bind_error failed with stopped | ⟨⟨method, rest⟩, part, failed⟩
    · exact takeMethodPart_stops stopped
    · obtain ⟨_, _, opens⟩ := takeMethodPart_ok ((((spelled.drop 1).drop 1).drop 1).drop 1) part
      refine StopsAt.of_suffix ?_ opens.suffix
      refine takeKind_stops (by decide) failed fun failed => ?_
      dsimp only at failed
      split at failed
      · cases failed
        exact .trailing _ List.suffix_rfl
      · cases failed

end Stops

-- The token that the report repeats is one byte of a character that has several.
def DecoratorError.quotesFragment : DecoratorError → Bool
  | unexpected _ found => isFragment found
  | trailing found => isFragment found
  | _ => false

def DiagnosticCause.quotesFragment : DiagnosticCause → Bool
  | unrecognized error => error.quotesFragment
  | _ => false

theorem nextText_valid (rest tokens : TokenRest) (back : rest <:+ tokens)
    (words : ∀ token ∈ tokens, WordText token.word) :
    isValid (nextText rest) = !isFragment (nextText rest) := by
  cases rest with
  | nil => rfl
  | cons token later =>
      have own : WordText (token.kind, token.text) := words token (back.subset List.mem_cons_self)
      change isValid token.text = !isFragment token.text
      generalize token.kind = kind at own
      generalize token.text = text at own
      cases own with
      | whole valid =>
          cases fragment : isFragment text with
          | true => exact absurd valid (by simp [isFragment_invalid text fragment])
          | false => exact valid
      | fragment b high =>
          have fragment : isFragment [b] = true := by simpa [isFragment] using high
          rw [isFragment_invalid [b] fragment, fragment]
          rfl

theorem StopsAt.message_valid {tokens : TokenRest} {error : DecoratorError}
    (stops : StopsAt tokens error) (words : ∀ token ∈ tokens, WordText token.word) :
    isValid error.message = !error.quotesFragment := by
  cases stops with
  | openString => decide
  | ended plain =>
      refine isValid_plain _ ?_
      simp only [DecoratorError.message, Plain.append_iff]
      exact ⟨⟨by decide, plain⟩, by decide⟩
  | unexpected rest plain back =>
      have front : Plain (ascii "expected " ++ _ ++ ascii " but found '") :=
        (Plain.append_iff _ _).mpr ⟨(Plain.append_iff _ _).mpr ⟨by decide, plain⟩, by decide⟩
      exact (isValid_between _ _ _ front (by decide)).trans (nextText_valid rest tokens back words)
  | emptyRoute => decide
  | severalMethods => decide
  | emptyMethod => decide
  | trailing rest back =>
      exact (isValid_between _ _ _ (by decide) (by decide)).trans
        (nextText_valid rest tokens back words)

/-- The byte that a report quotes is a token of the row. -/
theorem StopsAt.fragment {tokens : TokenRest} {error : DecoratorError}
    (stops : StopsAt tokens error) (quotes : error.quotesFragment = true) :
    ∃ token ∈ tokens, isFragment token.text = true := by
  have next (rest : TokenRest) (back : rest <:+ tokens)
      (fragment : isFragment (nextText rest) = true) :
      ∃ token ∈ tokens, isFragment token.text = true := by
    cases rest with
    | nil => cases fragment
    | cons token later => exact ⟨token, back.subset List.mem_cons_self, fragment⟩
  cases stops with
  | unexpected rest plain back => exact next rest back quotes
  | trailing rest back => exact next rest back quotes
  | openString | ended | emptyRoute | severalMethods | emptyMethod => cases quotes

section Source

variable {source : Bytes}

theorem row_text (valid : isValid source = true) (row : Bytes) (member : row ∈ lines source) :
    ∀ token ∈ (scanTokens (trim row)).tokens, WordText token.word :=
  scanTokens_text _ (EndsWhole.of_valid (isValid_lines source valid row member)).trim

theorem diagnostic_finding (diagnostic : Diagnostic)
    (member : diagnostic ∈ (parse source).diagnostics) :
    .diagnostic diagnostic ∈ findings source := by
  obtain ⟨finding, inside, same⟩ := List.mem_filterMap.mp member
  cases finding with
  | diagnostic found =>
      cases same
      exact inside
  | endpoint => cases same
  | helper => cases same

theorem message_valid (valid : isValid source = true) (diagnostic : Diagnostic)
    (member : diagnostic ∈ (parse source).diagnostics) :
    isValid diagnostic.message = !diagnostic.cause.quotesFragment := by
  cases findings_whole source valid _ (diagnostic_finding diagnostic member) with
  | @dropped line route reason route_valid =>
      have plain : Plain (ascii "') ignored: " ++ reason.message) := by
        cases reason <;> decide
      have message : DiagnosticCause.message (.dropped route reason) =
          ascii "@endpoint('" ++ route ++ (ascii "') ignored: " ++ reason.message) :=
        List.append_assoc _ _ _
      change isValid (DiagnosticCause.message (.dropped route reason)) = true
      rw [message, isValid_between _ _ _ (by decide) plain, route_valid]
  | unrecognized inside marked read =>
      refine (isValid_plain_append _ _ (by decide)).trans ?_
      exact (ofTokens_stops (scan_spelled _) read).message_valid (row_text valid _ inside)
  | malformed plain => exact isValid_plain _ plain

/-- A report quotes part of a character only on a marked row that has one outside strings. -/
theorem fragment_row (valid : isValid source = true) (diagnostic : Diagnostic)
    (member : diagnostic ∈ (parse source).diagnostics)
    (quotes : diagnostic.cause.quotesFragment = true) :
    ∃ row ∈ lines source, startsWithMarker (trim row) = true ∧
      ∃ token ∈ (scanTokens (trim row)).tokens, isFragment token.text = true := by
  cases findings_whole source valid _ (diagnostic_finding diagnostic member) with
  | dropped => cases quotes
  | malformed => cases quotes
  | unrecognized inside marked read =>
      exact ⟨_, inside, marked, (ofTokens_stops (scan_spelled _) read).fragment quotes⟩

theorem marked_row (row : Bytes) (member : row ∈ lines source)
    (marked : startsWithMarker (trim row) = true) : hasMarker source = true := by
  have starts := (Bool.and_eq_true_iff.mp marked).1
  have inside := (List.isPrefixOf_iff_prefix.mp starts).isInfix.trans (trim_inside row)
  exact (contains_iff _ _).mpr (inside.trans (lines_inside source row member))

end Source

theorem Parameter.toJson_isText (parameter : Parameter)
    (texts : ∀ text ∈ parameter.texts, isValid text = true) : parameter.toJson.isText = true := by
  obtain ⟨name, others⟩ := List.forall_mem_cons.mp texts
  obtain ⟨default, typed⟩ := List.forall_mem_append.mp others
  have written (text? : Option Bytes) (valid : ∀ text ∈ text?.toList, isValid text = true) :
      (Json.ofOption .str text?).isText = true := by
    cases text? with
    | none => rfl
    | some text => exact valid text List.mem_cons_self
  have kind : isValid parameter.kind.name = true := by cases parameter.kind <;> decide
  refine Json.isText_object _ ?_
  simp only [List.forall_mem_cons]
  exact ⟨⟨by decide, name⟩, ⟨by decide, kind⟩, ⟨by decide, rfl⟩,
    ⟨by decide, written _ default⟩, ⟨by decide, written _ typed⟩,
    fun _ member => absurd member List.not_mem_nil⟩

theorem Parameter.listToJson_isText (parameters : List Parameter)
    (texts : ∀ text ∈ parameters.flatMap texts, isValid text = true) :
    (listToJson parameters).isText = true := by
  refine (Json.areText_iff _).mpr (List.forall_mem_map.mpr fun parameter member => ?_)
  exact parameter.toJson_isText fun text own => texts text (List.mem_flatMap.mpr ⟨_, member, own⟩)

theorem Helper.toJson_isText (helper : Helper)
    (texts : ∀ text ∈ helper.texts, isValid text = true) : helper.toJson.isText = true := by
  obtain ⟨name, others⟩ := List.forall_mem_cons.mp texts
  obtain ⟨body, parameters⟩ := List.forall_mem_cons.mp others
  refine Json.isText_object _ ?_
  simp only [List.forall_mem_cons]
  exact ⟨⟨by decide, name⟩, ⟨by decide, Parameter.listToJson_isText _ parameters⟩,
    ⟨by decide, body⟩, ⟨by decide, rfl⟩, fun _ member => absurd member List.not_mem_nil⟩

theorem Endpoint.toJson_isText (endpoint : Endpoint)
    (texts : ∀ text ∈ endpoint.texts, isValid text = true) : endpoint.toJson.isText = true := by
  obtain ⟨route, others⟩ := List.forall_mem_cons.mp texts
  obtain ⟨method, others⟩ := List.forall_mem_cons.mp others
  obtain ⟨name, others⟩ := List.forall_mem_cons.mp (List.forall_mem_cons.mp others).2
  obtain ⟨body, parameters⟩ := List.forall_mem_cons.mp others
  have methods : (Json.arr [.str endpoint.method]).isText = true := by
    simpa [Json.isText, Json.areText] using method
  refine Json.isText_object _ ?_
  simp only [Endpoint.members, List.forall_mem_cons]
  exact ⟨⟨by decide, name⟩, ⟨by decide, route⟩, ⟨by decide, methods⟩,
    ⟨by decide, Parameter.listToJson_isText _ parameters⟩, ⟨by decide, body⟩, ⟨by decide, rfl⟩,
    fun _ member => absurd member List.not_mem_nil⟩

theorem Diagnostic.toJson_isText (diagnostic : Diagnostic) :
    diagnostic.toJson.isText = isValid diagnostic.message := by
  have members : diagnostic.toJson =
      .obj [(ascii "line", .nat diagnostic.line), (ascii "message", .str diagnostic.message)] := rfl
  have keys : isValid (ascii "line") = true ∧ isValid (ascii "message") = true := by decide
  simp [members, Json.isText, Json.membersAreText, Json.nat, keys]

/-- A parse has a JSON text when its reports are of whole characters, and only then. -/
theorem ParsedSource.toJson_isText (parsed : ParsedSource)
    (endpoints : ∀ endpoint ∈ parsed.endpoints, ∀ text ∈ endpoint.texts, isValid text = true)
    (helpers : ∀ helper ∈ parsed.helpers, ∀ text ∈ helper.texts, isValid text = true) :
    parsed.toJson.isText = true ↔
      ∀ diagnostic ∈ parsed.diagnostics, isValid diagnostic.message = true := by
  have members : parsed.toJson =
      .obj [(ascii "diagnostics", .arr (parsed.diagnostics.map Diagnostic.toJson)),
        (ascii "endpoints", .arr (parsed.endpoints.map Endpoint.toJson)),
        (ascii "helperRoutines", .arr (parsed.helpers.map Helper.toJson))] := rfl
  have keys : ∀ key ∈ ["diagnostics", "endpoints", "helperRoutines"],
      isValid (ascii key) = true := by decide
  have endpoint_texts : Json.areText (parsed.endpoints.map Endpoint.toJson) = true :=
    (Json.areText_iff _).mpr (List.forall_mem_map.mpr fun endpoint member =>
      endpoint.toJson_isText (endpoints endpoint member))
  have helper_texts : Json.areText (parsed.helpers.map Helper.toJson) = true :=
    (Json.areText_iff _).mpr (List.forall_mem_map.mpr fun helper member =>
      helper.toJson_isText (helpers helper member))
  have reports : Json.areText (parsed.diagnostics.map Diagnostic.toJson) = true ↔
      ∀ diagnostic ∈ parsed.diagnostics, isValid diagnostic.message = true := by
    rw [Json.areText_iff, List.forall_mem_map]
    simp only [Diagnostic.toJson_isText]
  simp only [List.forall_mem_cons] at keys
  rw [members, Json.isText]
  simp only [Json.membersAreText, Json.isText, Bool.and_eq_true, keys, endpoint_texts,
    helper_texts, reports, true_and, and_true]

theorem variadicErrors_text (name : Bytes) (parameters : List Parameter)
    (valid : isValid name = true) : ∀ error ∈ variadicErrors name parameters,
      isValid error = true := by
  have told (after : Bytes) (plain : Plain after) :
      isValid (ascii "Function '" ++ name ++ after) = true :=
    (isValid_between _ _ _ (by decide) plain).trans valid
  intro error member
  rcases List.mem_append.mp member with positional | keyword
  · split at positional
    · rw [List.mem_singleton.mp positional]
      exact told _ (by decide)
    · cases positional
  · split at keyword
    · rw [List.mem_singleton.mp keyword]
      exact told _ (by decide)
    · cases keyword

theorem ownErrors_text (seen : List Bytes) (endpoint : Endpoint)
    (texts : ∀ text ∈ endpoint.texts, isValid text = true) :
    ∀ error ∈ duplicateErrors seen endpoint ++ routeErrors endpoint ++
      variadicErrors endpoint.name endpoint.parameters, isValid error = true := by
  have name : isValid endpoint.name = true :=
    texts _ (by simp [Endpoint.texts, Helper.texts, Endpoint.routine])
  have route : isValid endpoint.route = true := texts _ List.mem_cons_self
  refine List.forall_mem_append.mpr ⟨List.forall_mem_append.mpr ⟨?_, ?_⟩,
    variadicErrors_text _ _ name⟩
  · intro error member
    unfold duplicateErrors at member
    split at member
    · rw [List.mem_singleton.mp member, isValid_plain_append _ _ (by decide), name]
    · cases member
  · intro error member
    unfold routeErrors at member
    split at member
    · cases member
    · rw [List.mem_singleton.mp member, isValid_between _ _ _ (by decide) (by decide), route]

theorem endpointErrors_text (seen : List Bytes) (endpoints : List Endpoint)
    (texts : ∀ endpoint ∈ endpoints, ∀ text ∈ endpoint.texts, isValid text = true) :
    ∀ error ∈ endpointErrors seen endpoints, isValid error = true := by
  induction endpoints generalizing seen with
  | nil => exact fun _ member => absurd member List.not_mem_nil
  | cons endpoint rest ih =>
      obtain ⟨own, others⟩ := List.forall_mem_cons.mp texts
      exact List.forall_mem_append.mpr ⟨ownErrors_text seen endpoint own, ih _ others⟩

theorem methodWarnings_text (endpoint : Endpoint)
    (texts : ∀ text ∈ endpoint.texts, isValid text = true) :
    ∀ warning ∈ methodWarnings endpoint, isValid warning = true := by
  have name : isValid endpoint.name = true :=
    texts _ (by simp [Endpoint.texts, Helper.texts, Endpoint.routine])
  have method : isValid endpoint.method = true := texts _ (by simp [Endpoint.texts])
  intro warning member
  unfold methodWarnings at member
  split at member
  · cases member
  · rw [List.mem_singleton.mp member]
    refine isValid_append _ _ (isValid_append _ _ (isValid_append _ _ ?_ (by decide)) method)
      (by decide)
    rwa [isValid_plain_append _ _ (by decide)]

theorem diagnosticWarning_valid (diagnostic : Diagnostic) :
    isValid (diagnosticWarning diagnostic) = isValid diagnostic.message := by
  refine isValid_plain_append _ _ ?_
  simp only [Plain.append_iff]
  exact ⟨⟨by decide, .decimal diagnostic.line⟩, by decide⟩

theorem report_isText (report : ValidationReport) :
    report.toJson.isText = true ↔ (∀ error ∈ report.errors, isValid error = true) ∧
      report.parsed.toJson.isText = true ∧ ∀ warning ∈ report.warnings, isValid warning = true := by
  have members : report.toJson =
      .obj [(ascii "errors", .arr (report.errors.map .str)),
        (ascii "isValid", .bool report.isValid), (ascii "parsed", report.parsed.toJson),
        (ascii "warnings", .arr (report.warnings.map .str))] := rfl
  have keys : ∀ key ∈ ["errors", "isValid", "parsed", "warnings"],
      isValid (ascii key) = true := by decide
  have strings (texts : List Bytes) : Json.areText (texts.map .str) = true ↔
      ∀ text ∈ texts, isValid text = true := by
    rw [Json.areText_iff, List.forall_mem_map]
    rfl
  simp only [List.forall_mem_cons] at keys
  rw [members, Json.isText]
  simp only [Json.membersAreText, Json.isText, Bool.and_eq_true, keys, strings, true_and, and_true]

theorem checkParsed_isText (parsed : ParsedSource)
    (endpoints : ∀ endpoint ∈ parsed.endpoints, ∀ text ∈ endpoint.texts, isValid text = true)
    (helpers : ∀ helper ∈ parsed.helpers, ∀ text ∈ helper.texts, isValid text = true) :
    (checkParsed parsed).toJson.isText = true ↔
      ∀ diagnostic ∈ parsed.diagnostics, isValid diagnostic.message = true := by
  have errors : ∀ error ∈ (checkParsed parsed).errors, isValid error = true := by
    refine List.forall_mem_append.mpr ⟨endpointErrors_text [] _ endpoints, ?_⟩
    intro error member
    obtain ⟨helper, listed, own⟩ := List.mem_flatMap.mp member
    exact variadicErrors_text _ _ (helpers helper listed _ List.mem_cons_self) error own
  have methods : ∀ warning ∈ parsed.endpoints.flatMap methodWarnings, isValid warning = true := by
    intro warning member
    obtain ⟨endpoint, listed, own⟩ := List.mem_flatMap.mp member
    exact methodWarnings_text endpoint (endpoints endpoint listed) warning own
  have empty : ∀ warning ∈ emptyWarnings parsed, isValid warning = true := by
    unfold emptyWarnings
    split <;> decide
  have warnings : (∀ warning ∈ (checkParsed parsed).warnings, isValid warning = true) ↔
      ∀ diagnostic ∈ parsed.diagnostics, isValid diagnostic.message = true := by
    change (∀ warning ∈ emptyWarnings parsed ++ _ ++ _, isValid warning = true) ↔ _
    simp only [List.forall_mem_append, List.forall_mem_map, diagnosticWarning_valid]
    exact ⟨fun all => all.2, fun reports => ⟨⟨empty, methods⟩, reports⟩⟩
  rw [report_isText, warnings]
  change _ ∧ parsed.toJson.isText = true ∧ _ ↔ _
  rw [parsed.toJson_isText endpoints helpers]
  exact ⟨fun all => all.2.1, fun reports => ⟨errors, reports, reports⟩⟩

theorem validateConventional_isText (source : Bytes) :
    (validateConventional source).toJson.isText = true := by
  have complaint (present : Bool) (text : String) (plain : Plain (ascii text)) :
      ∀ error ∈ complainUnless present text, isValid error = true := by
    intro error member
    unfold complainUnless at member
    split at member
    · cases member
    · rw [List.mem_singleton.mp member]
      exact isValid_plain _ plain
  refine (report_isText _).mpr
    ⟨?_, (by decide : ParsedSource.empty.toJson.isText = true), ?_⟩
  · exact List.forall_mem_append.mpr
      ⟨complaint _ _ (by decide), complaint _ _ (by decide)⟩
  · exact List.forall_mem_append.mpr
      ⟨complaint _ _ (by decide), complaint _ _ (by decide)⟩

theorem parse_isText (source : Bytes) (valid : isValid source = true) :
    (parse source).toJson.isText = true ↔
      ∀ diagnostic ∈ (parse source).diagnostics, diagnostic.cause.quotesFragment = false := by
  rw [ParsedSource.toJson_isText _ (endpoint_texts source valid) (helper_texts source valid)]
  refine forall₂_congr fun diagnostic member => ?_
  rw [message_valid valid diagnostic member, Bool.not_eq_true']

theorem validate_isText (source : Bytes) (valid : isValid source = true) :
    (validate source).toJson.isText = true ↔
      ∀ diagnostic ∈ (parse source).diagnostics, diagnostic.cause.quotesFragment = false := by
  unfold validate
  split
  · rw [← parse_isText source valid]
    unfold validateNotation
    rw [checkParsed_isText _ (endpoint_texts source valid) (helper_texts source valid),
      ParsedSource.toJson_isText _ (endpoint_texts source valid) (helper_texts source valid)]
  · rename_i unmarked
    refine iff_of_true (validateConventional_isText source) fun diagnostic member => ?_
    rw [Bool.eq_false_iff]
    intro quotes
    obtain ⟨row, inside, marked, _⟩ := fragment_row valid diagnostic member quotes
    exact unmarked (marked_row row inside marked)

end EndpointPreview.Notation

namespace EndpointPreview.Control.Command

open Text Utf8 Notation

variable (fileAt : Bytes → FileRead) (params : Json.Members)

theorem sourceAnswer_text [Json.Dialect] (source : Bytes)
    (given : sourceParam fileAt params = .ok source)
    (name : String) (told : Bytes → Json) (key : isValid (ascii name) = true)
    (answer : answerJson (.ok [member name (told source)]) =
      .obj [(ascii "ok", .bool true), (ascii name, told source)]) :
    (answerJson (do
      let source ← sourceParam fileAt params
      return [member name (told source)])).render?.isSome = (told source).isText := by
  have okKey : isValid (ascii "ok") = true := by decide
  have text : (answerJson (.ok [member name (told source)])).isText = (told source).isText := by
    simp [answer, Json.isText, Json.membersAreText, okKey, key]
  rw [given]
  change (answerJson (.ok [member name (told source)])).render?.isSome = _
  unfold Json.render?
  rw [text]
  cases (told source).isText <;> rfl

-- What is read from a source of whole characters, and what can be told of it.
structure KeepsText [Json.Dialect] (source : Bytes) : Prop where
  endpoints : ∀ endpoint ∈ (Notation.parse source).endpoints, ∀ text ∈ endpoint.texts,
    isValid text = true
  helpers : ∀ helper ∈ (Notation.parse source).helpers, ∀ text ∈ helper.texts, isValid text = true
  messages : ∀ diagnostic ∈ (Notation.parse source).diagnostics,
    isValid diagnostic.message = !diagnostic.cause.quotesFragment
  fragments : ∀ diagnostic ∈ (Notation.parse source).diagnostics,
    diagnostic.cause.quotesFragment = true →
      ∃ row ∈ lines source, startsWithMarker (trim row) = true ∧
        ∃ token ∈ (scanTokens (trim row)).tokens, isFragment token.text = true
  parsed : ∀ fileAt params, sourceParam fileAt params = .ok source →
    ((answerJson (parseOutcome fileAt params)).render?.isSome = true ↔
      ∀ diagnostic ∈ (Notation.parse source).diagnostics, diagnostic.cause.quotesFragment = false)
  validated : ∀ fileAt params, sourceParam fileAt params = .ok source →
    ((answerJson (validateOutcome fileAt params)).render?.isSome = true ↔
      ∀ diagnostic ∈ (Notation.parse source).diagnostics, diagnostic.cause.quotesFragment = false)

theorem source_keeps_text [Json.Dialect] (source : Bytes) (valid : isValid source = true) :
    KeepsText source where
  endpoints := endpoint_texts source valid
  helpers := helper_texts source valid
  messages := message_valid valid
  fragments := fragment_row valid
  parsed := fun fileAt params given => by
    unfold parseOutcome
    rw [sourceAnswer_text fileAt params source given "parsed" _ (by decide) rfl]
    exact parse_isText source valid
  validated := fun fileAt params given => by
    unfold validateOutcome
    rw [sourceAnswer_text fileAt params source given "report" _ (by decide) rfl]
    exact validate_isText source valid

/-- A decorator whose route stands between typographic quotes, and an endpoint with accents. -/
def typographicSource : Bytes :=
  ascii "@endpoint(" ++ encode 0x201C ++ ascii "/a" ++ encode 0x201D ++ ascii ")\n@endpoint('/" ++
    encode 0xE9 ++ ascii "')\ndef f(x: '" ++ encode 0xFC ++ ascii "' = '" ++ encode 0x1F600 ++
    ascii "'): return '" ++ encode 0xE9 ++ ascii "'\n"

section Strict

attribute [local instance] Json.strict

theorem source_keeps_text_typographic :
    isValid typographicSource = true ∧ (Notation.parse typographicSource).endpoints.length = 1 ∧
      KeepsText typographicSource := by
  have valid : isValid typographicSource = true := by decide +kernel
  have found : (Notation.parse typographicSource).endpoints.length = 1 := by decide +kernel
  exact ⟨valid, found, source_keeps_text typographicSource valid⟩

/-- The report on such a decorator is not of whole characters, and no answer can tell of it. -/
theorem typographic_quotes_untold :
    ∃ source fileAt params, isValid source = true ∧ sourceParam fileAt params = .ok source ∧
      (∃ diagnostic ∈ (Notation.parse source).diagnostics, isValid diagnostic.message = false) ∧
      (answerJson (parseOutcome fileAt params)).render? = none ∧
      (answerJson (validateOutcome fileAt params)).render? = none := by
  have reported : (Notation.parse typographicSource).diagnostics.any
      (fun diagnostic => !isValid diagnostic.message) = true := by decide +kernel
  obtain ⟨diagnostic, member, invalid⟩ := List.any_eq_true.mp reported
  exact ⟨typographicSource, fun _ => .missing, [(ascii "source", .str typographicSource)],
    by decide +kernel, by decide +kernel, ⟨diagnostic, member, by simpa using invalid⟩,
    by decide +kernel, by decide +kernel⟩

end Strict

end EndpointPreview.Control.Command
