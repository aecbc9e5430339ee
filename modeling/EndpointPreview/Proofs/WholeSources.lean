import EndpointPreview.Proofs.DecoratorGrammar
import EndpointPreview.Proofs.FunctionBlocks
import EndpointPreview.Proofs.ParameterTexts
import EndpointPreview.Proofs.WholeLiterals

/-!
What is found in a source in UTF-8. Routes and methods are strings of its rows, names are plain,
and parameters, bodies and the statements behind headers are cut from it beside ASCII bytes, so all
of them are of whole characters, and the literals that endpoints return have JSON texts.
-/

namespace EndpointPreview.Notation

open Text Utf8

theorem decorator_whole (line : Bytes) (ends : EndsWhole line) (decorator : Decorator)
    (read : Decorator.ofLine line = .ok decorator) :
    isValid decorator.route = true ∧ isValid decorator.method = true := by
  have whole := scanTokens_whole line ends
  obtain ⟨written, rest, grammar, opens, _⟩ := ofTokens_ok (scan_spelled line) read
  have string {text : Bytes} (member : (TokenKind.string, text) ∈ written) :
      isValid text = true := by
    obtain ⟨token, inside, own⟩ := opens.word_mem member
    have valid := whole token inside
    rw [own] at valid
    exact valid rfl
  obtain ⟨routed, methods⟩ := grammar
  refine ⟨string (by simp), ?_⟩
  cases methods with
  | absent => exact isValid_plain defaultMethod (by decide)
  | given named => exact string (by simp)

theorem closeList_whole (text : Bytes) (extraLines : Nat) (later : List Bytes)
    (closed : ClosedList) (closes : closeList? text extraLines later = some closed)
    (ends : EndsWhole text) (valid : ∀ row ∈ later, isValid row = true) :
    EndsWhole closed.text := by
  induction later generalizing text extraLines with
  | nil =>
      obtain ⟨_, _, rfl⟩ := Option.map_eq_some_iff.mp closes
      exact ends
  | cons row later ih =>
      obtain ⟨own, all⟩ := List.forall_mem_cons.mp valid
      unfold closeList? at closes
      split at closes
      · cases closes
        exact ends
      · exact ih _ _ closes (ends.append (isValid_append [newline] row (by decide) own)) all

theorem plain_name (name : Bytes) (word : name.all isWordByte = true) : Plain name := fun b member =>
  Plain.isWordByte_le b (List.all_eq_true.mp word b member)

/-- What a header is cut into is of whole characters. -/
theorem header_whole (line : Bytes) (later : List Bytes) (header : Header)
    (found : Header.read line later = .found header)
    (valid : ∀ row ∈ line :: later, isValid row = true) :
    isValid header.name = true ∧ isValid header.parameterText = true ∧
      isValid header.inlineBody = true := by
  obtain ⟨own, all⟩ := List.forall_mem_cons.mp valid
  obtain ⟨opened, closed, bracket, after, opens, closes, text, count, closing, shape⟩ :=
    header_parameterText line later header found
  obtain ⟨_, _, before, body, cut, _, inline_body⟩ := ofClosed_found _ _ _ shape
  have parts := openDefinition_some _ _ _ opens
  have line_whole : EndsWhole opened := (EndsWhole.of_valid own).trim.suffix parts.2.2.2
  have text_whole := closeList_whole opened 0 later closed closes line_whole all
  rw [text, ← List.singleton_append] at text_whole
  obtain ⟨parameters, ending⟩ := isValid_around _ after bracket (isClosing_le bracket closing)
    (text_whole.after_plain (by decide) (List.cons_ne_nil _ _))
  refine ⟨isValid_plain _ (plain_name _ parts.2.1), parameters, ?_⟩
  have rest : closed.ending.2 = after := by
    unfold ClosedList.ending
    dsimp only
    rw [text, count, List.drop_succ_cons, ← List.singleton_append, ← List.append_assoc]
    exact List.drop_left' (by simp)
  rw [rest] at cut
  have trimmed := isValid_trim after ending
  rw [cutAt_whole _ _ _ _ cut] at trimmed
  have body_valid := (isValid_around before body _ (by decide) trimmed).2
  rw [inline_body]
  unfold inlineAfter
  dsimp only
  split
  · rfl
  · exact isValid_trim body body_valid

theorem malformed_plain (line : Bytes) (later : List Bytes) (problem : HeaderProblem)
    (malformed : Header.read line later = .malformed problem) : Plain problem.message := by
  have told (name opened : Bytes) (opens : openDefinition? (trim line) = some (name, opened)) :
      Plain (HeaderProblem.neverClosed name).message ∧
        Plain (HeaderProblem.missingColon name).message := by
    have plain := plain_name name (openDefinition_some _ _ _ opens).2.1
    exact ⟨(Plain.append_iff _ _).mpr ⟨(Plain.append_iff _ _).mpr ⟨by decide, plain⟩, by decide⟩,
      (Plain.append_iff _ _).mpr ⟨(Plain.append_iff _ _).mpr ⟨by decide, plain⟩, by decide⟩⟩
  unfold Header.read at malformed
  split at malformed
  · cases malformed
  · rename_i name opened opens
    split at malformed
    · cases malformed
      exact (told name opened opens).1
    · unfold Header.ofClosed at malformed
      dsimp only at malformed
      split at malformed
      · split at malformed
        · cases malformed
        · cases malformed
          exact (told name opened opens).2
      · cases malformed
        exact (told name opened opens).2

def Helper.texts (helper : Helper) : List Bytes :=
  helper.name :: helper.body :: helper.parameters.flatMap Parameter.texts

def Endpoint.texts (endpoint : Endpoint) : List Bytes :=
  endpoint.route :: endpoint.method :: endpoint.inlineBody :: endpoint.routine.texts

-- The texts of a finding are of whole characters, or it reports a decorator of the source.
inductive Finding.Whole (source : Bytes) : Finding → Prop where
  | endpoint {endpoint : Endpoint} (texts : ∀ text ∈ endpoint.texts, isValid text = true) :
      Finding.Whole source (.endpoint endpoint)
  | helper {helper : Helper} (texts : ∀ text ∈ helper.texts, isValid text = true) :
      Finding.Whole source (.helper helper)
  | dropped {line : Nat} {route : Bytes} {reason : DropReason} (valid : isValid route = true) :
      Finding.Whole source (.diagnostic ⟨line, .dropped route reason⟩)
  | unrecognized {line : Nat} {row : Bytes} {error : DecoratorError} (member : row ∈ lines source)
      (marked : startsWithMarker (trim row) = true)
      (read : Decorator.ofLine (trim row) = .error error) :
      Finding.Whole source (.diagnostic ⟨line, .unrecognized error⟩)
  | malformed {line : Nat} {problem : HeaderProblem} (plain : Plain problem.message) :
      Finding.Whole source (.diagnostic ⟨line, .header problem⟩)

theorem routine_texts (line : Bytes) (later : List Bytes) (header : Header) (lineNumber : Nat)
    (found : Header.read line later = .found header)
    (valid : ∀ row ∈ line :: later, isValid row = true) :
    (∀ text ∈ (header.routine lineNumber (Block.take line (header.lineCount - 1) later)).texts,
      isValid text = true) ∧ isValid header.inlineBody = true := by
  obtain ⟨name, parameters, inline_body⟩ := header_whole line later header found valid
  refine ⟨List.forall_mem_cons.mpr ⟨name, List.forall_mem_cons.mpr ⟨?_, ?_⟩⟩, inline_body⟩
  · exact isValid_unlines _ fun row inside => valid row (mem_block line _ later row inside)
  · intro text member
    obtain ⟨parameter, listed, own⟩ := List.mem_flatMap.mp member
    exact Parameter.parse_texts _ parameters parameter listed text own

theorem findings_whole (source : Bytes) (valid : isValid source = true) :
    ∀ finding ∈ findings source, finding.Whole source := by
  have rows := isValid_lines source valid
  have keeps : ScanKeeps (· ∈ lines source)
      (fun decorator => isValid decorator.route = true ∧ isValid decorator.method = true)
      (Finding.Whole source) := by
    constructor
    · exact fun waiting _ waits => .dropped waits.1
    · exact fun _ _ _ member marked read => .unrecognized member marked read
    · exact fun _ line later problem read => .malformed (malformed_plain line later problem read)
    · exact fun line decorator member read =>
        decorator_whole _ (EndsWhole.of_valid (rows line member)).trim decorator read
    · intro pending lineNumber line later header each waits _ read
      obtain ⟨own, inline_body⟩ := routine_texts line later header lineNumber read
        fun row inside => rows row (each row inside)
      cases pending with
      | none => exact .helper own
      | some waiting =>
          obtain ⟨route, method⟩ := waits waiting rfl
          exact .endpoint (List.forall_mem_cons.mpr ⟨route, List.forall_mem_cons.mpr
            ⟨method, List.forall_mem_cons.mpr ⟨inline_body, own⟩⟩⟩)
  exact keeps.findings 1 none (lines source) (fun _ member => member) (by rintro waiting ⟨⟩)

theorem endpoint_texts (source : Bytes) (valid : isValid source = true) (endpoint : Endpoint)
    (member : endpoint ∈ (parse source).endpoints) :
    ∀ text ∈ endpoint.texts, isValid text = true := by
  cases findings_whole source valid _ (endpoint_finding source endpoint member) with
  | endpoint texts => exact texts

theorem helper_texts (source : Bytes) (valid : isValid source = true) (helper : Helper)
    (member : helper ∈ (parse source).helpers) : ∀ text ∈ helper.texts, isValid text = true := by
  cases findings_whole source valid _ (helper_finding source helper member) with
  | helper texts => exact texts

theorem endpoint_whole (source : Bytes) (valid : isValid source = true) (endpoint : Endpoint)
    (member : endpoint ∈ (parse source).endpoints) : endpoint.Whole := by
  have texts := endpoint_texts source valid endpoint member
  exact ⟨texts _ (by simp [Endpoint.texts]),
    texts _ (by simp [Endpoint.texts, Helper.texts, Endpoint.routine]),
    .of_valid (texts _ (by simp [Endpoint.texts]))⟩

theorem returned_isText [Json.Dialect] (source : Bytes) (valid : isValid source = true)
    (endpoint : Endpoint) (member : endpoint ∈ (parse source).endpoints) (value : Json)
    (found : endpoint.returnLiteral? = some value) : value.isText = true := by
  refine returnLiteral_isText endpoint ?_ (endpoint_whole source valid endpoint member) value found
  cases endpoint_found source endpoint member with
  | endpoint line extra body rows text count trimmed inline_single routed => omega

end EndpointPreview.Notation
