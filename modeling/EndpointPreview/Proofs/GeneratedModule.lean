import EndpointPreview.Proofs.ModuleReading

/-!
A generated module read as decorator notation. Its opening reads as one helper, its
helpers as helpers, each endpoint as the same endpoint on re-indented rows, and its
ending as nothing.
-/

namespace EndpointPreview.Notation

open Text

def openingRows : List Bytes := lines moduleOpening

def endingRows : List Bytes := lines moduleEnding

theorem moduleOpening_rows : moduleOpening = endLines openingRows := by decide +kernel

theorem lines_opening (rest : Bytes) : lines (moduleOpening ++ rest) = openingRows ++ lines rest := by
  have chomped : openingRows.map chompReturn = openingRows := by decide +kernel
  have single : ∀ row ∈ openingRows, newline ∉ row := newline_not_mem_lines moduleOpening
  rw [moduleOpening_rows, lines_endLines _ _ single, chomped]

def passThrough : Helper where
  name := ascii "endpoint"
  parameters := Parameter.parse (ascii "path, methods=None")
  body := unlines (
    ["def endpoint(path, methods=None):", "    def decorator(func):", "        return func",
      "    return decorator"].map ascii)
  line := 10

-- The opening holds one function, and the scan goes on after it.
theorem findings_opening (later : List Bytes) :
    ∃ next, findingsFrom 1 none (openingRows ++ later) =
      .helper passThrough :: findingsFrom next none later := by
  let line := ascii "def endpoint(path, methods=None):"
  let body := [ascii "    def decorator(func):", ascii "        return func",
    ascii "    return decorator", []]
  let stop := ascii "# Helper functions" :: later
  have parts : openingRows = openingRows.take 9 ++ (line :: body ++ [ascii "# Helper functions"]) := by
    decide +kernel
  have plain : (openingRows.take 9).all isPlain = true := by decide +kernel
  have read : ∃ header, Header.read line (body ++ stop) = .found header ∧ header.lineCount = 1 ∧
      header.name = ascii "endpoint" ∧ header.parameterText = ascii "path, methods=None" :=
    ⟨_, rfl, rfl, rfl, rfl⟩
  obtain ⟨header, read, count, name, parameters⟩ := read
  have inside : ∀ row ∈ body, continuesBlock (indent line) row = true := by decide +kernel
  have stops : ∀ row ∈ stop.head?, continuesBlock (indent line) row = false := by
    intro row member
    cases member
    decide +kernel
  obtain ⟨block, next, rows, function⟩ :=
    findings_function 10 none line [] body stop header (by decide +kernel) read count inside stops
  have comment := findings_plain next [ascii "# Helper functions"] later (by decide +kernel)
  have is_helper : functionFinding none 10 header block = .helper passThrough := by
    simp only [functionFinding, passThrough, name, parameters, rows]
    rfl
  have front : findingsFrom 1 none (openingRows ++ later) =
      findingsFrom 10 none (line :: ([] ++ (body ++ stop))) := by
    rw [parts, List.append_assoc, findings_plain 1 _ _ plain]
    rfl
  refine ⟨next + 1, ?_⟩
  rw [front, function, is_helper]
  exact congrArg (List.cons _) comment

-- What stands after the registrations that are read: a blank row, then the margin.
theorem lines_rest (back : List Endpoint) :
    ∃ stop, lines (endLines (back.flatMap Endpoint.moduleLines) ++ moduleEnding) = [] :: stop ∧
      AtMargin stop ∧ (back = [] → stop = endingRows.drop 1) := by
  cases back with
  | nil =>
      refine ⟨endingRows.drop 1, by decide +kernel, ?_, fun _ => rfl⟩
      exact ⟨ascii "if __name__ == '__main__':", endingRows.drop 2, by decide +kernel,
        by decide +kernel, by decide +kernel⟩
  | cons endpoint back =>
      let start := ascii "@app.route("
      let tail := endLines (endpoint.moduleLines.drop 2 ++ back.flatMap Endpoint.moduleLines)
      let rest := quoteRoute endpoint.route ++ ascii ")" ++ [newline] ++ tail ++ moduleEnding
      have text : endLines ((endpoint :: back).flatMap Endpoint.moduleLines) ++ moduleEnding =
          newline :: (start ++ rest) := by
        have rows : (endpoint :: back).flatMap Endpoint.moduleLines = [] ::
            registrationRow endpoint.route ::
              (endpoint.moduleLines.drop 2 ++ back.flatMap Endpoint.moduleLines) := rfl
        rw [rows]
        simp [endLines, registrationRow, start, rest, tail]
      -- The next route may hold line breaks, so only the start of its row is known.
      obtain ⟨more, later, rows⟩ := rawLines_start start rest (by decide +kernel) (by decide +kernel)
      have blank_row : rawLines (newline :: (start ++ rest)) = [] :: rawLines (start ++ rest) :=
        rawLines_row [] _ (by simp)
      refine ⟨chompReturn (start ++ more) :: later.map chompReturn, ?_, ?_, ?_⟩
      · unfold lines
        rw [text, blank_row, rows]
        rfl
      · refine ⟨_, _, rfl, ?_, ?_⟩
        · rw [isBlank_chompReturn, isBlank_append]
          have solid : isBlank start = false := by decide +kernel
          rw [solid, Bool.false_and]
        · rw [indent_chompReturn]
          rfl
      · intro empty
        cases empty

theorem findings_ending (lineNumber : Nat) :
    findingsFrom lineNumber none (endingRows.drop 1) = [] := by
  have plain : (endingRows.drop 1).all isPlain = true := by decide +kernel
  have all := findings_plain lineNumber (endingRows.drop 1) [] plain
  rw [List.append_nil] at all
  rw [all, findingsFrom]
  rfl

/-- The rows of a module: the opening, the helpers, the first endpoints, and what stands behind
them from the margin on. -/
theorem lines_module (parsed : ParsedSource) (front back : List Endpoint)
    (whole : parsed.endpoints = front ++ back)
    (helpers : ∀ helper ∈ parsed.helpers, FunctionFound (.helper helper))
    (found : ∀ endpoint ∈ front, FunctionFound (.endpoint endpoint))
    (one_row : ∀ endpoint ∈ front, newline ∉ endpoint.route) :
    ∃ stop, lines (renderModule parsed) = openingRows ++ ([[]] ++ (helperRows parsed.helpers ++
        ((front.flatMap fun endpoint => endpoint.rows ++ [[]]) ++ stop))) ∧
      AtMargin stop ∧ (back = [] → stop = endingRows.drop 1) := by
  obtain ⟨stop, rest, margin, ending⟩ := lines_rest back
  refine ⟨stop, ?_, margin, ending⟩
  unfold renderModule
  rw [whole, List.flatMap_append, endLines_append, List.append_assoc, List.append_assoc,
    List.append_assoc, lines_opening, lines_helpers _ _ helpers, lines_endpoints _ _ found one_row,
    rest, rotate_blank, rotate_blank]
  rfl

/-- The scan of a module up to the end of its first registrations. -/
theorem findings_module (parsed : ParsedSource) (front back : List Endpoint)
    (whole : parsed.endpoints = front ++ back)
    (helpers : ∀ helper ∈ parsed.helpers, FunctionFound (.helper helper))
    (reads : ∀ helper ∈ parsed.helpers, ∃ line extra body, helper.Reads line extra body)
    (found : ∀ endpoint ∈ front, FunctionFound (.endpoint endpoint))
    (one_row : ∀ endpoint ∈ front, newline ∉ endpoint.route) :
    ∃ before again after, findings (renderModule parsed) = before ++ (again.map .endpoint ++ after) ∧
      (∀ finding ∈ before, ∃ helper, finding = .helper helper) ∧
      List.Forall₂ (fun endpoint read => ∃ line, read = endpoint.reread line) front again ∧
      (back = [] → after = []) := by
  obtain ⟨stop, rows, margin, ending⟩ := lines_module parsed front back whole helpers found one_row
  let registered := (front.flatMap fun endpoint => endpoint.rows ++ [[]]) ++ stop
  -- Every block of the module ends at a row at the margin, also that of the last helper.
  have registered_margin : AtMargin registered := by
    cases front with
    | nil => exact margin
    | cons endpoint front => exact ⟨registrationRow endpoint.route, _, rfl, rfl, rfl⟩
  unfold findings
  rw [rows]
  obtain ⟨first, opened⟩ := findings_opening ([[]] ++ (helperRows parsed.helpers ++ registered))
  have blank := findings_plain first [[]] (helperRows parsed.helpers ++ registered) (by decide)
  obtain ⟨helped, second, in_helpers, kinds⟩ :=
    findings_helpers parsed.helpers (first + 1) registered reads registered_margin
  obtain ⟨again, third, in_endpoints, pairs⟩ :=
    findings_endpoints front second stop found one_row margin
  refine ⟨.helper passThrough :: helped, again, findingsFrom third none stop, ?_, ?_, pairs, ?_⟩
  · rw [opened, blank, List.length_singleton, in_helpers, in_endpoints]
    rfl
  · intro finding member
    rcases List.mem_cons.mp member with rfl | inside
    · exact ⟨passThrough, rfl⟩
    · exact kinds finding inside
  · intro none_left
    rw [ending none_left]
    exact findings_ending third

theorem endpoints_after_helpers (before after : List Finding) (again : List Endpoint)
    (kinds : ∀ finding ∈ before, ∃ helper, finding = .helper helper) :
    (ParsedSource.ofFindings (before ++ (again.map .endpoint ++ after))).endpoints =
      again ++ after.filterMap Finding.endpoint? := by
  have none_before : before.filterMap Finding.endpoint? = [] := by
    rw [List.filterMap_eq_nil_iff]
    intro finding member
    obtain ⟨helper, rfl⟩ := kinds finding member
    rfl
  have all_again : (again.map Finding.endpoint).filterMap Finding.endpoint? = again := by
    rw [List.filterMap_map]
    exact List.filterMap_some
  simp only [ParsedSource.ofFindings, List.filterMap_append, none_before, all_again,
    List.nil_append]

theorem diagnostics_after_helpers (before after : List Finding) (again : List Endpoint)
    (kinds : ∀ finding ∈ before, ∃ helper, finding = .helper helper) :
    (ParsedSource.ofFindings (before ++ (again.map .endpoint ++ after))).diagnostics =
      after.filterMap Finding.diagnostic? := by
  have none_before : before.filterMap Finding.diagnostic? = [] := by
    rw [List.filterMap_eq_nil_iff]
    intro finding member
    obtain ⟨helper, rfl⟩ := kinds finding member
    rfl
  have none_again : (again.map Finding.endpoint).filterMap Finding.diagnostic? = [] := by
    rw [List.filterMap_map, List.filterMap_eq_nil_iff]
    intro endpoint _
    rfl
  simp only [ParsedSource.ofFindings, List.filterMap_append, none_before, none_again,
    List.nil_append]

-- No row of a helper that is not blank stands left of its first one.
def Helper.hangs (helper : Helper) : Prop :=
  ∀ first ∈ (lines helper.body).head?, ∀ row ∈ lines helper.body,
    isBlank row = true ∨ indent first ≤ indent row

instance (helper : Helper) : Decidable helper.hangs :=
  inferInstanceAs (Decidable (∀ first ∈ (lines helper.body).head?, ∀ row ∈ lines helper.body,
    isBlank row = true ∨ indent first ≤ indent row))

structure Helper.Written (helper : Helper) (line : Bytes) (extra body : List Bytes) : Prop where
  rows : FunctionRows helper.name line extra body
  text : lines helper.body = line :: extra ++ body

theorem written_found (helper : Helper) (found : FunctionFound (.helper helper)) :
    ∃ line extra body, helper.Written line extra body := by
  cases found with
  | helper line extra body rows text =>
  refine ⟨_, _, _, rows.chomped, ?_⟩
  rw [text, rows.lines_unlines]
  simp

theorem reads_hanging (helper : Helper) (found : FunctionFound (.helper helper))
    (hangs : helper.hangs) : ∃ line extra body, helper.Reads line extra body := by
  obtain ⟨line, extra, body, written⟩ := written_found helper found
  refine ⟨line, extra, body, written.rows, written.text, ?_⟩
  intro row member
  apply hangs line
  · rw [written.text]
    rfl
  · rw [written.text]
    exact List.mem_append_left _ (List.mem_cons_of_mem _ member)

def Helper.unindented (helper : Helper) : Prop :=
  ∀ first ∈ (lines helper.body).head?, indent first = 0

instance (helper : Helper) : Decidable helper.unindented :=
  inferInstanceAs (Decidable (∀ first ∈ (lines helper.body).head?, indent first = 0))

theorem Helper.unindented_hangs (helper : Helper) (unindented : helper.unindented) :
    helper.hangs := by
  intro first at_head row _
  right
  rw [unindented first at_head]
  exact Nat.zero_le _

end EndpointPreview.Notation
