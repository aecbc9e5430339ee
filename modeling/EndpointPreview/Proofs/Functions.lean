import EndpointPreview.Notation.Source
import EndpointPreview.Proofs.Headers

/-!
The functions found in a source. Each one is a header and the rows of its block, and
these rows say what the function is: they read as the same function again, whatever
stands after them, also when carriage returns are taken off their ends.
-/

namespace EndpointPreview.Notation

open Text

-- A row that opens a function named `name`, the other rows of its header and the rows of its block;
-- together they end with a row that is not blank.
structure FunctionRows (name line : Bytes) (extra body : List Bytes) : Prop where
  unmarked : startsWithMarker (trim line) = false
  header : ∀ later, ∃ header, Header.read line (extra ++ later) = .found header ∧
    header.name = name ∧ header.lineCount = extra.length + 1
  inside : ∀ row ∈ body, continuesBlock (indent line) row = true
  solid : ∃ before last, line :: extra ++ body = before ++ [last] ∧ isBlank last = false
  single : ∀ row ∈ line :: extra ++ body, newline ∉ row

namespace FunctionRows

variable {name line : Bytes} {extra body : List Bytes}

-- A function's name is a word that starts with no digit.
theorem word (rows : FunctionRows name line extra body) :
    name.all isWordByte = true ∧ (name.head?.map fun b => !isDigit b).getD false = true := by
  obtain ⟨header, found, rfl, _⟩ := rows.header []
  obtain ⟨opened, _, opens, _⟩ := read_found _ _ _ found
  have parts := openDefinition_some _ _ _ opens
  exact ⟨parts.2.1, parts.2.2.1⟩

-- The row that opens a function is not blank.
theorem line_solid (rows : FunctionRows name line extra body) : isBlank line = false := by
  obtain ⟨header, found, _⟩ := rows.header []
  obtain ⟨_, _, opens, _⟩ := read_found _ _ _ found
  exact definition_solid _ _ _ opens

theorem continuesBlock_chompReturn (depth : Nat) (row : Bytes) :
    continuesBlock depth (chompReturn row) = continuesBlock depth row := by
  simp only [continuesBlock, isBlank_chompReturn, indent_chompReturn]

theorem chomped (rows : FunctionRows name line extra body) :
    FunctionRows name (chompReturn line) (extra.map chompReturn) (body.map chompReturn) where
  unmarked := by rw [trim_chompReturn]; exact rows.unmarked
  header := by
    intro later
    obtain ⟨header, found, same_name, count⟩ := rows.header []
    obtain ⟨again, found_again, name_again, count_again⟩ :=
      read_again line (extra ++ []) later header found
    have own : ((extra ++ []).take (header.lineCount - 1)).map chompReturn =
        extra.map chompReturn := by
      rw [List.append_nil, count, Nat.add_sub_cancel, List.take_length]
    rw [own] at found_again
    exact ⟨again, found_again, name_again.trans same_name, by simp [count_again, count]⟩
  inside := by
    intro row member
    obtain ⟨original, inside, rfl⟩ := List.mem_map.mp member
    rw [continuesBlock_chompReturn, indent_chompReturn]
    exact rows.inside original inside
  solid := by
    obtain ⟨before, last, whole, solid⟩ := rows.solid
    refine ⟨before.map chompReturn, chompReturn last, ?_, by rwa [isBlank_chompReturn]⟩
    simpa using congrArg (List.map chompReturn) whole
  single := by
    intro row member
    have mapped : row ∈ (line :: extra ++ body).map chompReturn := by simpa using member
    obtain ⟨original, inside, rfl⟩ := List.mem_map.mp mapped
    exact fun found => rows.single original inside (mem_chompReturn _ _ found)

/-- The rows come back from their text, but for one carriage return each. -/
theorem lines_unlines (rows : FunctionRows name line extra body) :
    lines (unlines (line :: extra ++ body)) = (line :: extra ++ body).map chompReturn := by
  apply Text.lines_unlines _ rows.single
  intro last member
  obtain ⟨before, final, whole, solid⟩ := rows.solid
  rw [whole, List.getLast?_concat, Option.mem_some_iff] at member
  subst member
  rintro rfl
  exact absurd solid (by decide)

end FunctionRows

theorem takeWhile_stops (depth : Nat) (body stop : List Bytes)
    (inside : ∀ row ∈ body, continuesBlock depth row = true)
    (stops : ∀ row ∈ stop.head?, continuesBlock depth row = false) :
    (body ++ stop).takeWhile (continuesBlock depth) = body := by
  rw [List.takeWhile_append_of_pos inside]
  cases stop with
  | nil => simp
  | cons row rest =>
      rw [List.takeWhile_cons_of_neg (by simp [stops row (by simp)]), List.append_nil]

-- The block of a header takes the rows inside and leaves the row that stops it.
theorem take_block (line : Bytes) (extra body stop : List Bytes)
    (inside : ∀ row ∈ body, continuesBlock (indent line) row = true)
    (stops : ∀ row ∈ stop.head?, continuesBlock (indent line) row = false) :
    Block.take line extra.length (extra ++ (body ++ stop)) =
      ⟨dropBlankEnd (line :: extra ++ body), extra.length + body.length⟩ := by
  simp [Block.take, takeWhile_stops _ _ _ inside stops]

theorem mem_block (line : Bytes) (extraLines : Nat) (later : List Bytes) (row : Bytes)
    (member : row ∈ (Block.take line extraLines later).rows) : row ∈ line :: later := by
  rcases List.mem_append.mp ((dropBlankEnd_sublist _).subset member) with header | body
  · rcases List.mem_cons.mp header with rfl | extra
    · exact List.mem_cons_self
    · exact List.mem_cons_of_mem _ (List.mem_of_mem_take extra)
  · exact List.mem_cons_of_mem _
      (List.mem_of_mem_drop ((List.takeWhile_prefix _).subset body))

/-- The rows of a header's block: the blank end is only cut off the body, never off the header. -/
theorem header_block (line : Bytes) (later : List Bytes) (header : Header)
    (found : Header.read line later = .found header) :
    (Block.take line (header.lineCount - 1) later).rows =
      line :: later.take (header.lineCount - 1) ++ dropBlankEnd
        ((later.drop (header.lineCount - 1)).takeWhile (continuesBlock (indent line))) := by
  obtain ⟨_, _, before, last, whole, solid⟩ := header_rows line later header found
  rw [Block.take, whole]
  exact dropBlankEnd_after before _ last solid

/-- The rows of a block are a function's rows. -/
theorem block_rows (line : Bytes) (later : List Bytes) (header : Header)
    (found : Header.read line later = .found header)
    (unmarked : startsWithMarker (trim line) = false)
    (single : ∀ row ∈ line :: later, newline ∉ row) :
    ∃ extra body, (Block.take line (header.lineCount - 1) later).rows = line :: extra ++ body ∧
      header.lineCount = extra.length + 1 ∧ FunctionRows header.name line extra body := by
  obtain ⟨positive, fits, _⟩ := header_rows line later header found
  let extra := later.take (header.lineCount - 1)
  let whole := (later.drop (header.lineCount - 1)).takeWhile (continuesBlock (indent line))
  have extra_length : header.lineCount = extra.length + 1 := by
    simp only [extra, List.length_take]
    omega
  have block : (Block.take line (header.lineCount - 1) later).rows =
      line :: extra ++ dropBlankEnd whole := header_block line later header found
  refine ⟨extra, dropBlankEnd whole, block, extra_length, ?_⟩
  exact {
    unmarked
    header := fun other => ⟨header, read_own line later other header found, rfl, extra_length⟩
    inside := fun row member =>
      List.mem_takeWhile_imp ((dropBlankEnd_sublist whole).subset member)
    solid := by
      have nonempty : line :: extra ++ dropBlankEnd whole ≠ [] := by simp
      have ends := List.dropLast_append_getLast nonempty
      refine ⟨_, _, ends.symm, ?_⟩
      apply dropBlankEnd_last (line :: extra ++ whole)
      change _ ∈ (Block.take line (header.lineCount - 1) later).rows.getLast?
      rw [block, List.getLast?_eq_some_getLast nonempty]
      exact rfl
    single := fun row member => single row (mem_block line _ later row (block ▸ member)) }

inductive FunctionFound : Finding → Prop where
  | helper {helper : Helper} (line : Bytes) (extra body : List Bytes)
      (rows : FunctionRows helper.name line extra body)
      (text : helper.body = unlines (line :: extra ++ body)) :
      FunctionFound (.helper helper)
  | endpoint {endpoint : Endpoint} (line : Bytes) (extra body : List Bytes)
      (rows : FunctionRows endpoint.name line extra body)
      (text : endpoint.body = unlines (line :: extra ++ body))
      (count : endpoint.headerLines = extra.length + 1)
      (trimmed : trim endpoint.inlineBody = endpoint.inlineBody)
      (inline_single : newline ∉ endpoint.inlineBody)
      (routed : endpoint.route ≠ []) :
      FunctionFound (.endpoint endpoint)
  | diagnostic (diagnostic : Diagnostic) : FunctionFound (.diagnostic diagnostic)

theorem bind_ok {Error First Last : Type} {first : Except Error First}
    {next : First → Except Error Last} {last : Last} (done : (first >>= next) = .ok last) :
    ∃ value, first = .ok value ∧ next value = .ok last := by
  cases first with
  | error => cases done
  | ok value => exact ⟨value, rfl, done⟩

theorem map_ok {Error First Last : Type} {first : Except Error First} {next : First → Last}
    {last : Last} (done : first.map next = .ok last) : ∃ value, first = .ok value ∧ next value = last := by
  cases first with
  | error => cases done
  | ok value => exact ⟨value, rfl, Except.ok.inj done⟩

theorem bind_error {Error First Last : Type} {first : Except Error First}
    {next : First → Except Error Last} {error : Error}
    (failed : (first >>= next) = .error error) :
    first = .error error ∨ ∃ value, first = .ok value ∧ next value = .error error := by
  cases first with
  | error same =>
      cases failed
      exact .inl rfl
  | ok value => exact .inr ⟨value, rfl, failed⟩

theorem decorator_route (line : Bytes) (decorator : Decorator)
    (read : Decorator.ofLine line = .ok decorator) : decorator.route ≠ [] := by
  unfold Decorator.ofLine Decorator.ofTokens at read
  obtain ⟨_, _, read⟩ := bind_ok read
  obtain ⟨_, _, read⟩ := bind_ok read
  obtain ⟨_, _, read⟩ := bind_ok read
  obtain ⟨⟨route, _⟩, _, read⟩ := bind_ok read
  dsimp only at read
  split at read
  · cases read
  · rename_i routed
    obtain ⟨_, _, read⟩ := bind_ok read
    obtain ⟨_, _, read⟩ := bind_ok read
    split at read
    · cases read
    · cases read
      exact routed

-- What the scan of a source keeps: a decorator waits for its function, a header makes one of its
-- rows, and what cannot be read is reported.
structure ScanKeeps (Row : Bytes → Prop) (Waits : Decorator → Prop) (Good : Finding → Prop) :
    Prop where
  dropped : ∀ (waiting : Pending) reason, Waits waiting.decorator →
    Good (.diagnostic ⟨waiting.line, .dropped waiting.decorator.route reason⟩)
  unrecognized : ∀ lineNumber line error, Row line → startsWithMarker (trim line) = true →
    Decorator.ofLine (trim line) = .error error →
      Good (.diagnostic ⟨lineNumber, .unrecognized error⟩)
  malformed : ∀ lineNumber line later problem, Header.read line later = .malformed problem →
    Good (.diagnostic ⟨lineNumber, .header problem⟩)
  decorator : ∀ line decorator, Row line → Decorator.ofLine (trim line) = .ok decorator →
    Waits decorator
  function : ∀ pending lineNumber line later header, (∀ row ∈ line :: later, Row row) →
    (∀ waiting ∈ pending, Waits waiting.decorator) → startsWithMarker (trim line) = false →
    Header.read line later = .found header →
      Good (functionFinding pending lineNumber header
        (Block.take line (header.lineCount - 1) later))

theorem ScanKeeps.findings {Row : Bytes → Prop} {Waits : Decorator → Prop} {Good : Finding → Prop}
    (keeps : ScanKeeps Row Waits Good) (lineNumber : Nat) (pending : Option Pending)
    (rows : List Bytes) (each : ∀ row ∈ rows, Row row)
    (waits : ∀ waiting ∈ pending, Waits waiting.decorator) :
    ∀ finding ∈ findingsFrom lineNumber pending rows, Good finding := by
  have dropped (pending : Option Pending) (reason : DropReason)
      (waits : ∀ waiting ∈ pending, Waits waiting.decorator) :
      ∀ finding ∈ dropPending pending reason, Good finding := by
    intro finding member
    cases pending with
    | none => cases member
    | some waiting =>
        rw [List.mem_singleton.mp member]
        exact keeps.dropped waiting reason (waits waiting rfl)
  have none_waits : ∀ waiting ∈ (none : Option Pending), Waits waiting.decorator := by
    rintro waiting ⟨⟩
  fun_induction findingsFrom lineNumber pending rows with
  | case1 lineNumber pending => exact dropped pending _ waits
  | case2 lineNumber pending line later marked decorator read ih =>
      obtain ⟨own, all⟩ := List.forall_mem_cons.mp each
      refine List.forall_mem_append.mpr ⟨dropped pending _ waits, ih all ?_⟩
      rintro waiting ⟨rfl⟩
      exact keeps.decorator line decorator own read
  | case3 lineNumber pending line later marked error read ih =>
      obtain ⟨own, all⟩ := List.forall_mem_cons.mp each
      exact List.forall_mem_cons.mpr
        ⟨keeps.unrecognized lineNumber line error own marked read, ih all waits⟩
  | case4 lineNumber pending line later unmarked header read block ih =>
      have all := (List.forall_mem_cons.mp each).2
      refine List.forall_mem_cons.mpr ⟨?_, ih ?_ none_waits⟩
      · exact keeps.function pending lineNumber line later header each waits
          (by simpa using unmarked) read
      · exact fun row inside => all row (List.mem_of_mem_drop inside)
  | case5 lineNumber pending line later unmarked problem read ih =>
      have all := (List.forall_mem_cons.mp each).2
      exact List.forall_mem_cons.mpr
        ⟨keeps.malformed lineNumber line later problem read, ih all none_waits⟩
  | case6 lineNumber pending line later unmarked absent kept ih =>
      exact ih (List.forall_mem_cons.mp each).2 waits
  | case7 lineNumber pending line later unmarked absent passed ih =>
      have all := (List.forall_mem_cons.mp each).2
      exact List.forall_mem_append.mpr ⟨dropped pending _ waits, ih all none_waits⟩

/-- Every function found in a source is a function of its rows. -/
theorem source_found (source : Bytes) : ∀ finding ∈ findings source, FunctionFound finding := by
  have keeps : ScanKeeps (newline ∉ ·) (fun decorator => decorator.route ≠ []) FunctionFound := by
    constructor
    · exact fun _ _ _ => .diagnostic _
    · exact fun _ _ _ _ _ _ => .diagnostic _
    · exact fun _ _ _ _ _ => .diagnostic _
    · exact fun line decorator _ read => decorator_route (trim line) decorator read
    · intro pending lineNumber line later header single routed unmarked read
      obtain ⟨extra, body, whole, count, function⟩ :=
        block_rows line later header read unmarked single
      have text : unlines (Block.take line (header.lineCount - 1) later).rows =
          unlines (line :: extra ++ body) := congrArg unlines whole
      have inline_body := header_inlineBody line later header read single
      cases pending with
      | none => exact .helper line extra body function text
      | some waiting =>
          exact .endpoint line extra body function text (by simp [count]) inline_body.1
            inline_body.2 (routed waiting rfl)
  exact keeps.findings 1 none (lines source) (newline_not_mem_lines source) (by rintro waiting ⟨⟩)

theorem helper_finding (source : Bytes) (helper : Helper)
    (member : helper ∈ (parse source).helpers) : .helper helper ∈ findings source := by
  obtain ⟨finding, inside, same⟩ := List.mem_filterMap.mp member
  cases finding with
  | helper found =>
      cases same
      exact inside
  | endpoint => cases same
  | diagnostic => cases same

theorem endpoint_finding (source : Bytes) (endpoint : Endpoint)
    (member : endpoint ∈ (parse source).endpoints) : .endpoint endpoint ∈ findings source := by
  obtain ⟨finding, inside, same⟩ := List.mem_filterMap.mp member
  cases finding with
  | endpoint found =>
      cases same
      exact inside
  | helper => cases same
  | diagnostic => cases same

theorem helper_found (source : Bytes) (helper : Helper)
    (member : helper ∈ (parse source).helpers) : FunctionFound (.helper helper) :=
  source_found source _ (helper_finding source helper member)

theorem endpoint_found (source : Bytes) (endpoint : Endpoint)
    (member : endpoint ∈ (parse source).endpoints) : FunctionFound (.endpoint endpoint) :=
  source_found source _ (endpoint_finding source endpoint member)

end EndpointPreview.Notation
