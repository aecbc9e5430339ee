import EndpointPreview.Proofs.Functions

/-!
The scan of a source, step by step. A step passes one row, which may report something and change
the decorator that waits, or it takes the block of a function. Whatever a scan keeps follows from
what these steps do.
-/

namespace EndpointPreview.Notation

open Text

-- A row that opens a definition starts with a letter, so it is neither marked nor passed over.
theorem definition_front (stripped : Bytes) (opens : startsWith (ascii "def") stripped = true) :
    startsWithMarker stripped = false ∧ keepsPending stripped = false := by
  obtain ⟨rest, rfl⟩ := List.isPrefixOf_iff_prefix.mp opens
  exact ⟨rfl, rfl⟩

theorem no_definition_absent (line : Bytes) (later : List Bytes)
    (other : ¬ startsWith (ascii "def") (trim line) = true) :
    Header.read line later = .absent := by
  unfold Header.read
  cases opens : openDefinition? (trim line) with
  | none => rfl
  | some opened => exact absurd (openDefinition_some _ _ _ opens).1 other

theorem marked_absent (line : Bytes) (later : List Bytes)
    (marked : startsWithMarker (trim line) = true) : Header.read line later = .absent := by
  refine no_definition_absent line later fun word => ?_
  rw [(definition_front _ word).1] at marked
  cases marked

theorem kept_absent (line : Bytes) (later : List Bytes)
    (keeps : keepsPending (trim line) = true) : Header.read line later = .absent := by
  refine no_definition_absent line later fun word => ?_
  rw [(definition_front _ word).2] at keeps
  cases keeps

theorem found_front (line : Bytes) (later : List Bytes) (header : Header)
    (found : Header.read line later = .found header) : keepsPending (trim line) = false := by
  by_contra keeps
  rw [kept_absent line later (by simpa using keeps)] at found
  cases found

-- The block of a header, the blank rows that it leaves at its end, and the rows after them.
structure Taken (line : Bytes) (later : List Bytes) (header : Header) (block : Block)
    (gap : List Bytes) : Prop where
  whole : line :: later = block.rows ++ (gap ++ later.drop block.laterLines)
  single : ∀ row ∈ block.rows, newline ∉ row
  length : block.rows.length + gap.length = block.laterLines + 1
  blank : ∀ row ∈ gap, isBlank row = true
  positive : 0 < header.lineCount
  headed : header.lineCount ≤ block.rows.length
  deeper : ∀ row ∈ block.rows.drop header.lineCount, continuesBlock (indent line) row = true
  solid : ∀ row ∈ block.rows.getLast?, isBlank row = false
  stops : ∀ row ∈ (later.drop block.laterLines).head?, continuesBlock (indent line) row = false

theorem block_taken (line : Bytes) (later : List Bytes) (header : Header)
    (found : Header.read line later = .found header)
    (single : ∀ row ∈ line :: later, newline ∉ row) :
    ∃ gap, Taken line later header (Block.take line (header.lineCount - 1) later) gap := by
  obtain ⟨positive, fits, _⟩ := header_rows line later header found
  let extra := later.take (header.lineCount - 1)
  let after := later.drop (header.lineCount - 1)
  let body := after.takeWhile (continuesBlock (indent line))
  have headed : (line :: extra).length = header.lineCount := by
    simp only [extra, List.length_cons, List.length_take]
    omega
  have rows : (Block.take line (header.lineCount - 1) later).rows =
      line :: extra ++ dropBlankEnd body := header_block line later header found
  have parts : dropBlankEnd body ++ body.rtakeWhile isBlank = body :=
    List.rdropWhile_append_rtakeWhile
  have rest : later.drop (Block.take line (header.lineCount - 1) later).laterLines =
      after.dropWhile (continuesBlock (indent line)) := by
    change later.drop (header.lineCount - 1 + body.length) = _
    rw [← List.drop_drop, drop_takeWhile]
  refine ⟨body.rtakeWhile isBlank, ?_⟩
  constructor
  · calc line :: later = line :: extra ++ after := by simp [extra, after]
      _ = line :: extra ++ (body ++ after.dropWhile (continuesBlock (indent line))) := by
        rw [List.takeWhile_append_dropWhile]
      _ = line :: extra ++ (dropBlankEnd body ++ body.rtakeWhile isBlank ++
            after.dropWhile (continuesBlock (indent line))) := by rw [parts]
      _ = _ := by rw [rows, rest, List.append_assoc, List.append_assoc]
  · exact fun row member => single row (mem_block line _ later row member)
  · have sizes := congrArg List.length parts
    rw [List.length_append] at sizes
    change _ = header.lineCount - 1 + body.length + 1
    rw [rows, List.length_append]
    omega
  · exact fun row member => List.mem_rtakeWhile_imp member
  · exact positive
  · rw [rows, List.length_append]
    omega
  · rw [rows, ← headed, List.drop_left]
    exact fun row member => List.mem_takeWhile_imp ((dropBlankEnd_sublist body).subset member)
  · exact dropBlankEnd_last _
  · rw [rest]
    intro row first
    have outside := List.head?_dropWhile_not (continuesBlock (indent line)) after
    rw [first] at outside
    exact outside

theorem drop_of_place {α : Type} {items : List α} {item : α} {index : Nat}
    (place : items[index]? = some item) : items.drop index = item :: items.drop (index + 1) := by
  obtain ⟨inside, own⟩ := List.getElem?_eq_some_iff.mp place
  rw [List.drop_eq_getElem_cons inside, own]

theorem place_of_drop {α : Type} {items later : List α} {item : α} {index : Nat}
    (place : items.drop index = item :: later) : items[index]? = some item := by
  rw [← List.head?_drop, place]
  rfl

theorem drop_past {α : Type} (first : α) (rest : List α) (skipped index : Nat)
    (past : skipped < index) :
    (first :: rest).drop index = (rest.drop skipped).drop (index - (skipped + 1)) := by
  obtain ⟨extra, rfl⟩ := Nat.exists_eq_add_of_lt past
  rw [List.drop_succ_cons, List.drop_drop]
  congr 1
  omega

theorem Taken.gap_blank {line : Bytes} {later : List Bytes} {header : Header} {block : Block}
    {gap : List Bytes} (taken : Taken line later header block gap) (index : Nat) (row : Bytes)
    (at_index : (line :: later)[index]? = some row) (past : block.rows.length ≤ index)
    (before : index ≤ block.laterLines) : isBlank row = true := by
  have length := taken.length
  rw [taken.whole, List.getElem?_append_right past,
    List.getElem?_append_left (by omega)] at at_index
  exact taken.blank row (List.mem_of_getElem? at_index)

def dropped (pending : Option Pending) (reason : DropReason) : List Diagnostic :=
  pending.toList.map fun waiting => ⟨waiting.line, .dropped waiting.decorator.route reason⟩

theorem dropPending_dropped (pending : Option Pending) (reason : DropReason) :
    dropPending pending reason = (dropped pending reason).map .diagnostic := by
  cases pending <;> rfl

-- A row outside the functions, with what it reports and the decorator that waits after it.
inductive RowPassed (lineNumber : Nat) (line : Bytes) (later : List Bytes)
    (pending : Option Pending) : List Diagnostic → Option Pending → Prop where
  | decorator (decorator : Decorator) (marked : startsWithMarker (trim line) = true)
      (read : Decorator.ofLine (trim line) = .ok decorator) :
      RowPassed lineNumber line later pending (dropped pending .anotherDecorator)
        (some ⟨decorator, lineNumber⟩)
  | unrecognized (error : DecoratorError) (marked : startsWithMarker (trim line) = true)
      (read : Decorator.ofLine (trim line) = .error error) :
      RowPassed lineNumber line later pending [⟨lineNumber, .unrecognized error⟩] pending
  | malformed (problem : HeaderProblem) (unmarked : startsWithMarker (trim line) = false)
      (read : Header.read line later = .malformed problem) :
      RowPassed lineNumber line later pending [⟨lineNumber, .header problem⟩] none
  | between (unmarked : startsWithMarker (trim line) = false)
      (absent : Header.read line later = .absent) (keeps : keepsPending (trim line) = true) :
      RowPassed lineNumber line later pending [] pending
  | other (unmarked : startsWithMarker (trim line) = false)
      (absent : Header.read line later = .absent) (stops : keepsPending (trim line) = false) :
      RowPassed lineNumber line later pending (dropped pending .notBeforeDefinition) none

-- The findings of a scan that starts at a line number with a decorator waiting.
inductive Scanned : Nat → Option Pending → List Bytes → List Finding → Prop where
  | finish (lineNumber : Nat) (pending : Option Pending) :
      Scanned lineNumber pending [] ((dropped pending .endOfInput).map .diagnostic)
  | row {lineNumber : Nat} {pending next : Option Pending} {line : Bytes} {later : List Bytes}
      {reports : List Diagnostic} {found : List Finding}
      (passed : RowPassed lineNumber line later pending reports next)
      (rest : Scanned (lineNumber + 1) next later found) :
      Scanned lineNumber pending (line :: later) (reports.map .diagnostic ++ found)
  | function {lineNumber : Nat} {pending : Option Pending} {line : Bytes}
      {later gap : List Bytes} {header : Header} {block : Block} {found : List Finding}
      (unmarked : startsWithMarker (trim line) = false)
      (read : Header.read line later = .found header)
      (taken : Taken line later header block gap)
      (rest : Scanned (lineNumber + 1 + block.laterLines) none (later.drop block.laterLines)
        found) :
      Scanned lineNumber pending (line :: later)
        (functionFinding pending lineNumber header block :: found)

theorem findingsFrom_scanned (lineNumber : Nat) (pending : Option Pending) (rows : List Bytes)
    (single : ∀ row ∈ rows, newline ∉ row) :
    Scanned lineNumber pending rows (findingsFrom lineNumber pending rows) := by
  fun_induction findingsFrom lineNumber pending rows with
  | case1 lineNumber pending =>
      rw [dropPending_dropped]
      exact .finish lineNumber pending
  | case2 lineNumber pending line later marked decorator read ih =>
      rw [dropPending_dropped]
      exact .row (.decorator decorator marked read) (ih (List.forall_mem_cons.mp single).2)
  | case3 lineNumber pending line later marked error read ih =>
      exact .row (.unrecognized error marked read) (ih (List.forall_mem_cons.mp single).2)
  | case4 lineNumber pending line later unmarked header read block ih =>
      obtain ⟨gap, taken⟩ := block_taken line later header read single
      have all := (List.forall_mem_cons.mp single).2
      exact .function (by simpa using unmarked) read taken
        (ih fun row inside => all row (List.mem_of_mem_drop inside))
  | case5 lineNumber pending line later unmarked problem read ih =>
      exact .row (.malformed problem (by simpa using unmarked) read)
        (ih (List.forall_mem_cons.mp single).2)
  | case6 lineNumber pending line later unmarked absent kept ih =>
      exact .row (.between (by simpa using unmarked) absent kept)
        (ih (List.forall_mem_cons.mp single).2)
  | case7 lineNumber pending line later unmarked absent passed ih =>
      rw [dropPending_dropped]
      exact .row (.other (by simpa using unmarked) absent (by simpa using passed))
        (ih (List.forall_mem_cons.mp single).2)

theorem findings_scanned (source : Bytes) : Scanned 1 none (lines source) (findings source) :=
  findingsFrom_scanned 1 none (lines source) (newline_not_mem_lines source)

def endpointsIn (found : List Finding) : List Endpoint := found.filterMap Finding.endpoint?

def diagnosticsIn (found : List Finding) : List Diagnostic := found.filterMap Finding.diagnostic?

theorem endpointsIn_append (left right : List Finding) :
    endpointsIn (left ++ right) = endpointsIn left ++ endpointsIn right :=
  List.filterMap_append

theorem endpointsIn_reports (reports : List Diagnostic) (found : List Finding) :
    endpointsIn (reports.map .diagnostic ++ found) = endpointsIn found := by
  have none_there : (reports.map Finding.diagnostic).filterMap Finding.endpoint? = [] := by
    simp [List.filterMap_eq_nil_iff, Finding.endpoint?]
  rw [endpointsIn_append, endpointsIn, none_there, List.nil_append]

theorem diagnosticsIn_append (left right : List Finding) :
    diagnosticsIn (left ++ right) = diagnosticsIn left ++ diagnosticsIn right :=
  List.filterMap_append

theorem diagnosticsIn_map (reports : List Diagnostic) :
    diagnosticsIn (reports.map .diagnostic) = reports := by
  rw [diagnosticsIn, List.filterMap_map]
  exact List.filterMap_some

theorem diagnosticsIn_reports (reports : List Diagnostic) (found : List Finding) :
    diagnosticsIn (reports.map .diagnostic ++ found) = reports ++ diagnosticsIn found := by
  rw [diagnosticsIn_append, diagnosticsIn_map]

theorem diagnosticsIn_function (pending : Option Pending) (lineNumber : Nat) (header : Header)
    (block : Block) (found : List Finding) :
    diagnosticsIn (functionFinding pending lineNumber header block :: found) =
      diagnosticsIn found := by
  cases pending <;> rfl

-- A step reports its own row or the decorator that waited, and keeps that one or takes its own.
theorem RowPassed.lines {lineNumber : Nat} {line : Bytes} {later : List Bytes}
    {pending next : Option Pending} {reports : List Diagnostic}
    (passed : RowPassed lineNumber line later pending reports next) :
    (∀ report ∈ reports, report.line = lineNumber ∨ ∃ waiting ∈ pending,
      report.line = waiting.line) ∧
    ∀ waiting ∈ next, waiting.line = lineNumber ∨ waiting ∈ pending := by
  have held (reason : DropReason) : ∀ report ∈ dropped pending reason,
      report.line = lineNumber ∨ ∃ waiting ∈ pending, report.line = waiting.line := by
    intro report member
    obtain ⟨waiting, inside, rfl⟩ := List.mem_map.mp member
    exact .inr ⟨waiting, Option.mem_toList.mp inside, rfl⟩
  cases passed with
  | decorator decorator marked read => exact ⟨held _, by rintro waiting ⟨⟩; exact .inl rfl⟩
  | unrecognized error marked read => exact ⟨by simp, fun waiting member => .inr member⟩
  | malformed problem unmarked read => exact ⟨by simp, by simp⟩
  | between unmarked absent keeps => exact ⟨by simp, fun waiting member => .inr member⟩
  | other unmarked absent stops => exact ⟨held _, by simp⟩

theorem RowPassed.no_header {lineNumber : Nat} {line : Bytes} {later : List Bytes}
    {pending next : Option Pending} {reports : List Diagnostic}
    (passed : RowPassed lineNumber line later pending reports next) (header : Header) :
    Header.read line later ≠ .found header := by
  intro found
  cases passed with
  | decorator _ marked _ => simp [marked_absent line later marked] at found
  | unrecognized _ marked _ => simp [marked_absent line later marked] at found
  | malformed problem _ read => simp [read] at found
  | between _ absent _ => simp [absent] at found
  | other _ absent _ => simp [absent] at found

end EndpointPreview.Notation
