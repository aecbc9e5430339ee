import EndpointPreview.Proofs.Scans
import Mathlib.Data.List.Nodup

/-!
Where the functions of a source stand. Each one covers the rows from its def row on that its body
holds, nothing of them is cut off and nothing is added, and no row that opens a function is left
outside.
-/

namespace EndpointPreview.Notation

open Text

def Endpoint.routine (endpoint : Endpoint) : Helper :=
  ⟨endpoint.name, endpoint.parameters, endpoint.body, endpoint.line⟩

def Finding.routine? : Finding → Option Helper
  | endpoint found => some found.routine
  | helper found => some found
  | diagnostic _ => none

def ParsedSource.routines (parsed : ParsedSource) : List Helper :=
  (parsed.endpoints.map Endpoint.routine ++ parsed.helpers).mergeSort
    fun first second => first.line ≤ second.line

namespace Helper

def rowCount (routine : Helper) : Nat := routine.body.count newline + 1

def covers (routine : Helper) (line : Nat) : Bool :=
  routine.line ≤ line && line < routine.line + routine.rowCount

def Before (first second : Helper) : Prop := first.line + first.rowCount ≤ second.line

end Helper

theorem Helper.covers_line (routine : Helper) : routine.covers routine.line = true := by
  simp [Helper.covers, Helper.rowCount]

def uncovered (routines : List Helper) (line : Nat) : Bool :=
  routines.all fun routine => !routine.covers line

-- The function is the block that a header opens: the rows down to the first one that is not deeper
-- than the header's, without the blank rows at their end.
structure IsBlock (line : Bytes) (later : List Bytes) (header : Header) (routine : Helper) :
    Prop where
  opens : Header.read line later = .found header
  name : routine.name = header.name
  parameters : routine.parameters = Parameter.parse header.parameterText
  fits : routine.rowCount ≤ (line :: later).length
  text : routine.body = unlines ((line :: later).take routine.rowCount)
  headed : header.lineCount ≤ routine.rowCount
  deeper : ∀ row ∈ ((line :: later).take routine.rowCount).drop header.lineCount,
    isBlank row = true ∨ indent line < indent row
  solid : ∀ row ∈ ((line :: later).take routine.rowCount).getLast?, isBlank row = false
  dedents : ∀ row ∈ ((line :: later).drop routine.rowCount).find? (!isBlank ·),
    indent row ≤ indent line

theorem count_unlines (rows : List Bytes) (nonempty : rows ≠ [])
    (single : ∀ row ∈ rows, newline ∉ row) : (unlines rows).count newline + 1 = rows.length := by
  induction rows with
  | nil => exact absurd rfl nonempty
  | cons row rest ih =>
      obtain ⟨clear, all⟩ := List.forall_mem_cons.mp single
      have none_here : row.count newline = 0 := List.count_eq_zero.mpr clear
      cases rest with
      | nil => simpa [unlines, joinWith] using none_here
      | cons next rest =>
          have counted := ih (by simp) all
          rw [unlines_cons, List.count_append, List.count_cons_self, none_here]
          simp only [List.length_cons] at counted ⊢
          omega

def Header.routine (header : Header) (lineNumber : Nat) (block : Block) : Helper :=
  ⟨header.name, Parameter.parse header.parameterText, unlines block.rows, lineNumber⟩

theorem functionFinding_routine (pending : Option Pending) (lineNumber : Nat) (header : Header)
    (block : Block) : (functionFinding pending lineNumber header block).routine? =
      some (header.routine lineNumber block) := by
  cases pending <;> rfl

section Block

variable {line : Bytes} {later : List Bytes} {header : Header} {block : Block} {gap : List Bytes}

theorem Taken.rowCount (taken : Taken line later header block gap) (lineNumber : Nat) :
    (header.routine lineNumber block).rowCount = block.rows.length := by
  have headed := taken.headed
  have positive := taken.positive
  exact count_unlines block.rows (List.ne_nil_of_length_pos (by omega)) taken.single

theorem Taken.isBlock (taken : Taken line later header block gap)
    (found : Header.read line later = .found header) (lineNumber : Nat) :
    IsBlock line later header (header.routine lineNumber block) := by
  have count := taken.rowCount lineNumber
  have own : (line :: later).take (header.routine lineNumber block).rowCount = block.rows := by
    rw [count, taken.whole, List.take_left]
  have after : (line :: later).drop (header.routine lineNumber block).rowCount =
      gap ++ later.drop block.laterLines := by
    rw [count, taken.whole, List.drop_left]
  constructor
  · exact found
  · rfl
  · rfl
  · rw [count, taken.whole, List.length_append]
    omega
  · rw [own]
    rfl
  · rw [count]
    exact taken.headed
  · rw [own]
    intro row member
    simpa [continuesBlock] using taken.deeper row member
  · rw [own]
    exact taken.solid
  · -- The blank rows are passed over, and the next row ended the block.
    rw [after]
    intro row first
    have passed : gap.find? (!isBlank ·) = none :=
      List.find?_eq_none.mpr fun row member => by simp [taken.blank row member]
    rw [List.find?_append, passed, Option.none_or] at first
    cases rest : later.drop block.laterLines with
    | nil => simp [rest] at first
    | cons stop more =>
        have stops := taken.stops stop (by simp [rest])
        simp only [continuesBlock, Bool.or_eq_false_iff, decide_eq_false_iff_not] at stops
        rw [rest, List.find?_cons_of_pos (by simp [stops.1])] at first
        cases first
        omega

end Block

def routinesIn (found : List Finding) : List Helper := found.filterMap Finding.routine?

theorem routinesIn_reports (reports : List Diagnostic) (found : List Finding) :
    routinesIn (reports.map .diagnostic ++ found) = routinesIn found := by
  have none_there : (reports.map Finding.diagnostic).filterMap Finding.routine? = [] := by
    simp [List.filterMap_eq_nil_iff, Finding.routine?]
  rw [routinesIn, List.filterMap_append, none_there]
  rfl

theorem routinesIn_dropped (pending : Option Pending) (reason : DropReason) :
    routinesIn ((dropped pending reason).map .diagnostic) = [] := by
  rw [← List.append_nil (List.map _ _), routinesIn_reports]
  rfl

theorem routinesIn_function (pending : Option Pending) (lineNumber : Nat) (header : Header)
    (block : Block) (found : List Finding) :
    routinesIn (functionFinding pending lineNumber header block :: found) =
      header.routine lineNumber block :: routinesIn found :=
  List.filterMap_cons_some (functionFinding_routine pending lineNumber header block)

variable {lineNumber : Nat} {pending : Option Pending} {rows : List Bytes} {found : List Finding}

theorem Scanned.from_line (scanned : Scanned lineNumber pending rows found) :
    ∀ routine ∈ routinesIn found, lineNumber ≤ routine.line := by
  induction scanned with
  | finish lineNumber pending =>
      rw [routinesIn_dropped]
      rintro routine ⟨⟩
  | row passed rest ih =>
      rw [routinesIn_reports]
      exact fun routine member => Nat.le_of_succ_le (ih routine member)
  | function unmarked read taken rest ih =>
      rw [routinesIn_function]
      refine List.forall_mem_cons.mpr ⟨Nat.le_refl _, fun routine member => ?_⟩
      have further := ih routine member
      omega

theorem Scanned.in_order (scanned : Scanned lineNumber pending rows found) :
    (routinesIn found).Pairwise Helper.Before := by
  induction scanned with
  | finish lineNumber pending =>
      rw [routinesIn_dropped]
      exact List.Pairwise.nil
  | row passed rest ih =>
      rw [routinesIn_reports]
      exact ih
  | @function lineNumber pending line later gap header block found unmarked read taken rest ih =>
      rw [routinesIn_function]
      refine List.Pairwise.cons (fun routine member => ?_) ih
      have further := rest.from_line routine member
      have count := taken.rowCount lineNumber
      have length := taken.length
      change lineNumber + _ ≤ routine.line
      omega

theorem Scanned.blocks (scanned : Scanned lineNumber pending rows found) :
    ∀ routine ∈ routinesIn found, ∃ line later header,
      rows.drop (routine.line - lineNumber) = line :: later ∧
        IsBlock line later header routine := by
  induction scanned with
  | finish lineNumber pending =>
      rw [routinesIn_dropped]
      rintro routine ⟨⟩
  | @row lineNumber pending next line later reports found passed rest ih =>
      rw [routinesIn_reports]
      intro routine member
      have further := rest.from_line routine member
      have steps : routine.line - lineNumber = routine.line - (lineNumber + 1) + 1 := by omega
      rw [steps, List.drop_succ_cons]
      exact ih routine member
  | @function lineNumber pending line later gap header block found unmarked read taken rest ih =>
      rw [routinesIn_function]
      refine List.forall_mem_cons.mpr ⟨?_, fun routine member => ?_⟩
      · refine ⟨line, later, header, ?_, taken.isBlock read lineNumber⟩
        change (line :: later).drop (lineNumber - lineNumber) = _
        rw [Nat.sub_self, List.drop_zero]
      · have further := rest.from_line routine member
        obtain ⟨first, after, opened, place, own⟩ := ih routine member
        refine ⟨first, after, opened, ?_, own⟩
        rw [← place, drop_past line later block.laterLines _ (by omega)]
        congr 1
        omega

theorem uncovered_cons (routine : Helper) (routines : List Helper) (line : Nat) :
    uncovered (routine :: routines) line = true ↔
      routine.covers line = false ∧ uncovered routines line = true := by
  simp [uncovered]

theorem Taken.not_covers_iff (taken : Taken line later header block gap) (lineNumber index : Nat) :
    (header.routine lineNumber block).covers (lineNumber + index) = false ↔
      block.rows.length ≤ index := by
  have count := taken.rowCount lineNumber
  have same_line : (header.routine lineNumber block).line = lineNumber := rfl
  simp [Helper.covers, count, same_line]

-- A scan comes to a row: what it found before, what it goes on to find and what waits there.
structure Visit (lineNumber : Nat) (rows : List Bytes) (found before rest : List Finding)
    (waiting : Option Pending) : Prop where
  whole : found = before ++ rest
  scanned : Scanned lineNumber waiting rows rest
  early : ∀ held ∈ waiting, held.line < lineNumber
  reported : ∀ report ∈ diagnosticsIn before, report.line < lineNumber

/-- A scan comes to every row that no block takes, but for blank ones. -/
theorem Scanned.visits (scanned : Scanned lineNumber pending rows found)
    (early : ∀ waiting ∈ pending, waiting.line < lineNumber) (index : Nat) (line : Bytes)
    (later : List Bytes) (place : rows.drop index = line :: later) (solid : isBlank line = false)
    (outside : uncovered (routinesIn found) (lineNumber + index) = true) :
    ∃ before rest waiting, Visit (lineNumber + index) (line :: later) found before rest waiting := by
  induction scanned generalizing index with
  | finish lineNumber pending => simp at place
  | @row lineNumber pending next first after reports found passed rest ih =>
      cases index with
      | zero =>
          cases place
          exact ⟨[], _, pending, rfl, .row passed rest, early, by rintro report ⟨⟩⟩
      | succ index =>
          obtain ⟨report_lines, next_lines⟩ := passed.lines
          have early_next : ∀ waiting ∈ next, waiting.line < lineNumber + 1 := by
            intro waiting member
            rcases next_lines waiting member with own | held
            · omega
            · have := early waiting held
              omega
          have shift : lineNumber + (index + 1) = lineNumber + 1 + index := by omega
          rw [routinesIn_reports] at outside
          rw [shift] at outside ⊢
          obtain ⟨before, remains, waiting, visit⟩ := ih early_next index place outside
          refine ⟨reports.map .diagnostic ++ before, remains, waiting, ?_, visit.scanned,
            visit.early, ?_⟩
          · rw [visit.whole, List.append_assoc]
          · rw [diagnosticsIn_reports]
            refine List.forall_mem_append.mpr ⟨fun report member => ?_, visit.reported⟩
            rcases report_lines report member with own | ⟨waiting, held, same⟩
            · omega
            · have := early waiting held
              omega
  | @function lineNumber pending first after gap header block found unmarked read taken rest ih =>
      rcases Nat.eq_zero_or_pos index with rfl | positive
      · cases place
        exact ⟨[], _, pending, rfl, .function unmarked read taken rest, early,
          by rintro report ⟨⟩⟩
      rw [routinesIn_function, uncovered_cons, taken.not_covers_iff] at outside
      have past : block.laterLines < index := by
        by_contra before
        have blank := taken.gap_blank index line (place_of_drop place) outside.1 (by omega)
        rw [solid] at blank
        cases blank
      have shift : lineNumber + 1 + block.laterLines + (index - (block.laterLines + 1)) =
          lineNumber + index := by omega
      rw [drop_past first after _ index past] at place
      obtain ⟨before, remains, waiting, visit⟩ :=
        ih (by rintro waiting ⟨⟩) _ place (by rw [shift]; exact outside.2)
      rw [shift] at visit
      refine ⟨functionFinding pending lineNumber header block :: before, remains, waiting, ?_,
        visit.scanned, visit.early, ?_⟩
      · rw [visit.whole, List.cons_append]
      · rw [diagnosticsIn_function]
        exact visit.reported

-- A scan that stands at a header finds its function there.
theorem Scanned.opens {line : Bytes} {later : List Bytes} {header : Header}
    (scanned : Scanned lineNumber pending (line :: later) found)
    (read : Header.read line later = .found header) :
    ∃ routine ∈ routinesIn found, routine.line = lineNumber := by
  cases scanned with
  | row passed rest => exact absurd read (passed.no_header header)
  | function unmarked own taken rest =>
      rw [routinesIn_function]
      exact ⟨_, List.mem_cons_self, rfl⟩

-- The findings hold the functions with a route, those without one, and reports.
theorem routinesIn_perm (found : List Finding) :
    (routinesIn found).Perm ((found.filterMap Finding.endpoint?).map Endpoint.routine ++
      found.filterMap Finding.helper?) := by
  induction found with
  | nil => exact List.Perm.refl _
  | cons first rest ih =>
      cases first with
      | endpoint endpoint => exact ih.cons endpoint.routine
      | helper helper =>
          exact (ih.cons helper).trans (List.perm_middle.symm)
      | diagnostic diagnostic => exact ih

theorem Helper.Before.line_lt {first second : Helper} (before : first.Before second) :
    first.line < second.line := by
  unfold Helper.Before Helper.rowCount at before
  omega

theorem findings_in_order (source : Bytes) : (routinesIn (findings source)).Pairwise Helper.Before :=
  (findings_scanned source).in_order

-- Functions one after the other share no line.
theorem lines_apart {routines : List Helper} (ordered : routines.Pairwise Helper.Before) :
    (routines.map Helper.line).Nodup :=
  List.pairwise_map.mpr (ordered.imp fun before => Nat.ne_of_lt before.line_lt)

theorem routines_perm (source : Bytes) : (parse source).routines.Perm
    ((parse source).endpoints.map Endpoint.routine ++ (parse source).helpers) :=
  List.mergeSort_perm _ _

/-- The functions of a source in the order of their lines are those of its scan. -/
theorem parse_routines (source : Bytes) :
    (parse source).routines = routinesIn (findings source) := by
  have ordered := findings_in_order source
  have perm : (parse source).routines.Perm (routinesIn (findings source)) :=
    (routines_perm source).trans (routinesIn_perm _).symm
  have sorted : (parse source).routines.Pairwise fun first second => first.line ≤ second.line := by
    have merged := @List.pairwise_mergeSort Helper
      (fun first second => decide (first.line ≤ second.line)) (by simp; omega) (by simp; omega)
      ((parse source).endpoints.map Endpoint.routine ++ (parse source).helpers)
    exact merged.imp of_decide_eq_true
  -- No two functions share a line, so the sorted order is the only one.
  refine List.Perm.eq_of_pairwise ?_ sorted
    (ordered.imp fun before => Nat.le_of_lt before.line_lt) perm
  intro first second left right below above
  exact List.inj_on_of_nodup_map (lines_apart ordered) (perm.subset left) right
    (Nat.le_antisymm below above)

theorem routines_alone (source : Bytes) : ((parse source).routines.map Helper.line).Nodup := by
  rw [parse_routines]
  exact lines_apart (findings_in_order source)

theorem routine_of_line (source : Bytes) (first second : Helper)
    (left : first ∈ (parse source).routines) (right : second ∈ (parse source).routines)
    (same : first.line = second.line) : first = second :=
  List.inj_on_of_nodup_map (routines_alone source) left right same

theorem endpoint_routine_mem (source : Bytes) (endpoint : Endpoint)
    (member : endpoint ∈ (parse source).endpoints) :
    endpoint.routine ∈ (parse source).routines :=
  (routines_perm source).mem_iff.mpr
    (List.mem_append_left _ (List.mem_map_of_mem member))

theorem endpoints_in_order (source : Bytes) : (parse source).endpoints.Pairwise
    fun first second => first.routine.Before second.routine := by
  have ordered := List.pairwise_filterMap.mp (findings_in_order source)
  refine List.pairwise_filterMap.mpr (ordered.imp ?_)
  intro one other before first here second there
  cases one <;> cases here
  cases other <;> cases there
  exact before _ rfl _ rfl

theorem endpoints_alone (source : Bytes) :
    ((parse source).endpoints.map Endpoint.line).Nodup :=
  List.pairwise_map.mpr
    ((endpoints_in_order source).imp fun before => Nat.ne_of_lt before.line_lt)

theorem helpers_in_order (source : Bytes) : (parse source).helpers.Pairwise Helper.Before := by
  have ordered := List.pairwise_filterMap.mp (findings_in_order source)
  refine List.pairwise_filterMap.mpr (ordered.imp ?_)
  intro one other before first here second there
  cases one <;> cases here
  cases other <;> cases there
  exact before _ rfl _ rfl

structure ExactlyExtracted (source : Bytes) : Prop where
  blocks : ∀ routine ∈ (parse source).routines, ∃ line later header,
    0 < routine.line ∧ (lines source).drop (routine.line - 1) = line :: later ∧
      IsBlock line later header routine
  ordered : (parse source).routines.Pairwise Helper.Before
  endpoints : (parse source).endpoints.Pairwise
    fun first second => first.routine.Before second.routine
  helpers : (parse source).helpers.Pairwise Helper.Before
  complete : ∀ index line later header, (lines source).drop index = line :: later →
    uncovered (parse source).routines (index + 1) = true →
      Header.read line later ≠ .found header

theorem parse_extracts (source : Bytes) : ExactlyExtracted source := by
  have scanned := findings_scanned source
  constructor
  · rw [parse_routines]
    intro routine member
    obtain ⟨line, later, header, place, block⟩ := scanned.blocks routine member
    exact ⟨line, later, header, scanned.from_line routine member, place, block⟩
  · rw [parse_routines]
    exact findings_in_order source
  · exact endpoints_in_order source
  · exact helpers_in_order source
  · rw [parse_routines]
    intro index line later header place outside opens
    obtain ⟨opened, _, word, _⟩ := read_found line later header opens
    rw [Nat.add_comm] at outside
    obtain ⟨before, rest, waiting, visit⟩ := scanned.visits (by rintro waiting ⟨⟩) index line
      later place (definition_solid line _ opened word) outside
    obtain ⟨routine, member, own_line⟩ := visit.scanned.opens opens
    have found_here : routine ∈ routinesIn (findings source) := by
      rw [visit.whole, routinesIn, List.filterMap_append]
      exact List.mem_append_right _ member
    have apart := List.all_eq_true.mp outside routine found_here
    rw [← own_line, routine.covers_line] at apart
    cases apart

end EndpointPreview.Notation
