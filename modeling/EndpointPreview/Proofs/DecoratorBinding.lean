import EndpointPreview.Proofs.FunctionBlocks

/-!
What becomes of the decorators of a source. Each marked row outside the functions is read or
reported; a decorator that was read belongs to one endpoint, is reported as ignored, or the
function after it is reported.
-/

namespace EndpointPreview.Notation

open Text

structure Marks (row : Bytes) (reading : Except DecoratorError Decorator) : Prop where
  marked : startsWithMarker (trim row) = true
  read : Decorator.ofLine (trim row) = reading

-- The row may stand between a decorator and its function, and holds no decorator itself.
structure Separates (row : Bytes) : Prop where
  light : isBlank row = true ∨ (trim row).head? = some (byte '#') ∨
    (trim row).head? = some (byte '@')
  alone : ∀ decorator, ¬ Marks row (.ok decorator)

-- The endpoint is the decorator's: it has its route and method, and only separating rows stand
-- before it, from the row at the line number on.
structure Follows (decorator : Decorator) (lineNumber : Nat) (rows : List Bytes)
    (endpoint : Endpoint) : Prop where
  route : endpoint.route = decorator.route
  method : endpoint.method = decorator.method
  after : lineNumber ≤ endpoint.line
  between : ∀ row ∈ rows.take (endpoint.line - lineNumber), Separates row

-- The row at the index is a marked row outside the functions; the later rows come after it.
structure MarkedAt (lineNumber : Nat) (rows : List Bytes) (routines : List Helper) (index : Nat)
    (later : List Bytes) (reading : Except DecoratorError Decorator) : Prop where
  here : ∃ row, rows.drop index = row :: later ∧ Marks row reading
  outside : uncovered routines (lineNumber + index) = true

def Binds (lineNumber : Nat) (rows : List Bytes) (routines : List Helper) (index : Nat)
    (endpoint : Endpoint) : Prop :=
  ∃ later decorator, MarkedAt lineNumber rows routines index later (.ok decorator) ∧
    Follows decorator (lineNumber + index + 1) later endpoint

def reportsAt (line : Nat) (diagnostics : List Diagnostic) : List Diagnostic :=
  diagnostics.filter (·.line == line)

-- The decorator has no endpoint and is reported as ignored, or the definition after it is reported.
inductive Reported (waiting : Pending) (lineNumber : Nat) (rows : List Bytes)
    (diagnostics : List Diagnostic) : Prop where
  | ignored (reason : DropReason)
      (reported : reportsAt waiting.line diagnostics =
        [⟨waiting.line, .dropped waiting.decorator.route reason⟩])
  | broken (index : Nat) (line : Bytes) (later : List Bytes) (problem : HeaderProblem)
      (between : ∀ row ∈ rows.take index, Separates row)
      (place : rows.drop index = line :: later)
      (read : Header.read line later = .malformed problem)
      (reported : ⟨lineNumber + index, .header problem⟩ ∈ diagnostics)
      (silent : reportsAt waiting.line diagnostics = [])

inductive Outcome (waiting : Pending) (lineNumber : Nat) (rows : List Bytes)
    (endpoints : List Endpoint) (diagnostics : List Diagnostic) : Prop where
  | bound (endpoint : Endpoint) (member : endpoint ∈ endpoints)
      (follows : Follows waiting.decorator lineNumber rows endpoint)
      (silent : reportsAt waiting.line diagnostics = [])
  | reported (reported : Reported waiting lineNumber rows diagnostics)

theorem startsWith_byte (first : UInt8) (text : Bytes) :
    startsWith [first] text = true ↔ text.head? = some first := by
  cases text with
  | nil => simp [startsWith]
  | cons b rest =>
      simp only [startsWith, List.isPrefixOf_cons_cons, List.isPrefixOf_nil_left, Bool.and_true,
        beq_iff_eq, List.head?_cons, Option.some.injEq]
      exact eq_comm

theorem keepsPending_iff (row : Bytes) : keepsPending (trim row) = true ↔
    isBlank row = true ∨ (trim row).head? = some (byte '#') ∨
      (trim row).head? = some (byte '@') := by
  have hash : ascii "#" = [byte '#'] := rfl
  have sign : ascii "@" = [byte '@'] := rfl
  rw [keepsPending, Bool.or_eq_true, Bool.or_eq_true, hash, sign, startsWith_byte,
    startsWith_byte, List.isEmpty_iff, trim_eq_nil_iff, or_assoc]

theorem Marks.light {row : Bytes} {reading : Except DecoratorError Decorator}
    (marks : Marks row reading) : keepsPending (trim row) = true := by
  obtain ⟨starts, _⟩ := Bool.and_eq_true_iff.mp marks.marked
  obtain ⟨rest, whole⟩ := List.isPrefixOf_iff_prefix.mp starts
  rw [← whole]
  rfl

theorem Marks.solid {row : Bytes} {reading : Except DecoratorError Decorator}
    (marks : Marks row reading) : isBlank row = false := by
  by_contra blank
  have marked := marks.marked
  rw [(trim_eq_nil_iff row).mpr (by simpa using blank)] at marked
  cases marked

theorem Marks.separates {row : Bytes} {error : DecoratorError} (marks : Marks row (.error error)) :
    Separates row := by
  refine ⟨(keepsPending_iff row).mp marks.light, fun decorator other => ?_⟩
  cases marks.read.symm.trans other.read

theorem unmarked_separates {row : Bytes} (unmarked : startsWithMarker (trim row) = false)
    (keeps : keepsPending (trim row) = true) : Separates row := by
  refine ⟨(keepsPending_iff row).mp keeps, fun decorator marks => ?_⟩
  cases unmarked.symm.trans marks.marked

theorem Separates.no_header {line : Bytes} (separates : Separates line) (later : List Bytes)
    (header : Header) : Header.read line later ≠ .found header := by
  intro found
  have light := (keepsPending_iff line).mpr separates.light
  rw [found_front line later header found] at light
  cases light

theorem Follows.step {decorator : Decorator} {lineNumber : Nat} {line : Bytes}
    {later : List Bytes} {endpoint : Endpoint}
    (follows : Follows decorator (lineNumber + 1) later endpoint) (separates : Separates line) :
    Follows decorator lineNumber (line :: later) endpoint where
  route := follows.route
  method := follows.method
  after := Nat.le_of_succ_le follows.after
  between := by
    have after := follows.after
    have count : endpoint.line - lineNumber = endpoint.line - (lineNumber + 1) + 1 := by omega
    rw [count, List.take_succ_cons]
    exact List.forall_mem_cons.mpr ⟨separates, follows.between⟩

theorem reportsAt_append (line : Nat) (left right : List Diagnostic) :
    reportsAt line (left ++ right) = reportsAt line left ++ reportsAt line right :=
  List.filter_append ..

theorem reportsAt_apart (line : Nat) (reports : List Diagnostic)
    (apart : ∀ report ∈ reports, report.line ≠ line) :
    reportsAt line reports = [] := by
  simpa [reportsAt, List.filter_eq_nil_iff] using apart

variable {lineNumber : Nat} {pending : Option Pending} {rows : List Bytes} {found : List Finding}

/-- A scan reports no row before those it reads, but for the one of the decorator that waits. -/
theorem Scanned.silent (scanned : Scanned lineNumber pending rows found) (line : Nat)
    (before : line < lineNumber) (other : ∀ waiting ∈ pending, waiting.line ≠ line) :
    reportsAt line (diagnosticsIn found) = [] := by
  induction scanned with
  | finish lineNumber pending =>
      rw [diagnosticsIn_map]
      apply reportsAt_apart
      intro report member
      obtain ⟨waiting, inside, rfl⟩ := List.mem_map.mp member
      exact other waiting (Option.mem_toList.mp inside)
  | @row lineNumber pending next first later reports found passed rest ih =>
      obtain ⟨report_lines, next_lines⟩ := passed.lines
      have here : ∀ report ∈ reports, report.line ≠ line := by
        intro report member
        rcases report_lines report member with own | ⟨waiting, held, same⟩
        · omega
        · rw [same]
          exact other waiting held
      rw [diagnosticsIn_reports, reportsAt_append, reportsAt_apart line _ here, List.nil_append]
      apply ih (by omega)
      intro waiting member
      rcases next_lines waiting member with own | held
      · omega
      · exact other waiting held
  | function unmarked read taken rest ih =>
      rw [diagnosticsIn_function]
      exact ih (by omega) (by rintro waiting ⟨⟩)

/-- Other findings before those change nothing, as long as they report other lines. -/
theorem Outcome.further {waiting : Pending} {endpoints all : List Endpoint}
    {reports diagnostics : List Diagnostic}
    (outcome : Outcome waiting lineNumber rows endpoints diagnostics) (held : endpoints ⊆ all)
    (elsewhere : ∀ report ∈ reports, report.line ≠ waiting.line) :
    Outcome waiting lineNumber rows all (reports ++ diagnostics) := by
  have same : reportsAt waiting.line (reports ++ diagnostics) =
      reportsAt waiting.line diagnostics := by
    rw [reportsAt_append, reportsAt_apart _ reports elsewhere, List.nil_append]
  cases outcome with
  | bound endpoint member follows silent =>
      exact .bound endpoint (held member) follows (same.trans silent)
  | reported reported =>
      refine .reported ?_
      cases reported with
      | ignored reason reported => exact .ignored reason (same.trans reported)
      | broken index row later problem between place read reported silent =>
          exact .broken index row later problem between place read
            (List.mem_append_right _ reported) (same.trans silent)

theorem Outcome.step {waiting : Pending} {line : Bytes} {endpoints : List Endpoint}
    {diagnostics : List Diagnostic}
    (outcome : Outcome waiting (lineNumber + 1) rows endpoints diagnostics)
    (separates : Separates line) :
    Outcome waiting lineNumber (line :: rows) endpoints diagnostics := by
  cases outcome with
  | bound endpoint member follows silent =>
      exact .bound endpoint member (follows.step separates) silent
  | reported reported =>
      refine .reported ?_
      cases reported with
      | ignored reason reported => exact .ignored reason reported
      | broken index row later problem between place read reported silent =>
          refine .broken (index + 1) row later problem ?_ place read ?_ silent
          · rw [List.take_succ_cons]
            exact List.forall_mem_cons.mpr ⟨separates, between⟩
          · rw [show lineNumber + (index + 1) = lineNumber + 1 + index by omega]
            exact reported

-- The function after a waiting decorator is its endpoint.
theorem functionFinding_follows (waiting : Pending) (lineNumber : Nat) (header : Header)
    (block : Block) (rows : List Bytes) :
    ∃ endpoint, functionFinding (some waiting) lineNumber header block = .endpoint endpoint ∧
      Follows waiting.decorator lineNumber rows endpoint :=
  ⟨_, rfl, rfl, rfl, Nat.le_refl _, by simp⟩

/-- The decorator that waits is bound, reported as ignored, or goes with a reported function. -/
theorem Scanned.outcome {waiting : Pending}
    (scanned : Scanned lineNumber (some waiting) rows found) (early : waiting.line < lineNumber) :
    Outcome waiting lineNumber rows (endpointsIn found) (diagnosticsIn found) := by
  have own (reason : DropReason) : reportsAt waiting.line (dropped (some waiting) reason) =
      [⟨waiting.line, .dropped waiting.decorator.route reason⟩] := by
    simp [reportsAt, dropped]
  generalize held : some waiting = pending at scanned
  induction scanned with
  | finish lineNumber pending =>
      subst held
      rw [diagnosticsIn_map]
      exact .reported (.ignored .endOfInput (own _))
  | @row lineNumber pending next line later reports found passed rest ih =>
      subst held
      have here (cause : DiagnosticCause) : ∀ report ∈ [(⟨lineNumber, cause⟩ : Diagnostic)],
          report.line ≠ waiting.line := by
        intro report member
        rw [List.mem_singleton.mp member]
        exact Nat.ne_of_gt early
      rw [endpointsIn_reports, diagnosticsIn_reports]
      cases passed with
      | decorator decorator marked read =>
          refine .reported (.ignored .anotherDecorator ?_)
          have after := rest.silent waiting.line (by omega)
            (by rintro other ⟨⟩; exact Nat.ne_of_gt early)
          rw [reportsAt_append, own, after, List.append_nil]
      | unrecognized error marked read =>
          refine ((ih (by omega) rfl).step (Marks.separates ⟨marked, read⟩)).further
            (List.Subset.refl _) (here _)
      | malformed problem unmarked read =>
          refine .reported (.broken 0 line later problem (by simp) rfl read (by simp) ?_)
          have after := rest.silent waiting.line (by omega) (by rintro other ⟨⟩)
          rw [reportsAt_append, reportsAt_apart _ _ (here _), after]
          rfl
      | between unmarked absent keeps =>
          exact (ih (by omega) rfl).step (unmarked_separates unmarked keeps)
      | other unmarked absent stops =>
          refine .reported (.ignored .notBeforeDefinition ?_)
          have after := rest.silent waiting.line (by omega) (by rintro other ⟨⟩)
          rw [reportsAt_append, own, after, List.append_nil]
  | @function lineNumber pending line later gap header block found unmarked read taken rest ih =>
      subst held
      rw [diagnosticsIn_function]
      obtain ⟨endpoint, same, follows⟩ :=
        functionFinding_follows waiting lineNumber header block (line :: later)
      rw [same]
      exact .bound endpoint List.mem_cons_self follows
        (rest.silent waiting.line (by omega) (by rintro other ⟨⟩))

-- A scan that stands at a marked row reports it or keeps its decorator.
theorem Scanned.reads_error {row : Bytes} {error : DecoratorError}
    (scanned : Scanned lineNumber pending (row :: rows) found)
    (early : ∀ waiting ∈ pending, waiting.line < lineNumber) (marks : Marks row (.error error)) :
    reportsAt lineNumber (diagnosticsIn found) = [⟨lineNumber, .unrecognized error⟩] := by
  cases scanned with
  | row passed rest =>
      rw [diagnosticsIn_reports, reportsAt_append]
      cases passed with
      | decorator decorator marked read => cases marks.read.symm.trans read
      | unrecognized other marked read =>
          cases marks.read.symm.trans read
          have after := rest.silent lineNumber (Nat.lt_succ_self _)
            fun waiting held => Nat.ne_of_lt (early waiting held)
          rw [after]
          simp [reportsAt]
      | malformed problem unmarked read => cases marks.marked.symm.trans unmarked
      | between unmarked absent keeps => cases marks.marked.symm.trans unmarked
      | other unmarked absent stops => cases marks.marked.symm.trans unmarked
  | function unmarked read taken rest => cases marks.marked.symm.trans unmarked

-- A scan that stands at a decorator goes on with that decorator.
theorem Scanned.takes_decorator {row : Bytes} {decorator : Decorator}
    (scanned : Scanned lineNumber pending (row :: rows) found) (marks : Marks row (.ok decorator)) :
    ∃ rest, found = (dropped pending .anotherDecorator).map .diagnostic ++ rest ∧
      Scanned (lineNumber + 1) (some ⟨decorator, lineNumber⟩) rows rest := by
  cases scanned with
  | row passed rest =>
      cases passed with
      | decorator other marked read =>
          cases marks.read.symm.trans read
          exact ⟨_, rfl, rest⟩
      | unrecognized error marked read => cases marks.read.symm.trans read
      | malformed problem unmarked read => cases marks.marked.symm.trans unmarked
      | between unmarked absent keeps => cases marks.marked.symm.trans unmarked
      | other unmarked absent stops => cases marks.marked.symm.trans unmarked
  | function unmarked read taken rest => cases marks.marked.symm.trans unmarked

theorem Scanned.reads_decorator {row : Bytes} {decorator : Decorator}
    (scanned : Scanned lineNumber pending (row :: rows) found)
    (early : ∀ waiting ∈ pending, waiting.line < lineNumber) (marks : Marks row (.ok decorator)) :
    Outcome ⟨decorator, lineNumber⟩ (lineNumber + 1) rows (endpointsIn found)
      (diagnosticsIn found) := by
  obtain ⟨rest, rfl, after⟩ := scanned.takes_decorator marks
  rw [endpointsIn_reports, diagnosticsIn_reports]
  refine (after.outcome (Nat.lt_succ_self _)).further (List.Subset.refl _) ?_
  intro report member
  obtain ⟨waiting, held, rfl⟩ := List.mem_map.mp member
  exact Nat.ne_of_lt (early waiting (Option.mem_toList.mp held))

section Marked

variable {index : Nat} {later : List Bytes}

theorem Scanned.marked_error {error : DecoratorError} (scanned : Scanned lineNumber none rows found)
    (marked : MarkedAt lineNumber rows (routinesIn found) index later (.error error)) :
    reportsAt (lineNumber + index) (diagnosticsIn found) =
      [⟨lineNumber + index, .unrecognized error⟩] := by
  obtain ⟨⟨row, place, marks⟩, outside⟩ := marked
  obtain ⟨before, rest, waiting, visit⟩ :=
    scanned.visits (by rintro waiting ⟨⟩) index row later place marks.solid outside
  rw [visit.whole, diagnosticsIn_append, reportsAt_append,
    reportsAt_apart _ _ fun report member => Nat.ne_of_lt (visit.reported report member)]
  exact visit.scanned.reads_error visit.early marks

theorem Scanned.marked_decorator {decorator : Decorator}
    (scanned : Scanned lineNumber none rows found)
    (marked : MarkedAt lineNumber rows (routinesIn found) index later (.ok decorator)) :
    Outcome ⟨decorator, lineNumber + index⟩ (lineNumber + index + 1) later (endpointsIn found)
      (diagnosticsIn found) := by
  obtain ⟨⟨row, place, marks⟩, outside⟩ := marked
  obtain ⟨before, rest, waiting, visit⟩ :=
    scanned.visits (by rintro waiting ⟨⟩) index row later place marks.solid outside
  have outcome := visit.scanned.reads_decorator visit.early marks
  rw [visit.whole, diagnosticsIn_append]
  refine outcome.further ?_ fun report member => Nat.ne_of_lt (visit.reported report member)
  rw [endpointsIn_append]
  exact List.subset_append_right _ _

end Marked

theorem Binds.later (rows : List Bytes) {skipped index : Nat} {routines all : List Helper}
    {endpoint : Endpoint}
    (binds : Binds (lineNumber + skipped) (rows.drop skipped) routines index endpoint)
    (outside : uncovered routines (lineNumber + (skipped + index)) = true →
      uncovered all (lineNumber + (skipped + index)) = true) :
    Binds lineNumber rows all (skipped + index) endpoint := by
  obtain ⟨later, decorator, ⟨⟨row, place, marks⟩, apart⟩, follows⟩ := binds
  rw [Nat.add_assoc lineNumber] at apart follows
  refine ⟨later, decorator, ⟨⟨row, ?_, marks⟩, outside apart⟩, follows⟩
  rw [← place, List.drop_drop]

theorem uncovered_before (routines : List Helper) (line : Nat)
    (before : ∀ routine ∈ routines, line < routine.line) : uncovered routines line = true := by
  refine List.all_eq_true.mpr fun routine member => ?_
  have outside := before routine member
  have apart : ¬ routine.line ≤ line := by omega
  simp [Helper.covers, apart]

theorem mem_endpointsIn_function {header : Header} {block : Block} {endpoint : Endpoint}
    (member : endpoint ∈ endpointsIn (functionFinding pending lineNumber header block :: found)) :
    (∃ waiting ∈ pending, Follows waiting.decorator lineNumber rows endpoint) ∨
      endpoint ∈ endpointsIn found := by
  cases pending with
  | none => exact .inr member
  | some waiting =>
      obtain ⟨own, same, follows⟩ := functionFinding_follows waiting lineNumber header block rows
      rw [same] at member
      rcases List.mem_cons.mp member with rfl | later
      · exact .inl ⟨waiting, rfl, follows⟩
      · exact .inr later

/-- An endpoint belongs to the decorator that waits or to one of a marked row of its own. -/
theorem Scanned.origin (scanned : Scanned lineNumber pending rows found) :
    ∀ endpoint ∈ endpointsIn found,
      (∃ waiting ∈ pending, Follows waiting.decorator lineNumber rows endpoint) ∨
        ∃ index, Binds lineNumber rows (routinesIn found) index endpoint := by
  induction scanned with
  | finish lineNumber pending =>
      rw [← List.append_nil (List.map _ _), endpointsIn_reports]
      rintro endpoint ⟨⟩
  | @row lineNumber pending next line later reports found passed rest ih =>
      rw [endpointsIn_reports, routinesIn_reports]
      intro endpoint member
      rcases ih endpoint member with ⟨waiting, held, follows⟩ | ⟨index, binds⟩
      · cases passed with
        | decorator decorator marked read =>
            cases held
            refine .inr ⟨0, later, decorator, ⟨⟨line, rfl, marked, read⟩, ?_⟩, follows⟩
            exact uncovered_before _ _ rest.from_line
        | unrecognized error marked read =>
            exact .inl ⟨waiting, held, follows.step (Marks.separates ⟨marked, read⟩)⟩
        | malformed problem unmarked read => cases held
        | between unmarked absent keeps =>
            exact .inl ⟨waiting, held, follows.step (unmarked_separates unmarked keeps)⟩
        | other unmarked absent stops => cases held
      · exact .inr ⟨1 + index, binds.later (line :: later) id⟩
  | @function lineNumber pending line later gap header block found unmarked read taken rest ih =>
      intro endpoint member
      rcases mem_endpointsIn_function member with held | after
      · exact .inl held
      rcases ih endpoint after with ⟨waiting, held, _⟩ | ⟨index, binds⟩
      · cases held
      · have shift : lineNumber + 1 + block.laterLines = lineNumber + (block.laterLines + 1) := by
          omega
        rw [shift] at binds
        refine .inr ⟨block.laterLines + 1 + index, binds.later (line :: later) ?_⟩
        intro outside
        have length := taken.length
        rw [routinesIn_function, uncovered_cons, taken.not_covers_iff]
        exact ⟨by omega, outside⟩

theorem mem_take_of_drop {α : Type} {items rest : List α} {item : α} {index count : Nat}
    (place : items.drop index = item :: rest) (before : index < count) :
    item ∈ items.take count := by
  rw [List.mem_iff_getElem?]
  exact ⟨index, by rw [List.getElem?_take_of_lt before, place_of_drop place]⟩

theorem Follows.separates {decorator : Decorator} {index other : Nat} {first row : Bytes}
    {later rest : List Bytes} {endpoint : Endpoint}
    (follows : Follows decorator (lineNumber + index + 1) later endpoint)
    (place : rows.drop index = first :: later) (there : rows.drop other = row :: rest)
    (past : index < other) (before : lineNumber + other < endpoint.line) : Separates row := by
  have own : later = rows.drop (index + 1) := by
    rw [← List.drop_drop, place]
    rfl
  have here : later.drop (other - (index + 1)) = row :: rest := by
    rw [own, List.drop_drop, ← there]
    congr 1
    omega
  exact follows.between row (mem_take_of_drop here (by omega))

/-- The decorator of an endpoint is the last one before it. -/
theorem Binds.not_before {routines : List Helper} {index other : Nat} {endpoint : Endpoint}
    (binds : Binds lineNumber rows routines index endpoint)
    (again : Binds lineNumber rows routines other endpoint) : ¬ index < other := by
  intro past
  obtain ⟨later, decorator, ⟨⟨row, place, marks⟩, apart⟩, follows⟩ := binds
  obtain ⟨rest, second, ⟨⟨next, there, next_marks⟩, _⟩, next_follows⟩ := again
  have after := next_follows.after
  exact (follows.separates place there past (by omega)).alone second next_marks

/-- Between a decorator and its endpoint no function starts. -/
theorem Binds.no_function {routines : List Helper} {index other : Nat} {endpoint : Endpoint}
    {line : Bytes} {later : List Bytes} {header : Header}
    (binds : Binds lineNumber rows routines index endpoint)
    (there : rows.drop other = line :: later) (read : Header.read line later = .found header)
    (past : index < other) : ¬ lineNumber + other < endpoint.line := by
  intro before
  obtain ⟨rest, decorator, ⟨⟨row, place, marks⟩, apart⟩, follows⟩ := binds
  exact (follows.separates place there past before).no_header later header read

def markedRows (lineNumber : Nat) (rows : List Bytes) (routines : List Helper) : Nat :=
  (rows.zipIdx lineNumber).countP fun (row, line) =>
    startsWithMarker (trim row) && uncovered routines line

theorem markedRows_cons (row : Bytes) (later : List Bytes) (routines : List Helper) :
    markedRows lineNumber (row :: later) routines =
      markedRows (lineNumber + 1) later routines +
        if startsWithMarker (trim row) && uncovered routines lineNumber then 1 else 0 := by
  rw [markedRows, List.zipIdx_cons, List.countP_cons]
  rfl

theorem markedRows_append (left right : List Bytes) (routines : List Helper) :
    markedRows lineNumber (left ++ right) routines =
      markedRows lineNumber left routines +
        markedRows (lineNumber + left.length) right routines := by
  rw [markedRows, List.zipIdx_append, List.countP_append]
  rfl

theorem markedRows_none (rows : List Bytes) (routines : List Helper)
    (clear : ∀ index row, rows[index]? = some row → startsWithMarker (trim row) = false ∨
      uncovered routines (lineNumber + index) = false) :
    markedRows lineNumber rows routines = 0 := by
  refine List.countP_eq_zero.mpr fun (row, line) member => ?_
  obtain ⟨low, place⟩ := List.mk_mem_zipIdx_iff_le_and_getElem?_sub.mp member
  have either := clear _ row place
  rw [Nat.add_sub_cancel' low] at either
  rcases either with unmarked | covered
  · simp [unmarked]
  · simp [covered]

theorem blank_unmarked (row : Bytes) (blank : isBlank row = true) :
    startsWithMarker (trim row) = false := by
  rw [(trim_eq_nil_iff row).mpr blank]
  rfl

theorem Taken.markedRows_le {line : Bytes} {later gap : List Bytes} {header : Header}
    {block : Block} (taken : Taken line later header block gap) (lineNumber : Nat)
    (routines : List Helper) :
    markedRows lineNumber (line :: later) (header.routine lineNumber block :: routines) ≤
      markedRows (lineNumber + 1 + block.laterLines) (later.drop block.laterLines) routines := by
  have inside : markedRows lineNumber block.rows (header.routine lineNumber block :: routines) =
      0 := by
    refine markedRows_none _ _ fun index row place => .inr ?_
    have bound := (List.getElem?_eq_some_iff.mp place).1
    rw [Bool.eq_false_iff, ne_eq, uncovered_cons, taken.not_covers_iff]
    omega
  have passed : markedRows (lineNumber + block.rows.length) gap
      (header.routine lineNumber block :: routines) = 0 :=
    markedRows_none _ _ fun index row place =>
      .inl (blank_unmarked row (taken.blank row (List.mem_of_getElem? place)))
  have shift : lineNumber + block.rows.length + gap.length = lineNumber + 1 + block.laterLines := by
    have length := taken.length
    omega
  rw [taken.whole, markedRows_append, markedRows_append, inside, passed, shift, Nat.zero_add,
    Nat.zero_add]
  refine List.countP_mono_left fun (row, line) _ counted => ?_
  simp only [Bool.and_eq_true, uncovered_cons] at counted ⊢
  exact ⟨counted.1, counted.2.2⟩

/-- Each marked row outside the functions, and the decorator that waits, has an endpoint or a
report of its own. -/
theorem Scanned.counts (scanned : Scanned lineNumber pending rows found) :
    markedRows lineNumber rows (routinesIn found) + pending.toList.length ≤
      (endpointsIn found).length + (diagnosticsIn found).length := by
  induction scanned with
  | finish lineNumber pending =>
      rw [diagnosticsIn_map, dropped, List.length_map]
      simp [markedRows]
  | @row lineNumber pending next line later reports found passed rest ih =>
      rw [endpointsIn_reports, diagnosticsIn_reports, routinesIn_reports, markedRows_cons,
        List.length_append]
      have at_most_one : pending.toList.length ≤ 1 := by cases pending <;> simp
      have one_row : (if startsWithMarker (trim line) &&
          uncovered (routinesIn found) lineNumber then 1 else 0) ≤ 1 := by split <;> omega
      cases passed with
      | decorator decorator marked read =>
          rw [dropped, List.length_map]
          simp only [Option.toList_some, List.length_singleton] at ih
          omega
      | unrecognized error marked read =>
          rw [List.length_singleton]
          omega
      | malformed problem unmarked read =>
          rw [unmarked, Bool.false_and, if_neg (by simp), List.length_singleton]
          simp only [Option.toList_none, List.length_nil] at ih
          omega
      | between unmarked absent keeps =>
          rw [unmarked, Bool.false_and, if_neg (by simp), List.length_nil]
          omega
      | other unmarked absent stops =>
          rw [unmarked, Bool.false_and, if_neg (by simp), dropped, List.length_map]
          simp only [Option.toList_none, List.length_nil] at ih
          omega
  | @function lineNumber pending line later gap header block found unmarked read taken rest ih =>
      have fewer := taken.markedRows_le lineNumber (routinesIn found)
      rw [diagnosticsIn_function, routinesIn_function]
      simp only [Option.toList_none, List.length_nil] at ih
      cases pending with
      | none =>
          change _ + 0 ≤ (endpointsIn found).length + _
          omega
      | some waiting =>
          change _ + 1 ≤ (endpointsIn found).length + 1 + _
          omega

theorem Marks.inside {row : Bytes} {reading : Except DecoratorError Decorator}
    (marks : Marks row reading) : marker <:+: row := by
  obtain ⟨starts, _⟩ := Bool.and_eq_true_iff.mp marks.marked
  exact (List.isPrefixOf_iff_prefix.mp starts).isInfix.trans (trim_inside row)

structure DecoratorsAccounted (source : Bytes) : Prop where
  bound : ∀ endpoint ∈ (parse source).endpoints,
    ∃! index, Binds 1 (lines source) (parse source).routines index endpoint
  once : ∀ index, ∀ first ∈ (parse source).endpoints, ∀ second ∈ (parse source).endpoints,
    Binds 1 (lines source) (parse source).routines index first →
      Binds 1 (lines source) (parse source).routines index second → first = second
  unrecognized : ∀ index later error,
    MarkedAt 1 (lines source) (parse source).routines index later (.error error) →
      reportsAt (1 + index) (parse source).diagnostics = [⟨1 + index, .unrecognized error⟩]
  recognized : ∀ index later decorator,
    MarkedAt 1 (lines source) (parse source).routines index later (.ok decorator) →
      (∃ endpoint ∈ (parse source).endpoints,
        Binds 1 (lines source) (parse source).routines index endpoint ∧
          reportsAt (1 + index) (parse source).diagnostics = []) ∨
        Reported ⟨decorator, 1 + index⟩ (1 + index + 1) later (parse source).diagnostics
  counted : markedRows 1 (lines source) (parse source).routines ≤
    (parse source).endpoints.length + (parse source).diagnostics.length
  marked : (parse source).endpoints ≠ [] → hasMarker source = true

theorem endpoint_bound (source : Bytes) (endpoint : Endpoint)
    (member : endpoint ∈ (parse source).endpoints) :
    ∃ index, Binds 1 (lines source) (parse source).routines index endpoint := by
  rw [parse_routines]
  rcases (findings_scanned source).origin endpoint member with ⟨waiting, held, _⟩ | bound
  · cases held
  · exact bound

theorem endpoint_header (source : Bytes) (endpoint : Endpoint)
    (member : endpoint ∈ (parse source).endpoints) :
    ∃ index line later header, endpoint.line = 1 + index ∧
      (lines source).drop index = line :: later ∧ Header.read line later = .found header := by
  have scanned := findings_scanned source
  have routine : endpoint.routine ∈ routinesIn (findings source) :=
    List.mem_filterMap.mpr ⟨_, endpoint_finding source endpoint member, rfl⟩
  have positive : 1 ≤ endpoint.line := scanned.from_line _ routine
  obtain ⟨line, later, header, place, block⟩ := scanned.blocks _ routine
  exact ⟨endpoint.line - 1, line, later, header, by omega, place, block.opens⟩

-- A decorator that had two endpoints would have the first one's header behind it.
theorem Binds.endpoint_not_before {source : Bytes} {routines : List Helper} {index : Nat}
    {first second : Endpoint} (member : first ∈ (parse source).endpoints)
    (binds : Binds 1 (lines source) routines index first)
    (again : Binds 1 (lines source) routines index second) : ¬ first.line < second.line := by
  obtain ⟨other, line, later, header, same_line, place, read⟩ := endpoint_header source first member
  obtain ⟨_, _, _, follows⟩ := binds
  have after := follows.after
  rw [same_line] at after ⊢
  exact again.no_function place read (by omega)

theorem endpoint_of_line (source : Bytes) (first second : Endpoint)
    (left : first ∈ (parse source).endpoints) (right : second ∈ (parse source).endpoints)
    (same : first.line = second.line) : first = second :=
  List.inj_on_of_nodup_map (endpoints_alone source) left right same

theorem parse_accounts (source : Bytes) : DecoratorsAccounted source := by
  have scanned := findings_scanned source
  constructor
  · intro endpoint member
    obtain ⟨index, binds⟩ := endpoint_bound source endpoint member
    refine ⟨index, binds, fun other again => ?_⟩
    exact Nat.le_antisymm (Nat.le_of_not_lt (binds.not_before again))
      (Nat.le_of_not_lt (again.not_before binds))
  · intro index first left second right binds again
    apply endpoint_of_line source first second left right
    exact Nat.le_antisymm (Nat.le_of_not_lt (again.endpoint_not_before right binds))
      (Nat.le_of_not_lt (binds.endpoint_not_before left again))
  · rw [parse_routines]
    exact fun index later error marked => scanned.marked_error marked
  · rw [parse_routines]
    intro index later decorator marked
    cases scanned.marked_decorator marked with
    | bound endpoint member follows silent =>
        exact .inl ⟨endpoint, member, ⟨later, decorator, marked, follows⟩, silent⟩
    | reported reported => exact .inr reported
  · rw [parse_routines]
    exact scanned.counts
  · intro some_endpoint
    obtain ⟨endpoint, member⟩ := List.exists_mem_of_ne_nil _ some_endpoint
    obtain ⟨index, later, decorator, ⟨⟨row, place, marks⟩, _⟩, _⟩ :=
      endpoint_bound source endpoint member
    have inside : row ∈ lines source :=
      List.mem_of_mem_drop (place ▸ List.mem_cons_self : row ∈ (lines source).drop index)
    exact (contains_iff _ _).mpr (marks.inside.trans (lines_inside source row inside))

end EndpointPreview.Notation
