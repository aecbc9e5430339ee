import EndpointPreview.Proofs.AppendedSources
import EndpointPreview.Proofs.CommentedHeaders
import EndpointPreview.Proofs.FunctionBlocks
import EndpointPreview.Proofs.WrittenParameters

/-!
Comments in the headers of a source. A comment behind the row that closes a parameter list changes
nothing but the text of its function and what is read as the statement behind the colon. A comment
behind an earlier row is read as a part of the list: it always changes the parameters, and nothing
else when it closes the brackets and strings that it opens.
-/

namespace EndpointPreview.Notation

open Text
open ByPosition (continued splitTopFrom_cons)

theorem continued_flatten (current : Bytes) (parts : List Bytes) :
    (continued current parts).flatten = current ++ parts.flatten := by
  cases parts <;> simp [continued]

def Parameter.bytes (parameter : Parameter) : Bytes := parameter.texts.flatten

section Count

variable (b : UInt8) (solid : isSpace b = false) (kept : b ∉ ascii ",=:*/")

include kept in
theorem splitTopFrom_count (state : Nesting) (text : Bytes) :
    (splitTopFrom state text).flatten.count b = text.count b := by
  induction text generalizing state with
  | nil => rfl
  | cons first rest ih =>
      rw [splitTopFrom_cons]
      split
      · rename_i comma
        have apart : first ≠ b := by
          rintro rfl
          rw [beq_iff_eq.mp (Bool.and_eq_true_iff.mp comma).1] at kept
          exact kept (by decide)
        rw [List.flatten_cons, List.nil_append, ih, List.count_cons_of_ne apart]
      · rw [continued_flatten, List.count_append, ih, ← List.count_append, List.singleton_append]

include solid kept in
theorem declared_count (kind : ParameterKind) (default : Option Bytes) (declaration : Bytes) :
    (Parameter.declared kind default declaration).bytes.count b =
      declaration.count b + (default.getD []).count b := by
  have all (name : Bytes) (typeText : Option Bytes) :
      (Parameter.bytes ⟨name, kind, default, typeText⟩).count b =
        name.count b + (default.getD []).count b + (typeText.getD []).count b := by
    cases default <;> cases typeText <;>
      simp [Parameter.bytes, Parameter.texts, List.count_append, Nat.add_assoc]
  unfold Parameter.declared
  split
  · rw [all, count_trim b _ solid]
    simp
  · rename_i name typeText cut
    have colon : byte ':' ≠ b := by
      rintro rfl
      exact kept (by decide)
    have typed : ((Parameter.nonEmpty (trim typeText)).getD []).count b = typeText.count b := by
      rw [← count_trim b typeText solid]
      unfold Parameter.nonEmpty
      split
      · rename_i empty
        rw [List.isEmpty_iff.mp empty]
        rfl
      · rfl
    rw [all, count_trim b _ solid, typed, cutAt_whole _ _ _ _ cut, List.count_append,
      List.count_cons_of_ne colon]
    omega

include solid kept in
theorem ofPart_count (part : Bytes) : (Parameter.ofPart part).bytes.count b = part.count b := by
  have starred (stars : Bytes) (front : startsWith stars part = true)
      (own : ∀ star ∈ stars, star = byte '*') :
      (part.drop stars.length).count b = part.count b := by
    obtain ⟨rest, rfl⟩ := List.isPrefixOf_iff_prefix.mp front
    have none_there : stars.count b = 0 := List.count_eq_zero.mpr fun member => by
      rw [own b member] at kept
      exact kept (by decide)
    rw [List.drop_left, List.count_append, none_there, Nat.zero_add]
  unfold Parameter.ofPart
  split
  · rename_i declaration default cut
    have equals : byte '=' ≠ b := by
      rintro rfl
      exact kept (by decide)
    rw [declared_count b solid kept, Option.getD_some, count_trim b _ solid,
      splitDefault_whole _ _ _ _ _ cut, List.count_append, List.count_cons_of_ne equals]
  · split
    · rename_i front
      rw [declared_count b solid kept]
      exact starred (ascii "**") front (by decide +kernel)
    · split
      · rename_i front
        rw [declared_count b solid kept]
        exact starred (ascii "*") front (by decide +kernel)
      · rw [declared_count b solid kept]
        rfl

include solid kept in
/-- A parameter list keeps every byte but white space and its own marks. -/
theorem parse_count (text : Bytes) :
    ((Parameter.parse text).flatMap Parameter.bytes).count b = text.count b := by
  rw [Parameter.parse_filterMap, ← splitTopFrom_count b kept .outside text]
  change _ = (splitTopLevel text).flatten.count b
  induction splitTopLevel text with
  | nil => rfl
  | cons part later ih =>
      rw [List.flatten_cons, List.count_append, List.filterMap_cons, ← count_trim b part solid]
      by_cases declares : (!(trim part).isEmpty && !Parameter.isSeparator (trim part)) = true
      · have found : readPart (trim part) = some (Parameter.ofPart (trim part)) := if_pos declares
        rw [found, List.flatMap_cons, List.count_append, ih, ofPart_count b solid kept]
      · have dropped : readPart (trim part) = none := if_neg declares
        have marks : trim part ∈ [[], ascii "*", ascii "/"] := by
          by_contra other
          simp only [List.mem_cons, List.not_mem_nil, or_false, not_or] at other
          exact declares (by simp [Parameter.isSeparator, other])
        have inside : ∀ mark ∈ [[], ascii "*", ascii "/"], mark ⊆ ascii ",=:*/" := by decide
        have nothing : (trim part).count b = 0 :=
          List.count_eq_zero.mpr fun member => kept (inside _ marks member)
        rw [dropped, ih, nothing, Nat.zero_add]

end Count

/-- A comment in a parameter list shows in the parameters. -/
theorem parse_inserted (comment text longer : Bytes) (marked : IsComment comment)
    (inserts : Inserts comment text longer) : Parameter.parse longer ≠ Parameter.parse text := by
  intro same
  obtain ⟨front, tail, back, rfl, rfl, around⟩ := inserts
  have more := parse_count (byte '#') rfl (by decide) (front ++ tail ++ back)
  have fewer := parse_count (byte '#') rfl (by decide) (front ++ back)
  rw [same, fewer] at more
  have mark : byte '#' ∈ tail := mem_of_mem_trim _ _ (List.mem_of_mem_head? (around.isComment marked))
  have positive := List.count_pos_iff.mpr mark
  simp only [List.count_append] at more
  omega

theorem takeWhile_replaced {α : Type} (inClass : α → Bool) (front rest further : List α)
    (item other : α) (same : inClass other = inClass item)
    (short : ((front ++ item :: rest).takeWhile inClass).length ≤ front.length) :
    (front ++ other :: further).takeWhile inClass = (front ++ item :: rest).takeWhile inClass := by
  rw [List.takeWhile_append] at short ⊢
  rw [List.takeWhile_append]
  split
  · rename_i all
    rw [if_pos all, List.length_append] at short
    have stops : inClass item = false := by
      by_contra passes
      rw [Bool.not_eq_false] at passes
      rw [List.takeWhile_cons_of_pos passes, List.length_cons] at short
      omega
    rw [List.takeWhile_cons_of_neg (by simp [same, stops]), List.takeWhile_cons_of_neg (by simp [stops])]
  · rfl

theorem block_replaced (line : Bytes) (extraLines : Nat) (above : List Bytes) (row other : Bytes)
    (rest further : List Bytes) (fits : extraLines ≤ above.length)
    (same : continuesBlock (indent line) other = continuesBlock (indent line) row)
    (ends : (Block.take line extraLines (above ++ row :: rest)).laterLines ≤ above.length) :
    Block.take line extraLines (above ++ other :: further) =
      Block.take line extraLines (above ++ row :: rest) := by
  unfold Block.take at ends ⊢
  dsimp only at ends
  rw [List.drop_append_of_le_length fits] at ends
  have short : ((above.drop extraLines ++ row :: rest).takeWhile
      (continuesBlock (indent line))).length ≤ (above.drop extraLines).length := by
    rw [List.length_drop]
    omega
  rw [List.drop_append_of_le_length fits, List.drop_append_of_le_length fits,
    List.take_append_of_le_length fits, List.take_append_of_le_length fits,
    takeWhile_replaced _ _ rest further row other same short]

-- A function takes the rows down to the first one that it does not cover, blank rows left aside.
theorem Taken.ends_before {line row : Bytes} {above rest : List Bytes} {header : Header}
    {block : Block} {gap : List Bytes} (taken : Taken line (above ++ row :: rest) header block gap)
    (lineNumber : Nat) (solid : isBlank row = false)
    (outside : (header.routine lineNumber block).covers (lineNumber + (above.length + 1)) = false) :
    block.laterLines ≤ above.length := by
  by_contra past
  have place : (line :: (above ++ row :: rest))[above.length + 1]? = some row := by
    rw [List.getElem?_cons_succ, List.getElem?_append_right (Nat.le_refl _), Nat.sub_self]
    rfl
  have blank := taken.gap_blank (above.length + 1) row place
    ((taken.not_covers_iff lineNumber (above.length + 1)).mp outside) (by omega)
  rw [solid] at blank
  cases blank

theorem absent_anywhere (line : Bytes) (later : List Bytes)
    (absent : Header.read line later = .absent) (other : List Bytes) :
    Header.read line other = .absent := by
  unfold Header.read at absent ⊢
  split at absent
  · rfl
  · split at absent
    · cases absent
    · unfold Header.ofClosed at absent
      dsimp only at absent
      split at absent
      · split at absent <;> cases absent
      · cases absent

-- No function that starts above the line takes it, and no definition above it is malformed.
structure ClearAbove (lineNumber : Nat) (routines : List Helper) (reports : List Diagnostic) :
    Prop where
  outside : ∀ routine ∈ routines, routine.line < lineNumber → routine.covers lineNumber = false
  sound : ∀ report ∈ reports, report.line < lineNumber → ∀ problem, report.cause ≠ .header problem

theorem ClearAbove.rest {lineNumber : Nat} {front found : List Finding}
    (clear : ClearAbove lineNumber (routinesIn (front ++ found)) (diagnosticsIn (front ++ found))) :
    ClearAbove lineNumber (routinesIn found) (diagnosticsIn found) := by
  refine ⟨fun routine member => clear.outside routine ?_, fun report member => clear.sound report ?_⟩
  · rw [routinesIn, List.filterMap_append]
    exact List.mem_append_right _ member
  · rw [diagnosticsIn_append]
    exact List.mem_append_right _ member

/-- A scan comes to the row below the others with the same findings, and the same decorator waiting,
whatever row stands there that is indented alike. -/
def Reaches (lineNumber : Nat) (pending : Option Pending) (above : List Bytes) (line : Bytes) : Prop :=
  ∃ before waiting, ∀ first further, indent first = indent line → isBlank first = false →
    findingsFrom lineNumber pending (above ++ first :: further) =
      before ++ findingsFrom (lineNumber + above.length) waiting (first :: further)

/-- What a scan finds in its first step, which takes so many rows beyond the first one. -/
def StepsOver (lineNumber : Nat) (pending : Option Pending) (row : Bytes) (above : List Bytes)
    (line : Bytes) (front : List Finding) (next : Option Pending) (skipped : Nat) : Prop :=
  ∀ first further, indent first = indent line → isBlank first = false →
    findingsFrom lineNumber pending (row :: (above ++ first :: further)) =
      front ++ findingsFrom (lineNumber + 1 + skipped) next (above.drop skipped ++ first :: further)

section Step

variable {lineNumber : Nat} {pending : Option Pending} {row line : Bytes} {above later : List Bytes}

theorem StepsOver.reaches {front : List Finding} {next : Option Pending} {skipped : Nat}
    (passes : StepsOver lineNumber pending row above line front next skipped)
    (fits : skipped ≤ above.length)
    (rest : Reaches (lineNumber + 1 + skipped) next (above.drop skipped) line) :
    Reaches lineNumber pending (row :: above) line := by
  obtain ⟨before, waiting, behind⟩ := rest
  refine ⟨front ++ before, waiting, fun first further column solid => ?_⟩
  have shift : lineNumber + 1 + skipped + (above.drop skipped).length =
      lineNumber + (row :: above).length := by
    rw [List.length_drop, List.length_cons]
    omega
  rw [List.cons_append, passes first further column solid, behind first further column solid, shift,
    List.append_assoc]

theorem row_passes (front : List Finding) (next : Option Pending)
    (same : ∀ rest, findingsFrom lineNumber pending (row :: rest) =
      front ++ findingsFrom (lineNumber + 1) next rest) :
    StepsOver lineNumber pending row above line front next 0 := fun _ _ _ _ => same _

theorem function_passes {header : Header} {gap : List Bytes}
    (unmarked : ¬ startsWithMarker (trim row) = true) (solid : isBlank line = false)
    (read : Header.read row (above ++ line :: later) = .found header)
    (taken : Taken row (above ++ line :: later) header
      (Block.take row (header.lineCount - 1) (above ++ line :: later)) gap)
    (ends : (Block.take row (header.lineCount - 1) (above ++ line :: later)).laterLines ≤
      above.length) :
    StepsOver lineNumber pending row above line
      [functionFinding pending lineNumber header
        (Block.take row (header.lineCount - 1) (above ++ line :: later))] none
      (Block.take row (header.lineCount - 1) (above ++ line :: later)).laterLines := by
  intro first further column still
  have headed : header.lineCount - 1 ≤ above.length := by
    have own := taken.headed
    have length := taken.length
    omega
  have again : Header.read row (above ++ first :: further) = .found header := by
    have own := read_own row _ (above.drop (header.lineCount - 1) ++ first :: further) header read
    rwa [List.take_append_of_le_length headed, ← List.append_assoc, List.take_append_drop] at own
  have same : continuesBlock (indent row) first = continuesBlock (indent row) line := by
    rw [continuesBlock, continuesBlock, column, still, solid]
  rw [findingsFrom, if_neg unmarked, again]
  dsimp only
  rw [block_replaced row _ above line first later further headed same ends,
    List.drop_append_of_le_length ends]
  rfl

end Step

/-- A scan reaches every row that no function above takes, where no definition above is malformed. -/
theorem findingsFrom_reaches (lineNumber : Nat) (pending : Option Pending) (above : List Bytes)
    (line : Bytes) (later : List Bytes) (single : ∀ row ∈ above ++ line :: later, newline ∉ row)
    (solid : isBlank line = false)
    (clear : ClearAbove (lineNumber + above.length)
      (routinesIn (findingsFrom lineNumber pending (above ++ line :: later)))
      (diagnosticsIn (findingsFrom lineNumber pending (above ++ line :: later)))) :
    Reaches lineNumber pending above line := by
  induction size : above.length using Nat.strong_induction_on generalizing lineNumber pending above with
  | _ count ih =>
  subst size
  cases above with
  | nil => exact ⟨[], pending, fun first further _ _ => rfl⟩
  | cons row above =>
      rw [List.cons_append, List.length_cons] at clear
      have below := (List.forall_mem_cons.mp single).2
      have resume {front : List Finding} {next : Option Pending} {skipped : Nat}
          (fits : skipped ≤ above.length)
          (passes : StepsOver lineNumber pending row above line front next skipped) :
          Reaches lineNumber pending (row :: above) line := by
        have shift : lineNumber + 1 + skipped + (above.drop skipped).length =
            lineNumber + (above.length + 1) := by
          rw [List.length_drop]
          omega
        rw [passes line later rfl solid, ← shift] at clear
        refine passes.reaches fits (ih _ ?_ _ _ _ ?_ clear.rest rfl)
        · rw [List.length_drop, List.length_cons]
          omega
        · refine fun other member => below other ?_
          exact (List.mem_append.mp member).elim
            (fun early => List.mem_append_left _ (List.mem_of_mem_drop early))
            (List.mem_append_right _)
      by_cases marked : startsWithMarker (trim row) = true
      · cases read : Decorator.ofLine (trim row) with
        | ok decorator =>
            refine resume (Nat.zero_le _) (row_passes (dropPending pending .anotherDecorator)
              (some ⟨decorator, lineNumber⟩) fun rest => ?_)
            rw [findingsFrom, if_pos marked, read]
        | error error =>
            refine resume (Nat.zero_le _) (row_passes
              [.diagnostic ⟨lineNumber, .unrecognized error⟩] pending fun rest => ?_)
            rw [findingsFrom, if_pos marked, read]
            rfl
      cases read : Header.read row (above ++ line :: later) with
      | malformed problem =>
          rw [findingsFrom, if_neg marked, read] at clear
          exact absurd rfl (clear.sound ⟨lineNumber, .header problem⟩ List.mem_cons_self (by simp)
            problem)
      | absent =>
          have absent := absent_anywhere row _ read
          by_cases keeps : keepsPending (trim row) = true
          · refine resume (Nat.zero_le _) (row_passes [] pending fun rest => ?_)
            rw [findingsFrom, if_neg marked, absent]
            exact if_pos keeps
          · refine resume (Nat.zero_le _) (row_passes (dropPending pending .notBeforeDefinition) none
              fun rest => ?_)
            rw [findingsFrom, if_neg marked, absent]
            exact if_neg keeps
      | found header =>
          obtain ⟨gap, taken⟩ := block_taken row _ header read single
          have own := clear.outside (header.routine lineNumber
            (Block.take row (header.lineCount - 1) (above ++ line :: later)))
          rw [findingsFrom, if_neg marked, read, routinesIn_function] at own
          have ends := taken.ends_before lineNumber solid
            (own List.mem_cons_self (Nat.lt_add_of_pos_right (Nat.succ_pos _)))
          exact resume ends (function_passes marked solid read taken ends)

-- The finding with other parameters, another text and another inline body.
def Finding.revised (parameters : List Parameter) (body inlineBody : Bytes) : Finding → Finding
  | endpoint found =>
      endpoint { found with parameters := parameters, body := body, inlineBody := inlineBody }
  | helper found => helper { found with parameters := parameters, body := body }
  | diagnostic found => diagnostic found

theorem functionFinding_revised (pending : Option Pending) (lineNumber : Nat) (header other : Header)
    (block again : Block) (name : other.name = header.name)
    (rows : other.lineCount = header.lineCount) :
    functionFinding pending lineNumber other again =
      (functionFinding pending lineNumber header block).revised
        (Parameter.parse other.parameterText) (unlines again.rows) other.inlineBody := by
  cases pending with
  | none => simp [functionFinding, Finding.revised, name]
  | some waiting => simp [functionFinding, Finding.revised, name, rows]

/-- Another row in a header changes nothing of the block but itself. -/
theorem block_set {line first row : Bytes} {later further : List Bytes} {count : Nat}
    {header other : Header} (found : Header.read line later = .found header)
    (again : Header.read first further = .found other) (rows : other.lineCount = header.lineCount)
    (whole : (line :: later).set count row = first :: further) (column : indent first = indent line)
    (inside : count < header.lineCount) :
    Block.take first (header.lineCount - 1) further =
        ⟨(Block.take line (header.lineCount - 1) later).rows.set count row,
          (Block.take line (header.lineCount - 1) later).laterLines⟩ ∧
      further.drop (Block.take line (header.lineCount - 1) later).laterLines =
        later.drop (Block.take line (header.lineCount - 1) later).laterLines := by
  obtain ⟨positive, fits, _⟩ := header_rows line later header found
  obtain ⟨extra, lines⟩ := Nat.exists_eq_add_of_lt positive
  rw [Nat.zero_add] at lines
  have behind : further.drop extra = later.drop extra := by
    have same := congrArg (List.drop (extra + 1)) whole
    rw [List.drop_set_of_lt (by omega)] at same
    exact same.symm
  have front : first :: further.take extra = (line :: later.take extra).set count row := by
    have same := congrArg (List.take (extra + 1)) whole
    rw [List.take_set] at same
    exact same.symm
  have own_rows := header_block line later header found
  have again_rows := header_block first further other again
  have short : count < (line :: later.take extra).length := by
    rw [List.length_cons, List.length_take]
    omega
  rw [rows] at again_rows
  rw [lines, Nat.add_sub_cancel] at own_rows again_rows ⊢
  rw [column, behind, front, ← List.set_append_left _ _ short, ← own_rows] at again_rows
  have skipped : (Block.take first extra further).laterLines =
      (Block.take line extra later).laterLines := by
    unfold Block.take
    rw [column, behind]
  refine ⟨?_, ?_⟩
  · rw [← again_rows, ← skipped]
  · unfold Block.take
    rw [← List.drop_drop, behind, List.drop_drop]

theorem findingsFrom_definition (lineNumber : Nat) (pending : Option Pending) (line : Bytes)
    (later : List Bytes) (header : Header) (found : Header.read line later = .found header) :
    findingsFrom lineNumber pending (line :: later) =
      functionFinding pending lineNumber header (Block.take line (header.lineCount - 1) later) ::
        findingsFrom (lineNumber + 1 + (Block.take line (header.lineCount - 1) later).laterLines) none
          (later.drop (Block.take line (header.lineCount - 1) later).laterLines) := by
  obtain ⟨_, _, opens, _⟩ := read_found line later header found
  have unmarked := (definition_front _ (openDefinition_some _ _ _ opens).1).1
  rw [findingsFrom, if_neg (by simp [unmarked]), found]

theorem findingsFrom_malformed (lineNumber : Nat) (pending : Option Pending) (line : Bytes)
    (later : List Bytes) (problem : HeaderProblem)
    (malformed : Header.read line later = .malformed problem) :
    .diagnostic ⟨lineNumber, .header problem⟩ ∈ findingsFrom lineNumber pending (line :: later) := by
  have unmarked : ¬ startsWithMarker (trim line) = true := fun marked => by
    rw [marked_absent line later marked] at malformed
    cases malformed
  rw [findingsFrom, if_neg unmarked, malformed]
  exact List.mem_cons_self

/-- The sources have the same findings but for the function on this line. It has another row in its
text, and these parameters and this inline body. -/
def DiffersAt (source other : Bytes) (lineNumber count : Nat) (row : Bytes)
    (parameters : List Parameter) (inlineBody : Bytes) : Prop :=
  ∃ before first after routine rows, findings source = before ++ first :: after ∧
    first.routine? = some routine ∧ routine.line = lineNumber ∧ routine.body = unlines rows ∧
    findings other = before ++ first.revised parameters (unlines (rows.set count row)) inlineBody :: after

-- The second source is the first one with a comment behind one row, `count` rows below a row that
-- the scan reaches.
structure CommentedBelow (source commented comment : Bytes) (index count : Nat) (line row : Bytes)
    (later : List Bytes) : Prop where
  place : (lines source).drop index = line :: later
  clear : ClearAbove (index + 1) (parse source).routines (parse source).diagnostics
  own : (line :: later)[count]? = some row
  marked : IsComment comment
  again : lines commented = (lines source).set (index + count) (row ++ comment)

section Comments

variable {source commented comment line row : Bytes} {index count : Nat} {later : List Bytes}
  (below : CommentedBelow source commented comment index count line row later)
include below

-- The scans of both sources come to the definition alike.
theorem CommentedBelow.scans {first : Bytes} {further : List Bytes} (solid : isBlank line = false)
    (whole : (line :: later).set count (row ++ comment) = first :: further)
    (column : indent first = indent line) (still : isBlank first = false) :
    ∃ before waiting,
      findings source = before ++ findingsFrom (index + 1) waiting (line :: later) ∧
        findings commented = before ++ findingsFrom (index + 1) waiting (first :: further) := by
  let above := (lines source).take index
  have parts : lines source = above ++ line :: later := by
    rw [← below.place, List.take_append_drop]
  have size : above.length = index := by
    rw [List.length_take]
    refine Nat.min_eq_left ?_
    by_contra past
    have ended := below.place
    rw [List.drop_eq_nil_of_le (by omega)] at ended
    cases ended
  have again : lines commented = above ++ first :: further := by
    rw [below.again, parts, List.set_append_right _ _ (by omega), size, Nat.add_sub_cancel_left, whole]
  have clear := below.clear
  rw [parse_routines] at clear
  change ClearAbove (index + 1) (routinesIn (findings source)) (diagnosticsIn (findings source)) at clear
  unfold findings at clear ⊢
  rw [parts] at clear ⊢
  rw [Nat.add_comm, ← size] at clear
  obtain ⟨before, waiting, reached⟩ := findingsFrom_reaches 1 none above line later
    (fun other member => newline_not_mem_lines source other (by rwa [parts])) solid clear
  rw [size, Nat.add_comm] at reached
  exact ⟨before, waiting, reached line later rfl solid, again ▸ reached first further column still⟩

theorem CommentedBelow.differs {first : Bytes} {further : List Bytes} {header other : Header}
    (whole : (line :: later).set count (row ++ comment) = first :: further)
    (column : indent first = indent line) (still : isBlank first = false)
    (found : Header.read line later = .found header)
    (again : Header.read first further = .found other) (name : other.name = header.name)
    (rows : other.lineCount = header.lineCount) (inside : count < header.lineCount) :
    DiffersAt source commented (index + 1) count (row ++ comment)
      (Parameter.parse other.parameterText) other.inlineBody := by
  obtain ⟨_, _, opens, _⟩ := read_found line later header found
  obtain ⟨before, waiting, own, changed⟩ := below.scans (definition_solid line _ _ opens) whole
    column still
  obtain ⟨block, rest⟩ := block_set found again rows whole column inside
  rw [findingsFrom_definition _ _ _ _ header found] at own
  rw [findingsFrom_definition _ _ _ _ other again, rows, block, rest,
    functionFinding_revised waiting _ header other
      (Block.take line (header.lineCount - 1) later) _ name rows] at changed
  exact ⟨before, _, _, _, _, own, functionFinding_routine _ _ _ _, rfl, rfl, changed⟩

end Comments

/-- A comment in the header of a definition. Behind the row that closes the list any comment leaves
everything as it was, but for the text of the function and what stands behind its colon. Behind an
earlier row, one that ends outside a string, a comment that closes its own brackets and strings always
changes the parameters, and nothing else but the text. A malformed definition stays so, if the comment
does not bring the colon that is missing. -/
theorem comment_in_header (source commented comment : Bytes) (index count : Nat)
    (line row name opened : Bytes) (later : List Bytes)
    (below : CommentedBelow source commented comment index count line row later)
    (opens : openDefinition? (trim line) = some (name, opened)) :
    (∀ header, Header.read line later = .found header → count + 1 = header.lineCount →
      ∃ inlineBody, header.inlineBody <+: inlineBody ∧
        (header.inlineBody = [] → inlineBody = []) ∧
        DiffersAt source commented (index + 1) count (row ++ comment)
          (Parameter.parse header.parameterText) inlineBody) ∧
    (∀ header, Header.read line later = .found header → count + 1 < header.lineCount →
      EndsPlain opened (later.take count) → ClosedText (fun _ => True) comment →
        ∃ text, Inserts comment header.parameterText text ∧
          Parameter.parse text ≠ Parameter.parse header.parameterText ∧
          DiffersAt source commented (index + 1) count (row ++ comment)
            (Parameter.parse text) header.inlineBody) ∧
    (∀ problem, Header.read line later = .malformed problem →
      OpenBehind opened (later.take count) ∧ ClosedText (fun _ => True) comment ∨
        (∃ length, ClosesBelow opened later count length) ∧ byte ':' ∉ comment →
      .diagnostic ⟨index + 1, .header problem⟩ ∈ findings source ∧
        .diagnostic ⟨index + 1, .header problem⟩ ∈ findings commented) := by
  have inside := read_inside line later name opened count row comment opens below.own below.marked
  refine ⟨fun header found ends => ?_, fun header found early unquoted closed => ?_,
    fun problem malformed stays => ?_⟩
  · obtain ⟨first, further, body, whole, column, still, again, kept, none_kept⟩ :=
      read_behind line later header count row comment found ends.symm below.own below.marked
    exact ⟨body, kept, none_kept,
      below.differs whole column still found again rfl rfl (by omega)⟩
  · have open_list := header_stays_open found opens early unquoted
    obtain ⟨first, further, whole, column, still, effect⟩ := inside open_list closed
    obtain ⟨problem, malformed, _⟩ | ⟨other, text, read, _, inserts, again⟩ := effect
    · cases found.symm.trans malformed
    · obtain rfl := HeaderMatch.found.inj (found.symm.trans read)
      exact ⟨text, inserts, parse_inserted comment _ text below.marked inserts,
        below.differs whole column still found again rfl rfl (by omega)⟩
  · obtain ⟨first, further, whole, column, still, again⟩ : ∃ first further,
        (line :: later).set count (row ++ comment) = first :: further ∧
          indent first = indent line ∧ isBlank first = false ∧
          Header.read first further = .malformed problem := by
      rcases stays with ⟨open_list, closed⟩ | ⟨⟨length, ends⟩, plain⟩
      · obtain ⟨first, further, whole, column, still, effect⟩ := inside open_list closed
        obtain ⟨other, read, again⟩ | ⟨header, _, found, _⟩ := effect
        · cases malformed.symm.trans read
          exact ⟨first, further, whole, column, still, again⟩
        · cases malformed.symm.trans found
      · exact malformed_behind line later name opened count row comment opens below.own below.marked
          plain ends problem malformed
    obtain ⟨before, waiting, own, changed⟩ :=
      below.scans (definition_solid line _ _ opens) whole column still
    rw [own, changed]
    exact ⟨List.mem_append_right _ (findingsFrom_malformed _ _ _ _ _ malformed),
      List.mem_append_right _ (findingsFrom_malformed _ _ _ _ _ again)⟩

def twoRowSource (comment : Bytes) : Bytes :=
  ascii "@endpoint('/a')\ndef f(a," ++ comment ++
    ascii "\n      b):\n    return a\n\ndef g():\n    return 2\n"

theorem comment_in_header_enumerated :
    CommentedBelow (twoRowSource []) (twoRowSource (ascii " # (1)")) (ascii " # (1)") 1 0
      (ascii "def f(a,") (ascii "def f(a,")
      [ascii "      b):", ascii "    return a", [], ascii "def g():", ascii "    return 2"] ∧
    ∃ text, Inserts (ascii " # (1)") (ascii "a,\n      b") text ∧
      DiffersAt (twoRowSource []) (twoRowSource (ascii " # (1)")) 2 0 (ascii "def f(a, # (1)")
        (Parameter.parse text) [] := by
  have clear : ClearAbove 2 (parse (twoRowSource [])).routines
      (parse (twoRowSource [])).diagnostics := by
    have no_reports : (parse (twoRowSource [])).diagnostics = [] := by decide +kernel
    rw [parse_routines, no_reports]
    exact ⟨by decide +kernel, nofun⟩
  have below : CommentedBelow (twoRowSource []) (twoRowSource (ascii " # (1)")) (ascii " # (1)") 1 0
      (ascii "def f(a,") (ascii "def f(a,")
      [ascii "      b):", ascii "    return a", [], ascii "def g():", ascii "    return 2"] :=
    ⟨by decide +kernel, clear, rfl, by decide +kernel, by decide +kernel⟩
  have closed : ClosedText (fun _ => True) (ascii " # (1)") :=
    ClosedText.append (.plain (by decide +kernel) : ClosedText _ (ascii " # "))
      (.bracketed _ (byte '(') (byte ')') (ascii "1") [] rfl rfl (.plain (by decide +kernel)) (.empty _))
  obtain ⟨_, inside, _⟩ := comment_in_header _ _ _ 1 0 _ _ (ascii "f") (ascii "(a,") _ below
    (by decide +kernel)
  obtain ⟨text, inserts, _, differs⟩ := inside ⟨ascii "f", ascii "a,\n      b", [], 2⟩
    (by decide +kernel) (by decide) rfl closed
  exact ⟨below, text, inserts, differs⟩

/-- An apostrophe in a comment opens a string that nothing closes, and the function is lost. -/
theorem comment_loses_function :
    IsComment (ascii " # don't") ∧
    lines (twoRowSource (ascii " # don't")) =
      (lines (twoRowSource [])).set 1 (ascii "def f(a," ++ ascii " # don't") ∧
    EndsPlain (ascii "(a,") [] ∧
    (parse (twoRowSource [])).endpoints.map Endpoint.name = [ascii "f"] ∧
    (parse (twoRowSource [])).diagnostics = [] ∧
    parse (twoRowSource (ascii " # don't")) =
      ⟨[], [⟨ascii "g", [], ascii "def g():\n    return 2", 6⟩],
        [⟨2, .header (.neverClosed (ascii "f"))⟩]⟩ := by
  decide +kernel

end EndpointPreview.Notation
