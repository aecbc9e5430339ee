import EndpointPreview.Proofs.Headers
import EndpointPreview.Proofs.WholeText

/-!
The texts that a header is cut into. A parameter list stands between the bracket that opens it and
the one that closes it; it is parted at commas, and a part at its `=`, its `:` and its stars. These
marks are ASCII, so the parameters of a header in UTF-8 are in UTF-8.
-/

namespace EndpointPreview.Notation

open Text Utf8

theorem splitDefault_whole (state : Nesting) (previous : Option UInt8) (text before after : Bytes)
    (cut : splitDefaultFrom state previous text = some (before, after)) :
    text = before ++ byte '=' :: after := by
  induction text generalizing state previous before with
  | nil => cases cut
  | cons b rest ih =>
      unfold splitDefaultFrom at cut
      split at cut
      · rename_i assigns
        cases cut
        simp only [Bool.and_eq_true, beq_iff_eq] at assigns
        rw [assigns.1.1.1, List.nil_append]
      · obtain ⟨⟨start, tail⟩, later, same⟩ := Option.map_eq_some_iff.mp cut
        cases same
        rw [ih _ _ _ later, List.cons_append]

theorem closedLength_whole (state : Nesting) (text : Bytes) (length : Nat)
    (closed : closedLength? state text = some length) :
    ∃ inside bracket rest, text = inside ++ bracket :: rest ∧ length = inside.length + 1 ∧
      isClosing bracket = true := by
  induction text generalizing state length with
  | nil => cases closed
  | cons b rest ih =>
      unfold closedLength? at closed
      split at closed
      · rename_i closes
        cases closed
        simp only [Bool.and_eq_true] at closes
        exact ⟨[], b, rest, rfl, rfl, closes.1.2⟩
      · obtain ⟨shorter, later, rfl⟩ := Option.map_eq_some_iff.mp closed
        obtain ⟨inside, bracket, after, whole, count, closes⟩ := ih _ _ later
        exact ⟨b :: inside, bracket, after, by rw [whole, List.cons_append], by simp [count], closes⟩

theorem openDefinition_bracket (stripped name opened : Bytes)
    (opens : openDefinition? stripped = some (name, opened)) : opened.head? = some (byte '(') := by
  unfold openDefinition? at opens
  dsimp only at opens
  split at opens
  · rename_i shape
    cases opens
    simp only [Bool.and_eq_true, beq_iff_eq] at shape
    exact shape.2
  · cases opens

theorem closeList_closed (text : Bytes) (extraLines : Nat) (later : List Bytes)
    (closed : ClosedList) (closes : closeList? text extraLines later = some closed) :
    text <+: closed.text ∧ closedLength? .outside closed.text = some closed.length := by
  induction later generalizing text extraLines with
  | nil =>
      obtain ⟨length, found, rfl⟩ := Option.map_eq_some_iff.mp closes
      exact ⟨List.prefix_rfl, found⟩
  | cons row later ih =>
      unfold closeList? at closes
      split at closes
      · rename_i length found
        cases closes
        exact ⟨List.prefix_rfl, found⟩
      · obtain ⟨longer, found⟩ := ih _ _ closes
        exact ⟨(List.prefix_append _ _).trans longer, found⟩

/-- A list that is opened has its own bracket before the one that closes it. -/
theorem closedLength_opened (rest : Bytes) (length : Nat)
    (closed : closedLength? .outside (byte '(' :: rest) = some length) :
    ∃ inside bracket after, rest = inside ++ bracket :: after ∧ length = inside.length + 2 ∧
      isClosing bracket = true := by
  obtain ⟨inside, bracket, after, whole, count, closes⟩ := closedLength_whole _ _ _ closed
  cases inside with
  | nil =>
      obtain ⟨rfl, -⟩ := List.cons.inj whole
      cases closes
  | cons first inside =>
      obtain ⟨-, rfl⟩ := List.cons.inj whole
      exact ⟨inside, bracket, after, rfl, by simpa using count, closes⟩

/-- The text of a closed list: what stands inside its brackets, and what stands behind them. -/
theorem closeList_opened (opened : Bytes) (later : List Bytes) (closed : ClosedList)
    (first : opened.head? = some (byte '(')) (closes : closeList? opened 0 later = some closed) :
    ∃ inside bracket after, closed.text = byte '(' :: (inside ++ bracket :: after) ∧
      closed.length = inside.length + 2 ∧ isClosing bracket = true := by
  obtain ⟨⟨more, whole⟩, length⟩ := closeList_closed opened 0 later closed closes
  obtain ⟨rest, start⟩ : ∃ rest, closed.text = byte '(' :: rest := by
    cases opened with
    | nil => cases first
    | cons b after =>
        cases first
        exact ⟨after ++ more, whole.symm⟩
  rw [start] at length
  obtain ⟨inside, bracket, after, rfl, count, closing⟩ := closedLength_opened rest _ length
  exact ⟨inside, bracket, after, start, count, closing⟩

theorem header_parameterText (line : Bytes) (later : List Bytes) (header : Header)
    (found : Header.read line later = .found header) :
    ∃ opened closed bracket after, openDefinition? (trim line) = some (header.name, opened) ∧
      closeList? opened 0 later = some closed ∧
      closed.text = byte '(' :: (header.parameterText ++ bracket :: after) ∧
      closed.length = header.parameterText.length + 2 ∧ isClosing bracket = true ∧
      Header.ofClosed header.name closed = .found header := by
  obtain ⟨opened, closed, opens, closes, shape⟩ := read_found line later header found
  obtain ⟨inside, bracket, after, whole, count, closing⟩ :=
    closeList_opened opened later closed (openDefinition_bracket _ _ _ opens) closes
  have own : header.parameterText = inside := by
    have cut : header.parameterText = (closed.text.take (closed.length - 1)).drop 1 := by
      unfold Header.ofClosed at shape
      dsimp only at shape
      split at shape
      · split at shape
        · exact congrArg Header.parameterText (HeaderMatch.found.inj shape).symm
        · cases shape
      · cases shape
    rw [cut, whole, count]
    exact List.take_left
  refine ⟨opened, closed, bracket, after, opens, closes, ?_, ?_, closing, shape⟩
  · rw [own, whole]
  · rw [own, count]

theorem isValid_around (before after : Bytes) (mark : UInt8) (low : mark ≤ 0x7F)
    (valid : isValid (before ++ mark :: after) = true) :
    isValid before = true ∧ isValid after = true := by
  rw [isValid_iff] at valid
  obtain ⟨first, second⟩ := run_before _ _ before mark after low valid
  exact ⟨(isValid_iff before).mpr first, (isValid_iff after).mpr second⟩

theorem isClosing_le (b : UInt8) (closes : isClosing b = true) : b ≤ 0x7F := by
  simp only [isClosing, Bool.or_eq_true, beq_iff_eq] at closes
  rcases closes with (rfl | rfl) | rfl <;> decide

-- The first part starts where the text starts, perhaps inside a character.
theorem run_splitTopFrom (state : Nesting) (chars : Expect) (text part : Bytes)
    (later : List Bytes) (read : run chars text = some .boundary)
    (parts : splitTopFrom state text = part :: later) :
    run chars part = some .boundary ∧ ∀ other ∈ later, isValid other = true := by
  induction text generalizing state chars part later with
  | nil =>
      cases parts
      exact ⟨read, fun _ member => absurd member List.not_mem_nil⟩
  | cons b rest ih =>
      obtain ⟨between, stepped, after⟩ := run_cons chars _ b rest read
      unfold splitTopFrom at parts
      split at parts
      · rename_i comma
        cases parts
        have low : b ≤ 0x7F := by
          rw [beq_iff_eq.mp (Bool.and_eq_true_iff.mp comma).1]
          decide
        obtain ⟨rfl, rfl⟩ := at_boundary chars between b low stepped
        refine ⟨rfl, ?_⟩
        cases next : splitTopFrom state rest with
        | nil => exact fun _ member => absurd member List.not_mem_nil
        | cons first others =>
            obtain ⟨own, all⟩ := ih state _ first others after next
            exact List.forall_mem_cons.mpr ⟨(isValid_iff first).mpr own, all⟩
      · have own (first : Bytes) (others : List Bytes)
            (next : splitTopFrom (state.step b) rest = first :: others) :
            run chars (b :: first) = some .boundary ∧ ∀ other ∈ others, isValid other = true := by
          obtain ⟨first_run, all⟩ := ih _ between first others after next
          refine ⟨?_, all⟩
          rw [run, stepped]
          exact first_run
        split at parts
        · rename_i nothing
          cases rest with
          | nil => cases nothing
          | cons next rest =>
              unfold splitTopFrom at nothing
              split at nothing
              · cases nothing
              · split at nothing <;> cases nothing
        · rename_i first others next
          cases parts
          exact own first later next

theorem isValid_splitTopLevel (text : Bytes) (valid : isValid text = true) :
    ∀ part ∈ splitTopLevel text, isValid part = true := by
  intro part member
  unfold splitTopLevel at member
  cases parts : splitTopFrom .outside text with
  | nil =>
      rw [parts] at member
      cases member
  | cons first later =>
      obtain ⟨own, all⟩ := run_splitTopFrom _ _ text first later ((isValid_iff text).mp valid) parts
      rw [parts] at member
      rcases List.mem_cons.mp member with rfl | rest
      · exact (isValid_iff _).mpr own
      · exact all part rest

theorem isValid_drop_plain (front text : Bytes) (plain : Plain front)
    (starts : startsWith front text = true) (valid : isValid text = true) :
    isValid (text.drop front.length) = true := by
  obtain ⟨rest, rfl⟩ := List.isPrefixOf_iff_prefix.mp starts
  rw [List.drop_left]
  rw [isValid_iff] at valid ⊢
  rw [run_append, run_plain front plain] at valid
  exact valid

namespace Parameter

def texts (parameter : Parameter) : List Bytes :=
  parameter.name :: (parameter.default.toList ++ parameter.typeText.toList)

theorem declared_texts (kind : ParameterKind) (default : Option Bytes) (declaration : Bytes)
    (valid : isValid declaration = true) (own : ∀ text ∈ default, isValid text = true) :
    ∀ text ∈ (declared kind default declaration).texts, isValid text = true := by
  unfold declared
  split
  · intro text member
    rcases List.mem_cons.mp member with rfl | later
    · exact isValid_trim declaration valid
    · exact own text (by simpa using later)
  · rename_i name typeText cut
    rw [cutAt_whole _ _ _ _ cut] at valid
    obtain ⟨name_valid, type_valid⟩ := isValid_around name typeText _ (by decide) valid
    intro text member
    rcases List.mem_cons.mp member with rfl | later
    · exact isValid_trim name name_valid
    · rcases List.mem_append.mp later with defaulted | typed
      · exact own text (Option.mem_toList.mp defaulted)
      · have written := Option.mem_toList.mp typed
        unfold nonEmpty at written
        split at written
        · cases written
        · cases written
          exact isValid_trim typeText type_valid

theorem ofPart_texts (part : Bytes) (valid : isValid part = true) :
    ∀ text ∈ (ofPart part).texts, isValid text = true := by
  have none_own : ∀ text ∈ (none : Option Bytes), isValid text = true := by rintro text ⟨⟩
  unfold ofPart
  split
  · rename_i declaration default cut
    rw [splitDefault_whole _ _ _ _ _ cut] at valid
    obtain ⟨before, after⟩ := isValid_around declaration default _ (by decide) valid
    refine declared_texts _ _ _ before ?_
    rintro text ⟨rfl⟩
    exact isValid_trim default after
  · split
    · rename_i stars
      exact declared_texts _ _ _ (isValid_drop_plain (ascii "**") part (by decide) stars valid)
        none_own
    · split
      · rename_i star
        exact declared_texts _ _ _ (isValid_drop_plain (ascii "*") part (by decide) star valid)
          none_own
      · exact declared_texts _ _ _ valid none_own

theorem parse_texts (text : Bytes) (valid : isValid text = true) :
    ∀ parameter ∈ parse text, ∀ own ∈ parameter.texts, isValid own = true := by
  intro parameter member
  obtain ⟨part, kept, rfl⟩ := List.mem_map.mp member
  obtain ⟨written, inside, rfl⟩ := List.mem_map.mp (List.mem_filter.mp kept).1
  exact ofPart_texts _ (isValid_trim written (isValid_splitTopLevel text valid written inside))

end Parameter

end EndpointPreview.Notation
