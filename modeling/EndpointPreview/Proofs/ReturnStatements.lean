import EndpointPreview.Proofs.JsonifyCalls
import EndpointPreview.StrictFormats

/-!
The statement whose literal an endpoint returns. The rows of the body are searched one by one at the
indentation of the first row with text. What is found is the first `return` statement, unless its
row lies in a string or a bracket of an earlier row, or a comment at another indentation stands
before the first statement.
-/

namespace EndpointPreview.Notation

open Text

structure RowPlace where
  before : List Bytes
  row : Bytes
  later : List Bytes

def placesFrom (before : List Bytes) : List Bytes → List RowPlace
  | [] => []
  | row :: later => ⟨before, row, later⟩ :: placesFrom (before ++ [row]) later

def isWritten (row : Bytes) : Bool := !isBlank row && !startsWith [byte '#'] (trim row)

namespace RowPlace

/-- A statement starts in the row: no string or bracket of an earlier row is open before it. -/
def startsStatement (place : RowPlace) : Bool :=
  isWritten place.row && !leavesOpen (unlines place.before)

def returnsAt (base : Nat) (place : RowPlace) : Bool :=
  indent place.row == base && isReturn (trim place.row)

/-- What is returned: all behind the word, with later rows until strings and brackets are closed. -/
def expression (place : RowPlace) : Bytes :=
  joinUntilBalanced ((place.row.dropWhile isSpace).drop returnWord.length) place.later

def literal? [Json.Dialect] (place : RowPlace) : Option Json := expressionLiteral?
    (trim place.expression)

end RowPlace

def statementIndent? (rows : List Bytes) : Option Nat :=
  ((placesFrom [] rows).find? (·.startsStatement)).map (indent ·.row)

def returnStatement? (rows : List Bytes) : Option RowPlace :=
  (statementIndent? rows).bind fun base =>
    (placesFrom [] rows).find? fun place => place.startsStatement && place.returnsAt base

def statementLiteral? [Json.Dialect] (rows : List Bytes) : Option Json :=
  (returnStatement? rows).bind (·.literal?)

theorem mem_placesFrom (before rows : List Bytes) (place : RowPlace)
    (member : place ∈ placesFrom before rows) : place.row ∈ rows := by
  induction rows generalizing before with
  | nil => cases member
  | cons row later ih =>
      rcases List.mem_cons.mp member with rfl | behind
      · exact List.mem_cons_self
      · exact List.mem_cons_of_mem _ (ih _ behind)

theorem find_placesFrom (picks : RowPlace → Bool) (before front : List Bytes) (row : Bytes)
    (later : List Bytes) (hit : picks ⟨before ++ front, row, later⟩ = true)
    (miss : ∀ place : RowPlace, place.row ∈ front → picks place = false) :
    (placesFrom before (front ++ row :: later)).find? picks =
      some ⟨before ++ front, row, later⟩ := by
  induction front generalizing before with
  | nil =>
      rw [List.append_nil] at hit ⊢
      rw [List.nil_append, placesFrom, List.find?_cons_of_pos hit]
  | cons first front ih =>
      have other : ¬ picks ⟨before, first, front ++ row :: later⟩ = true := by
        rw [miss ⟨before, first, _⟩ List.mem_cons_self]
        exact Bool.false_ne_true
      rw [List.append_cons] at hit
      rw [List.cons_append, placesFrom, List.find?_cons_of_neg other,
        List.append_cons before first front]
      exact ih _ hit fun place member => miss place (List.mem_cons_of_mem _ member)

theorem isReturn_written (row : Bytes) (returns : isReturn (trim row) = true) :
    isWritten row = true := by
  have word : startsWith returnWord (trim row) = true := (Bool.and_eq_true_iff.mp returns).1
  obtain ⟨rest, whole⟩ := List.isPrefixOf_iff_prefix.mp word
  have solid : isBlank row = false := by
    rw [← isBlank_trim, ← whole, isBlank_append]
    rfl
  have no_comment : startsWith [byte '#'] (trim row) = false := by
    rw [← whole]
    rfl
  rw [isWritten, solid, no_comment]
  rfl

/-- Nothing is read of a row that is blank or a comment. -/
theorem words_unwritten (row rest : Bytes) (quiet : isWritten row = false) (one_row : newline ∉ row)
    (starts : ∀ b ∈ rest.head?, b = newline) :
    words (row ++ rest) = words rest ∧ stringsClosed (row ++ rest) = stringsClosed rest := by
  by_cases blank : isBlank row = true
  · obtain ⟨own, closed, _⟩ := words_gap row rest blank
    exact ⟨own, closed⟩
  · have comment : startsWith [byte '#'] (trim row) = true := by simpa [isWritten, blank] using quiet
    obtain ⟨note, mark⟩ := List.isPrefixOf_iff_prefix.mp comment
    obtain ⟨lead, trail, before, _, whole⟩ := trim_between row
    rw [← mark] at whole
    have parts : row ++ rest = lead ++ byte '#' :: (note ++ trail ++ rest) := by
      rw [whole]
      simp
    have in_row : newline ∉ note ++ trail := by
      intro member
      rw [whole] at one_row
      apply one_row
      simp only [List.mem_append] at member ⊢
      rcases member with inside | behind
      · exact .inl (.inr (.inr inside))
      · exact .inr behind
    obtain ⟨own, closed, _⟩ := words_gap lead (byte '#' :: (note ++ trail ++ rest)) before
    obtain ⟨same, same_closed⟩ := words_row (note ++ trail) rest in_row starts
    rw [parts]
    exact ⟨own.trans same, closed.trans same_closed⟩

theorem leavesOpen_unwritten (rows : List Bytes) (quiet : ∀ row ∈ rows, isWritten row = false)
    (single : ∀ row ∈ rows, newline ∉ row) : leavesOpen (unlines rows) = false := by
  have nothing : words (rows.flatMap (newline :: ·)) = [] ∧
      stringsClosed (rows.flatMap (newline :: ·)) = true := by
    induction rows with
    | nil => exact ⟨rfl, rfl⟩
    | cons row rows ih =>
        obtain ⟨own_quiet, others_quiet⟩ := List.forall_mem_cons.mp quiet
        obtain ⟨own_single, others_single⟩ := List.forall_mem_cons.mp single
        obtain ⟨own, closed⟩ := words_unwritten row _ own_quiet own_single (breaks_start rows)
        obtain ⟨later, later_closed⟩ := ih others_quiet others_single
        obtain ⟨gap, gap_closed, _⟩ :=
          words_gap [newline] (row ++ rows.flatMap (newline :: ·)) rfl
        rw [List.flatMap_cons, List.cons_append]
        exact ⟨gap.trans (own.trans later), gap_closed.trans (closed.trans later_closed)⟩
  -- A line break before the first row makes all rows alike.
  have same : leavesOpen (unlines rows) = leavesOpen (rows.flatMap (newline :: ·)) := by
    cases rows with
    | nil => rfl
    | cons row rows =>
        rw [unlines_flatMap, List.flatMap_cons, List.cons_append]
        exact (leavesOpen_lead [newline] _ rfl).symm
  rw [same, leavesOpen, openBracketDepth_words, nothing.1, nothing.2]
  rfl

/-- The first statement stands in the first row with text that is no comment. -/
theorem statementIndent_written (rows : List Bytes) (single : ∀ row ∈ rows, newline ∉ row) :
    statementIndent? rows = (rows.find? isWritten).map indent := by
  unfold statementIndent?
  cases found : rows.find? isWritten with
  | none =>
      have all_quiet := List.find?_eq_none.mp found
      have none_starts : (placesFrom [] rows).find? (·.startsStatement) = none := by
        rw [List.find?_eq_none]
        intro place member starts
        rw [RowPlace.startsStatement, Bool.and_eq_true] at starts
        exact all_quiet _ (mem_placesFrom [] rows place member) starts.1
      rw [none_starts]
      rfl
  | some first =>
      obtain ⟨written, front, later, rfl, quiet⟩ := List.find?_eq_some_iff_append.mp found
      have quiet_front : ∀ row ∈ front, isWritten row = false :=
        fun row member => by simpa using quiet row member
      have closed := leavesOpen_unwritten front quiet_front
        fun row member => single row (List.mem_append_left _ member)
      have place := find_placesFrom (·.startsStatement) [] front first later
        (by simp [RowPlace.startsStatement, written, closed])
        fun place member => by simp [RowPlace.startsStatement, quiet_front _ member]
      rw [place]
      rfl

/-- White space at the end of a row is not read behind closed strings. -/
theorem words_row_end (text gap more : Bytes) (blank : isBlank gap = true) (one_row : newline ∉ gap)
    (starts : ∀ b ∈ more.head?, b = newline) (closed : stringsClosed text = true) :
    words (text ++ (gap ++ more)) = words (text ++ more) ∧
      stringsClosed (text ++ (gap ++ more)) = stringsClosed (text ++ more) := by
  have stops := EndsPiece.of_break starts
  obtain ⟨own, own_closed⟩ := words_append text (gap ++ more) (stops.behind_gap blank) closed
  obtain ⟨other, other_closed⟩ := words_append text more stops closed
  rw [own, own_closed, other, other_closed, behind, behind]
  split
  · rw [dropWhile_past_row gap more one_row]
    exact ⟨rfl, rfl⟩
  · obtain ⟨none_there, none_open, _⟩ := words_gap gap more blank
    rw [none_there, none_open]
    exact ⟨rfl, rfl⟩

theorem join_lead (lead text : Bytes) (rows : List Bytes) (blank : isBlank lead = true) :
    joinUntilBalanced (lead ++ text) rows = lead ++ joinUntilBalanced text rows := by
  induction rows generalizing text with
  | nil => rfl
  | cons row rows ih =>
      rw [joinUntilBalanced, joinUntilBalanced, openBracketDepth_lead lead text blank]
      split
      · rfl
      · rw [List.append_assoc]
        exact ih _

-- The same rows are joined behind the row with and without the white space at its end.
theorem join_row_end (text gap more : Bytes) (rows : List Bytes) (blank : isBlank gap = true)
    (one_row : newline ∉ gap) (starts : ∀ b ∈ more.head?, b = newline)
    (closed : stringsClosed text = true) :
    ∃ joined, (∀ b ∈ joined.head?, b = newline) ∧
      joinUntilBalanced (text ++ more) rows = text ++ joined ∧
      joinUntilBalanced (text ++ (gap ++ more)) rows = text ++ (gap ++ joined) := by
  induction rows generalizing more with
  | nil => exact ⟨more, starts, rfl, rfl⟩
  | cons row rows ih =>
      obtain ⟨same, same_closed⟩ := words_row_end text gap more blank one_row starts closed
      have depth : openBracketDepth (text ++ (gap ++ more)) = openBracketDepth (text ++ more) := by
        rw [openBracketDepth_words, openBracketDepth_words, same, same_closed]
      have longer : ∀ b ∈ (more ++ newline :: row).head?, b = newline := by
        cases more with
        | nil =>
            rintro b ⟨⟩
            rfl
        | cons first more => exact starts
      rw [joinUntilBalanced, joinUntilBalanced, depth]
      split
      · exact ⟨more, starts, rfl, rfl⟩
      · obtain ⟨joined, joined_starts, own, other⟩ := ih (more ++ newline :: row) longer
        refine ⟨joined, joined_starts, ?_, ?_⟩
        · rw [← own, List.append_assoc]
        · rw [← other, List.append_assoc, List.append_assoc]

-- A call that is not in the first row is not taken off.
theorem unwrapJsonify_row (text more : Bytes) (last : UInt8)
    (spaced : ∀ b ∈ (more ++ [last]).head?, isSpace b = true)
    (other : ¬ (jsonifyCall <+: text ∧ last = byte ')')) :
    unwrapJsonify (text ++ (more ++ [last])) = text ++ (more ++ [last]) := by
  obtain ⟨argument, call, _⟩ | same := unwrapJsonify_cases (text ++ (more ++ [last]))
  · have stops : ∀ b ∈ (more ++ [last]).head?, b ∉ jsonifyCall := by
      intro b head member
      have space := spaced b head
      have solid : jsonifyCall.all (!isSpace ·) = true := by decide
      have own := List.all_eq_true.mp solid b member
      rw [space] at own
      cases own
    have front : jsonifyCall <+: text := prefix_inside stops ⟨_, call.symm⟩
    have ends := congrArg List.getLast? call
    rw [← List.append_assoc, ← List.append_assoc, List.getLast?_concat, List.getLast?_concat] at ends
    exact absurd ⟨front, Option.some.inj ends⟩ other
  · exact same

theorem trimmed_first (first : UInt8) (text : Bytes) (trimmed : trim (first :: text) = first :: text) :
    isSpace first = false := by
  by_contra space
  rw [Bool.not_eq_false] at space
  have lead := trim_lead [first] text (by simpa using space)
  rw [List.singleton_append, trimmed] at lead
  have shorter := (trim_inside text).length_le
  rw [← lead, List.length_cons] at shorter
  omega

-- Behind a solid byte only white space at the end is cut off.
theorem trim_first (first : UInt8) (text more : Bytes) (trimmed : trim (first :: text) = first :: text)
    (solid : isBlank more = false) :
    trim (first :: text ++ more) = first :: text ++ dropEndWhile isSpace more := by
  rw [← dropEnd_keeps (first :: text) more solid]
  unfold trim
  rw [List.cons_append, List.dropWhile_cons_of_neg (by simp [trimmed_first first text trimmed])]

theorem dropEnd_starts (more : Bytes) (solid : isBlank more = false)
    (starts : ∀ b ∈ more.head?, b = newline) :
    ∃ inner last, dropEndWhile isSpace more = inner ++ [last] ∧
      ∀ b ∈ (inner ++ [last]).head?, b = newline := by
  rcases List.eq_nil_or_concat' (dropEndWhile isSpace more) with gone | ⟨inner, last, parts⟩
  · rw [dropEndWhile_eq, List.rdropWhile_eq_nil_iff] at gone
    rw [(isBlank_iff more).mpr gone] at solid
    cases solid
  · obtain ⟨cut, whole⟩ := List.rdropWhile_prefix isSpace more
    rw [← dropEndWhile_eq, parts] at whole
    refine ⟨inner, last, parts, fun b head => starts b ?_⟩
    rw [← whole, List.head?_append_of_ne_nil _ (by simp)]
    exact head

/-- Such white space does not change what the joined text is read as. -/
theorem literal_row_end [Json.Dialect] (text gap more : Bytes) (trimmed : trim text = text)
    (blank : isBlank gap = true) (one_row : newline ∉ gap) (starts : ∀ b ∈ more.head?, b = newline)
    (closed : stringsClosed text = true) :
    literal? (unwrapJsonify (trim (text ++ (gap ++ more)))) =
      literal? (unwrapJsonify (trim (text ++ more))) := by
  by_cases empty : isBlank more = true
  · have all_blank : isBlank (gap ++ more) = true := by simp [blank, empty]
    rw [trim_trail text _ all_blank, trim_trail text _ empty]
  rw [Bool.not_eq_true] at empty
  cases text with
  | nil => rw [List.nil_append, List.nil_append, trim_lead gap more blank]
  | cons first text =>
      have written : isBlank (gap ++ more) = false := by simp [empty]
      rw [trim_first first text more trimmed empty, trim_first first text _ trimmed written,
        dropEnd_keeps gap more empty]
      obtain ⟨inner, last, parts, kept_starts⟩ := dropEnd_starts more empty starts
      rw [parts]
      have spaced : ∀ b ∈ (inner ++ [last]).head?, isSpace b = true := by
        intro b head
        rw [kept_starts b head]
        rfl
      have gap_spaced : ∀ b ∈ (gap ++ inner ++ [last]).head?, isSpace b = true := by
        cases gap with
        | nil => exact spaced
        | cons space gap =>
            rintro b ⟨⟩
            exact (isBlank_iff _).mp blank space List.mem_cons_self
      rw [← List.append_assoc gap]
      by_cases call : jsonifyCall <+: first :: text ∧ last = byte ')'
      · obtain ⟨⟨argument, own⟩, rfl⟩ := call
        have inner_starts : ∀ b ∈ inner.head?, b = newline := by
          cases inner with
          | nil => nofun
          | cons b inner => exact kept_starts
        rw [← own, (words_jsonify argument).2] at closed
        obtain ⟨same, same_closed⟩ :=
          words_row_end argument gap inner blank one_row inner_starts closed
        have call (rest : Bytes) : jsonifyCall ++ argument ++ (rest ++ [byte ')']) =
            jsonifyCall ++ (argument ++ rest ++ [byte ')']) := by simp
        rw [← own, call, call, unwrapJsonify_call, unwrapJsonify_call]
        exact literal_words _ _ same_closed fun _ => same
      · obtain ⟨same, same_closed⟩ :=
          words_row_end (first :: text) gap (inner ++ [last]) blank one_row kept_starts closed
        rw [unwrapJsonify_row _ inner last spaced call,
          unwrapJsonify_row _ (gap ++ inner) last gap_spaced call, List.append_assoc gap]
        exact literal_words _ _ same_closed fun _ => same

theorem trimmed_end (text gap : Bytes) (blank : isBlank gap = true)
    (solid : dropEndWhile isSpace (text ++ gap) = text ++ gap) : gap = [] := by
  have shorter := (List.rdropWhile_prefix isSpace text).length_le
  rw [← dropEndWhile_eq, ← dropEnd_blank text gap blank, solid, List.length_append] at shorter
  exact List.length_eq_zero_iff.mp (by omega)

-- White space stands around the expression that is taken from the row.
theorem returned_between (row : Bytes) (returns : isReturn (trim row) = true) :
    ∃ front lead gap, isBlank lead = true ∧ isBlank gap = true ∧
      row = front ++ (lead ++ (returned (trim row) ++ gap)) ∧
      (row.dropWhile isSpace).drop returnWord.length = lead ++ (returned (trim row) ++ gap) := by
  have word : startsWith returnWord (trim row) = true := (Bool.and_eq_true_iff.mp returns).1
  obtain ⟨rest, own⟩ := List.isPrefixOf_iff_prefix.mp word
  obtain ⟨margin, row_end, before, after, whole⟩ := trim_between row
  obtain ⟨lead, trail, lead_blank, trail_blank, parts⟩ := trim_between rest
  have expression : returned (trim row) = trim rest := by
    rw [← own, returned, List.drop_left]
  have text : row = margin ++ (returnWord ++ (lead ++ (trim rest ++ (trail ++ row_end)))) := by
    rw [← List.append_assoc (trim rest), ← List.append_assoc lead, ← List.append_assoc lead, ← parts,
      ← List.append_assoc returnWord, own, ← List.append_assoc]
    exact whole
  have inner : row.dropWhile isSpace =
      returnWord ++ (lead ++ (trim rest ++ (trail ++ row_end))) := by
    rw [text, dropWhile_blank margin _ before]
    rfl
  refine ⟨margin ++ returnWord, lead, trail ++ row_end, lead_blank, by simp [trail_blank, after], ?_, ?_⟩
  · rw [expression, List.append_assoc]
    exact text
  · rw [expression, inner, List.drop_left]

/-- The literal of the statement is read at its row, unless white space at the end of the row belongs
to a string. -/
theorem literal_place [Json.Dialect] (place : RowPlace) (one_row : newline ∉ place.row)
    (returns : isReturn (trim place.row) = true)
    (ends : stringsClosed (returned (trim place.row)) = true ∨
      dropEndWhile isSpace place.row = place.row) :
    place.literal? =
      expressionLiteral? (trim (joinUntilBalanced (returned (trim place.row)) place.later)) := by
  obtain ⟨front, lead, gap, lead_blank, gap_blank, whole, own⟩ := returned_between place.row returns
  have gap_row : newline ∉ gap := fun member => one_row (by rw [whole]; simp [member])
  unfold RowPlace.literal? RowPlace.expression
  rw [own, join_lead lead _ _ lead_blank, trim_lead lead _ lead_blank]
  rcases ends with closed | solid
  · obtain ⟨joined, starts, same, other⟩ :=
      join_row_end (returned (trim place.row)) gap [] place.later gap_blank gap_row nofun closed
    rw [List.append_nil] at same other
    rw [same, other, expressionLiteral_text, expressionLiteral_text]
    exact literal_row_end _ gap joined (trim_trim _) gap_blank gap_row starts closed
  · have nothing : gap = [] := by
      apply trimmed_end (front ++ (lead ++ returned (trim place.row))) gap gap_blank
      have parts : front ++ (lead ++ returned (trim place.row)) ++ gap = place.row := by
        rw [List.append_assoc, List.append_assoc]
        exact whole.symm
      rw [parts]
      exact solid
    rw [nothing, List.append_nil]

theorem returnAt_first [Json.Dialect] (base : Nat) (rows : List Bytes) (value : Json)
    (found : returnAt base rows = some value) :
    ∃ place : RowPlace, rows = place.before ++ place.row :: place.later ∧
      (∀ row ∈ place.before, indent row = base → isReturn (trim row) = false) ∧
      indent place.row = base ∧ isReturn (trim place.row) = true ∧
      expressionLiteral? (trim (joinUntilBalanced (returned (trim place.row)) place.later)) =
        some value := by
  induction rows with
  | nil => cases found
  | cons row later ih =>
      rw [returnAt] at found
      by_cases here : (!isBlank row && indent row == base && isReturn (trim row)) = true
      · rw [if_pos here] at found
        simp only [Bool.and_eq_true, beq_iff_eq] at here
        exact ⟨⟨[], row, later⟩, rfl, List.forall_mem_nil _, here.1.2, here.2, found⟩
      · rw [if_neg here] at found
        obtain ⟨place, rfl, earlier, own⟩ := ih found
        refine ⟨⟨row :: place.before, place.row, place.later⟩, rfl, ?_, own⟩
        refine List.forall_mem_cons.mpr ⟨fun at_base => ?_, earlier⟩
        by_contra returns
        rw [Bool.not_eq_false] at returns
        have written := isReturn_written row returns
        rw [isWritten, Bool.and_eq_true] at written
        exact here (by simp [at_base, returns, written.1])

-- The rows return the value: of the rows at the base, the place is the first one with a `return`.
-- It is the first `return` statement just when its row lies in no open string or bracket and the
-- first row with text that is no comment stands at its indentation. Its literal is the value if
-- white space at the end of the row is not in a string.
structure ReturnsAt [Json.Dialect] (rows : List Bytes) (value : Json) (place : RowPlace) :
    Prop where
  whole : rows = place.before ++ place.row :: place.later
  base : baseIndent? rows = some (indent place.row)
  returns : isReturn (trim place.row) = true
  first : ∀ row ∈ place.before, indent row = indent place.row → isReturn (trim row) = false
  statement : returnStatement? rows = some place ↔
    leavesOpen (unlines place.before) = false ∧
      (rows.find? isWritten).map indent = some (indent place.row)
  literal : stringsClosed (returned (trim place.row)) = true ∨
    dropEndWhile isSpace place.row = place.row → place.literal? = some value

theorem returnStatement_place (rows : List Bytes) (place : RowPlace)
    (single : ∀ row ∈ rows, newline ∉ row) (whole : rows = place.before ++ place.row :: place.later)
    (returns : isReturn (trim place.row) = true)
    (first : ∀ row ∈ place.before, indent row = indent place.row → isReturn (trim row) = false) :
    returnStatement? rows = some place ↔
      leavesOpen (unlines place.before) = false ∧
        (rows.find? isWritten).map indent = some (indent place.row) := by
  rw [← statementIndent_written rows single]
  constructor
  · intro found
    obtain ⟨column, own_base, picked⟩ := Option.bind_eq_some_iff.mp found
    have hit := List.find?_some picked
    simp only [RowPlace.startsStatement, RowPlace.returnsAt, Bool.and_eq_true, beq_iff_eq,
      Bool.not_eq_true'] at hit
    obtain ⟨⟨_, closed⟩, rfl, _⟩ := hit
    exact ⟨closed, own_base⟩
  · rintro ⟨closed, own_base⟩
    have written := isReturn_written place.row returns
    have picked := find_placesFrom
      (fun other => other.startsStatement && other.returnsAt (indent place.row)) [] place.before
      place.row place.later
      (by simp [RowPlace.startsStatement, RowPlace.returnsAt, written, closed, returns])
      fun other member => by
        by_cases at_base : indent other.row = indent place.row
        · simp [RowPlace.returnsAt, first _ member at_base]
        · simp [RowPlace.returnsAt, at_base]
    rw [returnStatement?, own_base, whole]
    exact picked

/-- Where the literal that an endpoint returns stands in its body. -/
theorem returnLiteral_place [Json.Dialect] (endpoint : Endpoint) (value : Json)
    (below : endpoint.inlineBody = []) (found : endpoint.returnLiteral? = some value) :
    ∃ place, ReturnsAt endpoint.bodyRows value place := by
  have search : returnIn endpoint.bodyRows = some value :=
    (returnLiteral_below endpoint below).symm.trans found
  obtain ⟨base, at_base, at_value⟩ : ∃ base, baseIndent? endpoint.bodyRows = some base ∧
      returnAt base endpoint.bodyRows = some value := by
    unfold returnIn at search
    unfold baseIndent?
    cases row : endpoint.bodyRows.find? (!isBlank ·) with
    | none =>
        rw [row] at search
        cases search
    | some first =>
        rw [row] at search
        exact ⟨indent first, rfl, search⟩
  obtain ⟨place, whole, first, rfl, returns, read⟩ := returnAt_first base _ value at_value
  have one_row : newline ∉ place.row := bodyRows_single endpoint place.row (by rw [whole]; simp)
  exact ⟨place,
    { whole := whole
      base := at_base
      returns := returns
      first := first
      statement := returnStatement_place _ place (bodyRows_single endpoint) whole returns first
      literal := fun ends => (literal_place place one_row returns ends).trans read }⟩

section Strict

attribute [local instance] Json.strict

theorem returnLiteral_place_nested :
    ∃ place, ReturnsAt
      (rowsEndpoint (ascii "\"\"\"Two.\"\"\"\n    if x:\n        return 1\n    return [2,\n  3]")).bodyRows
      (.arr [.int 2, .int 3]) place :=
  returnLiteral_place _ _ rfl (by rfl)

def docstringSource : Bytes := ascii
  "@endpoint('/a')\ndef f():\n    \"\"\"\n    return 1\n    \"\"\"\n    return 2\n"

-- The row in the string is taken for the statement.
theorem docstring_decides :
    ¬ ∀ (source : Bytes) (endpoint : Endpoint) (value : Json), endpoint ∈ (parse source).endpoints →
      endpoint.inlineBody = [] → endpoint.returnLiteral? = some value →
      statementLiteral? endpoint.bodyRows = some value := by
  intro always
  let endpoint := rowsEndpoint (ascii "\"\"\"\n    return 1\n    \"\"\"\n    return 2")
  have parsed : endpoint ∈ (parse docstringSource).endpoints := by decide +kernel
  have read : endpoint.returnLiteral? = some (.int 1) := by rfl
  have own : statementLiteral? endpoint.bodyRows = some (.int 2) := by rfl
  have same := always docstringSource endpoint _ parsed rfl read
  rw [own] at same
  cases same

end Strict

end EndpointPreview.Notation
