import EndpointPreview.Notation.Header
import EndpointPreview.Proofs.Lines

/-!
Headers of definitions that go on over several rows. A header depends on its own
rows only, and taking carriage returns off the ends of these rows changes nothing of
it but white space in the parameter text.
-/

namespace EndpointPreview.Notation

open Text

theorem step_newline_closes (state : Nesting) (rest : Bytes) :
    closedLength? state (newline :: rest) =
      (closedLength? (state.step newline) rest).map (· + 1) := by
  simp [closedLength?, show isClosing newline = false from by decide]

theorem closedLength_append (state : Nesting) (left right : Bytes) :
    closedLength? state (left ++ right) =
      (closedLength? state left).or
        ((closedLength? (left.foldl Nesting.step state) right).map (left.length + ·)) := by
  induction left generalizing state with
  | nil =>
      simp [closedLength?]
  | cons b left ih =>
      simp only [List.cons_append, closedLength?, List.foldl_cons]
      split
      · rfl
      · rw [ih (state.step b)]
        cases closedLength? (state.step b) left with
        | some length => rfl
        | none =>
            cases closedLength? (left.foldl Nesting.step (state.step b)) right with
            | none => rfl
            | some length => simp; omega

theorem closedLength_bounds (state : Nesting) (text : Bytes) (length : Nat)
    (closed : closedLength? state text = some length) : length ≤ text.length := by
  induction text generalizing state length with
  | nil => simp [closedLength?] at closed
  | cons b rest ih =>
      unfold closedLength? at closed
      split at closed
      · cases closed
        simp
      · obtain ⟨shorter, found, rfl⟩ := Option.map_eq_some_iff.mp closed
        have bound := ih (state.step b) shorter found
        simpa using bound

theorem closedLength_solid (state : Nesting) (text : Bytes) (length : Nat)
    (closed : closedLength? state text = some length) : isBlank text = false := by
  induction text generalizing state length with
  | nil => simp [closedLength?] at closed
  | cons b rest ih =>
      unfold closedLength? at closed
      split at closed
      · rename_i closes
        have bracket : isClosing b = true := by
          simp only [Bool.and_eq_true] at closes
          exact closes.1.2
        have solid : isSpace b = false := by
          simp only [isClosing, Bool.or_eq_true, beq_iff_eq] at bracket
          rcases bracket with (rfl | rfl) | rfl <;> decide
        simp [solid]
      · obtain ⟨shorter, found, _⟩ := Option.map_eq_some_iff.mp closed
        simp [ih (state.step b) shorter found]

def Nesting.Quoted (state : Nesting) : Prop :=
  ∀ quote ∈ state.quote, quote = singleQuote ∨ quote = doubleQuote

theorem quoted_outside : Nesting.outside.Quoted := by
  intro quote member
  simp [Nesting.outside] at member

theorem quoted_step (state : Nesting) (b : UInt8) (quoted : state.Quoted) :
    (state.step b).Quoted := by
  intro quote member
  obtain ⟨depth, inside, escaped⟩ := state
  cases inside with
  | none =>
      by_cases opens : b = singleQuote ∨ b = doubleQuote
      · have same : b = quote := by simpa [Nesting.step, opens] using member
        exact same ▸ opens
      · exfalso
        revert member
        simp only [Nesting.step, Bool.or_eq_true, beq_iff_eq, opens, ↓reduceIte]
        split
        · simp
        · split <;> simp
  | some current =>
      have kept := quoted current rfl
      revert member
      simp only [Nesting.step]
      split
      · simp only [Option.mem_some_iff]
        exact fun same => same ▸ kept
      · split
        · simp only [Option.mem_some_iff]
          exact fun same => same ▸ kept
        · split
          · simp
          · simp only [Option.mem_some_iff]
            exact fun same => same ▸ kept

theorem quoted_foldl (text : Bytes) (state : Nesting) (quoted : state.Quoted) :
    (text.foldl Nesting.step state).Quoted := by
  induction text generalizing state with
  | nil => exact quoted
  | cons b rest ih => exact ih _ (quoted_step state b quoted)

-- A carriage return before a newline leaves no trace: at most it takes the escape
-- that the newline would have taken.
theorem step_return_newline (state : Nesting) (quoted : state.Quoted) :
    (state.step carriageReturn).step newline = state.step newline := by
  obtain ⟨depth, inside, escaped⟩ := state
  cases inside with
  | none => rfl
  | some quote =>
      rcases quoted quote rfl with same | same <;> subst same <;> cases escaped <;> rfl

theorem settle_chompReturn (state : Nesting) (row : Bytes) (quoted : state.Quoted) :
    (row.foldl Nesting.step state).step newline =
      ((chompReturn row).foldl Nesting.step state).step newline := by
  rcases chompReturn_cases row with same | ends
  · rw [same]
  · conv_lhs => rw [ends, List.foldl_append]
    exact step_return_newline _ (quoted_foldl _ state quoted)

theorem closedLength_chompReturn (state : Nesting) (row : Bytes) :
    closedLength? state row = closedLength? state (chompReturn row) := by
  rcases chompReturn_cases row with same | ends
  · rw [same]
  · conv_lhs => rw [ends, closedLength_append]
    have none_after (last : Nesting) : closedLength? last [carriageReturn] = none := by
      simp [closedLength?, show isClosing carriageReturn = false from by decide]
    simp [none_after]

/-- Where the list that is open in the state closes: the number of rows up to there
and what follows in the last of them. -/
def closingRow (state : Nesting) : List Bytes → Option (Nat × Bytes)
  | [] => none
  | row :: later =>
      match closedLength? (state.step newline) row with
      | some length => some (1, row.drop length)
      | none =>
          (closingRow (row.foldl Nesting.step (state.step newline)) later).map
            fun (count, rest) => (count + 1, rest)

def ClosedList.ending (closed : ClosedList) : Nat × Bytes :=
  (closed.extraLines, closed.text.drop closed.length)

theorem closeList_ending (text : Bytes) (extraLines : Nat) (later : List Bytes)
    (stays_open : closedLength? .outside text = none) :
    (closeList? text extraLines later).map ClosedList.ending =
      (closingRow (text.foldl Nesting.step .outside) later).map
        fun (count, rest) => (extraLines + count, rest) := by
  induction later generalizing text extraLines with
  | nil => simp [closeList?, stays_open, closingRow]
  | cons row later ih =>
      let state := text.foldl Nesting.step .outside
      have longer : closedLength? .outside (text ++ newline :: row) =
          (closedLength? (state.step newline) row).map (fun n => text.length + (n + 1)) := by
        rw [closedLength_append, stays_open, step_newline_closes]
        simp [state, Function.comp_def]
      have next_state : (text ++ newline :: row).foldl Nesting.step .outside =
          row.foldl Nesting.step (state.step newline) := by
        simp [state, List.foldl_append]
      simp only [closeList?, stays_open, closingRow]
      cases closes : closedLength? (state.step newline) row with
      | some length =>
          rw [closes] at longer
          have there : closeList? (text ++ newline :: row) (extraLines + 1) later =
              some ⟨text ++ newline :: row, text.length + (length + 1), extraLines + 1⟩ := by
            cases later <;> simp [closeList?, longer]
          rw [there]
          simp [ClosedList.ending, List.drop_append]
      | none =>
          rw [closes] at longer
          rw [ih _ (extraLines + 1) (by simpa using longer), next_state]
          simp only [Option.map_map]
          congr 1
          funext ⟨count, rest⟩
          simp only [Function.comp_apply, Prod.mk.injEq, and_true]
          omega

theorem closingRow_take (state : Nesting) (later other : List Bytes) (count : Nat)
    (rest : Bytes) (closes : closingRow state later = some (count, rest)) :
    count ≤ later.length ∧ closingRow state (later.take count ++ other) = some (count, rest) := by
  induction later generalizing state count rest with
  | nil => simp [closingRow] at closes
  | cons row later ih =>
      unfold closingRow at closes
      cases here : closedLength? (state.step newline) row with
      | some length =>
          simp only [here, Option.some.injEq, Prod.mk.injEq] at closes
          obtain ⟨rfl, rfl⟩ := closes
          exact ⟨by simp, by simp [closingRow, here]⟩
      | none =>
          simp only [here] at closes
          obtain ⟨⟨fewer, found⟩, later_closes, same⟩ := Option.map_eq_some_iff.mp closes
          simp only [Prod.mk.injEq] at same
          obtain ⟨rfl, rfl⟩ := same
          obtain ⟨bound, again⟩ := ih _ fewer found later_closes
          exact ⟨by simpa using bound, by simp [closingRow, here, again]⟩

theorem closingRow_chompReturn (state other : Nesting) (later : List Bytes) (count : Nat)
    (rest : Bytes) (quoted : state.Quoted) (other_quoted : other.Quoted)
    (settled : state.step newline = other.step newline)
    (closes : closingRow state later = some (count, rest)) :
    ∃ trimmed, closingRow other (later.map chompReturn) = some (count, trimmed) ∧
      trim trimmed = trim rest := by
  induction later generalizing state other count rest with
  | nil => simp [closingRow] at closes
  | cons row later ih =>
      unfold closingRow at closes
      -- The two states agree behind a line break, and a row starts behind one.
      have same_close := closedLength_chompReturn (state.step newline) row
      cases here : closedLength? (state.step newline) row with
      | some length =>
          simp only [here, Option.some.injEq, Prod.mk.injEq] at closes
          obtain ⟨rfl, rfl⟩ := closes
          rw [here] at same_close
          refine ⟨(chompReturn row).drop length, ?_, ?_⟩
          · simp [closingRow, ← settled, ← same_close]
          · have bound := closedLength_bounds _ _ _ same_close.symm
            rcases chompReturn_cases row with same | ends
            · rw [same]
            · conv_rhs => rw [ends, List.drop_append_of_le_length bound]
              exact (trim_trail _ _ (by decide)).symm
      | none =>
          simp only [here] at closes
          obtain ⟨⟨fewer, found⟩, later_closes, same⟩ := Option.map_eq_some_iff.mp closes
          simp only [Prod.mk.injEq] at same
          obtain ⟨rfl, rfl⟩ := same
          rw [here] at same_close
          have state_quoted := quoted_step state newline quoted
          have next_settled := settle_chompReturn (state.step newline) row state_quoted
          obtain ⟨trimmed, again, alike⟩ := ih _
            ((chompReturn row).foldl Nesting.step (state.step newline)) fewer found
            (quoted_foldl row _ state_quoted) (quoted_foldl _ _ state_quoted)
            next_settled later_closes
          refine ⟨trimmed, ?_, alike⟩
          simp [closingRow, ← settled, ← same_close, again]

theorem closingRow_row (state : Nesting) (later : List Bytes) (count : Nat) (rest : Bytes)
    (closes : closingRow state later = some (count, rest)) :
    ∃ before row, later.take count = before ++ [row] ∧ isBlank row = false ∧
      ∃ length, rest = row.drop length := by
  induction later generalizing state count rest with
  | nil => simp [closingRow] at closes
  | cons row later ih =>
      unfold closingRow at closes
      cases here : closedLength? (state.step newline) row with
      | some length =>
          simp only [here, Option.some.injEq, Prod.mk.injEq] at closes
          obtain ⟨rfl, rfl⟩ := closes
          exact ⟨[], row, by simp, closedLength_solid _ _ _ here, length, rfl⟩
      | none =>
          simp only [here] at closes
          obtain ⟨⟨fewer, found⟩, later_closes, same⟩ := Option.map_eq_some_iff.mp closes
          simp only [Prod.mk.injEq] at same
          obtain ⟨rfl, rfl⟩ := same
          obtain ⟨before, last, taken, solid, cut⟩ := ih _ fewer found later_closes
          exact ⟨row :: before, last, by simp [taken], solid, cut⟩

theorem openDefinition_some (stripped name opened : Bytes)
    (opens : openDefinition? stripped = some (name, opened)) :
    startsWith (ascii "def") stripped = true ∧ name.all isWordByte = true ∧
      (name.head?.map fun b => !isDigit b).getD false = true ∧
      opened <:+ stripped := by
  unfold openDefinition? at opens
  simp only at opens
  split at opens
  · rename_i shape
    simp only [Bool.and_eq_true] at shape
    obtain ⟨⟨⟨word, _⟩, letter⟩, _⟩ := shape
    simp only [Option.some.injEq, Prod.mk.injEq] at opens
    obtain ⟨rfl, rfl⟩ := opens
    refine ⟨word, ?_, letter, ?_⟩
    · exact List.all_eq_true.mpr fun b member => List.mem_takeWhile_imp member
    · exact (List.dropWhile_suffix _).trans ((List.dropWhile_suffix _).trans
        ((List.dropWhile_suffix _).trans (List.drop_suffix 3 stripped)))
  · cases opens

theorem definition_solid (line name opened : Bytes)
    (opens : openDefinition? (trim line) = some (name, opened)) : isBlank line = false := by
  by_contra blank
  have empty := (trim_eq_nil_iff line).mpr (by simpa using blank)
  have word := (openDefinition_some _ _ _ opens).1
  rw [empty] at word
  exact absurd word (by decide)

theorem ofClosed_found (name : Bytes) (closed : ClosedList) (header : Header)
    (found : Header.ofClosed name closed = .found header) :
    header.name = name ∧ header.lineCount = closed.extraLines + 1 ∧
      ∃ before body, cutAt? (byte ':') (trim closed.ending.2) = some (before, body) ∧
        endsHeader (trim closed.ending.2) = true ∧ header.inlineBody = inlineAfter body := by
  unfold Header.ofClosed at found
  simp only at found
  split at found
  · rename_i before body cut
    split at found
    · rename_i ends
      cases found
      exact ⟨rfl, rfl, before, body, cut, ends, rfl⟩
    · cases found
  · cases found

-- Only the end of a closed list and its number of rows matter to the rest of the header.
theorem ofClosed_again (name : Bytes) (closed other : ClosedList) (header : Header)
    (found : Header.ofClosed name closed = .found header)
    (rows : other.extraLines = closed.extraLines)
    (alike : trim other.ending.2 = trim closed.ending.2) :
    ∃ again, Header.ofClosed name other = .found again ∧ again.name = header.name ∧
      again.lineCount = header.lineCount := by
  obtain ⟨same_name, count, before, body, cut, ends, _⟩ := ofClosed_found name closed header found
  rw [← alike] at cut ends
  refine ⟨⟨name, (other.text.take (other.length - 1)).drop 1, inlineAfter body,
    other.extraLines + 1⟩, ?_, same_name.symm, by simp [count, rows]⟩
  unfold Header.ofClosed
  simp only [ClosedList.ending] at cut ends
  simp only [cut, ends, ↓reduceIte]

theorem read_found (line : Bytes) (later : List Bytes) (header : Header)
    (found : Header.read line later = .found header) :
    ∃ opened closed, openDefinition? (trim line) = some (header.name, opened) ∧
      closeList? opened 0 later = some closed ∧
      Header.ofClosed header.name closed = .found header := by
  unfold Header.read at found
  split at found
  · cases found
  · rename_i name opened opens
    split at found
    · cases found
    · rename_i closed closes
      have same_name := (ofClosed_found name closed header found).1
      rw [same_name]
      exact ⟨opened, closed, opens, closes, found⟩

/-- The list of a header closes in its first row or in a later one. -/
theorem closeList_cases (opened : Bytes) (later : List Bytes) (closed : ClosedList)
    (closes : closeList? opened 0 later = some closed) :
    (∃ length, closedLength? .outside opened = some length ∧ closed = ⟨opened, length, 0⟩) ∨
      (closedLength? .outside opened = none ∧
        closingRow (opened.foldl Nesting.step .outside) later =
          some (closed.extraLines, closed.text.drop closed.length)) := by
  cases here : closedLength? .outside opened with
  | some length =>
      left
      refine ⟨length, rfl, ?_⟩
      cases later <;> simpa [closeList?, here, eq_comm] using closes
  | none =>
      right
      have ending := closeList_ending opened 0 later here
      rw [closes] at ending
      simpa [ClosedList.ending] using ending.symm

theorem closeList_of_closingRow (opened : Bytes) (later : List Bytes) (count : Nat) (rest : Bytes)
    (stays_open : closedLength? .outside opened = none)
    (closes : closingRow (opened.foldl Nesting.step .outside) later = some (count, rest)) :
    ∃ closed, closeList? opened 0 later = some closed ∧ closed.ending = (count, rest) := by
  have ending := closeList_ending opened 0 later stays_open
  rw [closes] at ending
  simpa using ending

theorem closeList_take (text : Bytes) (extraLines : Nat) (later other : List Bytes)
    (closed : ClosedList) (closes : closeList? text extraLines later = some closed) :
    extraLines ≤ closed.extraLines ∧
      closeList? text extraLines (later.take (closed.extraLines - extraLines) ++ other) =
        some closed := by
  induction later generalizing text extraLines with
  | nil =>
      obtain ⟨length, here, rfl⟩ := Option.map_eq_some_iff.mp closes
      cases other <;> simp [closeList?, here]
  | cons row later ih =>
      unfold closeList? at closes
      split at closes
      · rename_i length here
        cases closes
        cases other <;> simp [closeList?, here]
      · rename_i here
        obtain ⟨bound, again⟩ := ih _ (extraLines + 1) closes
        have one_more : closed.extraLines - extraLines = closed.extraLines - (extraLines + 1) + 1 := by
          omega
        refine ⟨by omega, ?_⟩
        rw [one_more, List.take_succ_cons, List.cons_append]
        simp only [closeList?, here]
        exact again

-- A header is the same whatever follows its own rows.
theorem read_own (line : Bytes) (later other : List Bytes) (header : Header)
    (found : Header.read line later = .found header) :
    Header.read line (later.take (header.lineCount - 1) ++ other) = .found header := by
  obtain ⟨opened, closed, opens, closes, shape⟩ := read_found line later header found
  have count := (ofClosed_found _ _ _ shape).2.1
  have own := (closeList_take opened 0 later other closed closes).2
  have extra : header.lineCount - 1 = closed.extraLines - 0 := by omega
  simp only [Header.read, opens, extra, own]
  exact shape

/-- A header is read again from its own rows without carriage returns at their ends,
whatever follows them. -/
theorem read_again (line : Bytes) (later other : List Bytes) (header : Header)
    (found : Header.read line later = .found header) :
    ∃ again, Header.read (chompReturn line)
        ((later.take (header.lineCount - 1)).map chompReturn ++ other) = .found again ∧
      again.name = header.name ∧ again.lineCount = header.lineCount := by
  obtain ⟨opened, closed, opens, closes, shape⟩ := read_found line later header found
  have count := (ofClosed_found _ _ _ shape).2.1
  suffices ∃ new, closeList? opened 0
      ((later.take (header.lineCount - 1)).map chompReturn ++ other) = some new ∧
      new.extraLines = closed.extraLines ∧ trim new.ending.2 = trim closed.ending.2 by
    obtain ⟨new, new_closes, rows, alike⟩ := this
    obtain ⟨again, again_found, same⟩ := ofClosed_again _ _ new _ shape rows alike
    refine ⟨again, ?_, same⟩
    simp only [Header.read, trim_chompReturn, opens, new_closes]
    exact again_found
  -- A list that closes in its first row looks at no other one.
  rcases closeList_cases opened later closed closes with ⟨length, here, same⟩ | ⟨stays, row⟩
  · refine ⟨closed, ?_, rfl, rfl⟩
    subst same
    cases (later.take (header.lineCount - 1)).map chompReturn ++ other <;>
      simp [closeList?, here]
  · have extra : header.lineCount - 1 = closed.extraLines := by omega
    have quoted := quoted_foldl opened _ quoted_outside
    obtain ⟨bound, own_rows⟩ := closingRow_take _ later [] _ _ row
    rw [List.append_nil] at own_rows
    obtain ⟨trimmed, chomped, alike⟩ := closingRow_chompReturn _ _ _ _ _ quoted quoted rfl own_rows
    obtain ⟨_, extended⟩ := closingRow_take _ _ other _ _ chomped
    have whole : ((later.take closed.extraLines).map chompReturn).length ≤ closed.extraLines := by
      rw [List.length_map, List.length_take]
      exact Nat.min_le_left _ _
    rw [List.take_of_length_le whole] at extended
    obtain ⟨new, new_closes, ending⟩ := closeList_of_closingRow opened _ _ _ stays extended
    rw [extra]
    refine ⟨new, new_closes, congrArg Prod.fst ending, ?_⟩
    rw [ending]
    exact alike

-- The last row of a header has something on it.
theorem header_rows (line : Bytes) (later : List Bytes) (header : Header)
    (found : Header.read line later = .found header) :
    0 < header.lineCount ∧ header.lineCount - 1 ≤ later.length ∧
      ∃ before last, line :: later.take (header.lineCount - 1) = before ++ [last] ∧
        isBlank last = false := by
  obtain ⟨opened, closed, opens, closes, shape⟩ := read_found line later header found
  have count := (ofClosed_found _ _ _ shape).2.1
  have extra : header.lineCount - 1 = closed.extraLines := by omega
  have solid := definition_solid line _ _ opens
  rcases closeList_cases opened later closed closes with ⟨length, _, rfl⟩ | ⟨_, row⟩
  · refine ⟨by omega, by simp [extra], [], line, by simp [extra], solid⟩
  · have bound := (closingRow_take _ later [] _ _ row).1
    obtain ⟨before, last, taken, last_solid, _⟩ := closingRow_row _ _ _ _ row
    rw [extra]
    exact ⟨by omega, bound, line :: before, last, by simp [← taken], last_solid⟩

theorem trim_inlineAfter (body : Bytes) : trim (inlineAfter body) = inlineAfter body := by
  unfold inlineAfter
  simp only
  split
  · rfl
  · exact trim_trim body

theorem cutAt_suffix (mark : UInt8) (text before body : Bytes)
    (cut : cutAt? mark text = some (before, body)) : body <:+ text := by
  unfold cutAt? at cut
  split at cut
  · cases cut
  · rename_i first rest dropped
    simp only [Option.some.injEq, Prod.mk.injEq] at cut
    obtain ⟨_, rfl⟩ := cut
    exact (List.suffix_cons first rest).trans (dropped ▸ List.dropWhile_suffix _)

theorem mem_of_mem_trim (b : UInt8) (text : Bytes) (member : b ∈ trim text) : b ∈ text := by
  obtain ⟨lead, trail, _, _, whole⟩ := trim_between text
  rw [whole]
  simp [member]

theorem mem_of_mem_inlineAfter (b : UInt8) (body : Bytes) (member : b ∈ inlineAfter body) :
    b ∈ body := by
  unfold inlineAfter at member
  simp only at member
  split at member
  · cases member
  · exact mem_of_mem_trim b body member

-- The statement after a header stands on one row, without white space around it.
theorem header_inlineBody (line : Bytes) (later : List Bytes) (header : Header)
    (found : Header.read line later = .found header)
    (single : ∀ row ∈ line :: later, newline ∉ row) :
    trim header.inlineBody = header.inlineBody ∧ newline ∉ header.inlineBody := by
  obtain ⟨opened, closed, opens, closes, shape⟩ := read_found line later header found
  obtain ⟨_, _, before, body, cut, _, inline_body⟩ := ofClosed_found _ _ _ shape
  rw [inline_body]
  refine ⟨trim_inlineAfter body, fun member => ?_⟩
  have in_ending : newline ∈ closed.ending.2 :=
    mem_of_mem_trim _ _ ((cutAt_suffix _ _ _ _ cut).subset (mem_of_mem_inlineAfter _ _ member))
  rcases closeList_cases opened later closed closes with ⟨length, _, rfl⟩ | ⟨_, row⟩
  · have in_line := mem_of_mem_trim _ line
      ((openDefinition_some _ _ _ opens).2.2.2.subset (List.mem_of_mem_drop in_ending))
    exact single line (by simp) in_line
  · obtain ⟨earlier, last, taken, _, length, cut_off⟩ := closingRow_row _ _ _ _ row
    have in_later : last ∈ later := by
      have taken_member : last ∈ later.take closed.extraLines := by simp [taken]
      exact List.mem_of_mem_take taken_member
    simp only [ClosedList.ending, cut_off] at in_ending
    exact single last (List.mem_cons_of_mem line in_later) (List.mem_of_mem_drop in_ending)

end EndpointPreview.Notation
