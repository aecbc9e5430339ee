import EndpointPreview.Proofs.ParameterPositions

/-!
Headers of functions read by positions. The name, the opening bracket and the bracket that
closes it are positions in one text, to which further lines are appended while the list is
open. The closing bracket stands at least one byte behind the opening one, so the length of
the parameter text, the distance of the two less two, is never negative.
-/

namespace EndpointPreview.ByPosition

open Text Notation

-- The name that starts at a position and the position of the parenthesis behind it.
def namedAt (stripped : Bytes) (start : Nat) : Checked (Option (Bytes × Nat)) := do
  let stop ← skip isWordByte stripped start
  if stop = start then return none
  if isDigit (← itemAt stripped start) then return none
  let name ← between stripped start stop
  let opened ← skip isSpace stripped stop
  if stripped.length ≤ opened then return none
  if (← itemAt stripped opened) == byte '(' then return some (name, opened) else return none

def openDefinition (stripped : Bytes) : Checked (Option (Bytes × Nat)) := do
  if !(← opensWith (ascii "def") stripped) || stripped.length < 4 then return none
  if !isSpace (← itemAt stripped 3) then return none
  namedAt stripped (← skip isSpace stripped 3)

-- A text, the position behind the bracket that closes its list, and the lines it takes.
structure ClosedText where
  text : Bytes
  close : Nat
  lineCount : Nat
  deriving DecidableEq, Repr

-- Appends the lines from `next` on to the text until the list opened in it is closed.
def closeLines (rows : List Bytes) (opened : Nat) (text : Bytes) (next lineCount : Nat) :
    Checked (Option ClosedText) := do
  match ← closeFrom text opened .outside with
  | some close => return some ⟨text, close, lineCount⟩
  | none =>
      if next < rows.length then
        let row ← itemAt rows next
        closeLines rows opened (text ++ newline :: row) (next + 1) (lineCount + 1)
      else return none
termination_by rows.length - next

/-- The text after the parameter list goes on with a colon, perhaps behind a return type. -/
def endsHeader (rest : Bytes) : Checked Bool := do
  if rest.isEmpty then return false
  if ← firstIs (byte ':') rest then return true
  opensWith (ascii "->") rest

/-- The statement after the header's colon; a comment is none. -/
def inlineAfter (text : Bytes) : Checked Bytes := do
  let body ← trim text
  if body.isEmpty then return []
  if ← firstIs (byte '#') body then return [] else return body

def ofClosed (name : Bytes) (opened : Nat) (closed : ClosedText) : Checked HeaderMatch := do
  let rest ← trim (← textFrom closed.text closed.close)
  if !(← endsHeader rest) then return .malformed (.missingColon name)
  match findByte (byte ':') rest with
  | none => return .malformed (.missingColon name)
  | some colon =>
      let length ← minus (← minus closed.close opened) 2
      let parameterText ← part closed.text (opened + 1) length
      let inlineBody ← inlineAfter (← textFrom rest (colon + 1))
      return .found ⟨name, parameterText, inlineBody, closed.lineCount⟩

def headerAt (rows : List Bytes) (index : Nat) : Checked HeaderMatch := do
  let stripped ← trim (← itemAt rows index)
  match ← openDefinition stripped with
  | none => return .absent
  | some (name, opened) =>
      match ← closeLines rows opened stripped (index + 1) 1 with
      | none => return .malformed (.neverClosed name)
      | some closed => ofClosed name opened closed

theorem namedAt_finds (stripped body : Bytes) (start : Nat)
    (stands : stripped.drop start = body) :
    Finds (fun own value => own.1 = value.1 ∧ stripped.drop own.2 = value.2)
      (namedAt stripped start)
      (if ((body.takeWhile isWordByte).head?.map fun b => !isDigit b).getD false then
        if ((body.dropWhile isWordByte).dropWhile isSpace).head? == some (byte '(') then
          some (body.takeWhile isWordByte, (body.dropWhile isWordByte).dropWhile isSpace)
        else none
      else none) := by
  have behind_name := drop_skipped isWordByte stripped start
  rw [namedAt, skip_eq, ok_bind, stands]
  rw [stands] at behind_name
  have front := List.takeWhile_prefix isWordByte (l := body)
  cases name : body.takeWhile isWordByte with
  | nil =>
      rw [List.length_nil, if_pos (Nat.add_zero start), if_neg (by simp)]
      exact .none
  | cons first more =>
      rw [name] at behind_name front
      obtain ⟨rest, whole⟩ := front
      rw [← whole] at stands
      have longer : ¬ start + (first :: more).length = start := by simp
      rw [if_neg longer, itemAt_eq stands, ok_bind]
      by_cases digit : isDigit first = true
      · rw [if_pos digit, if_neg (by simp [digit])]
        exact .none
      rw [if_neg digit, if_pos (by simp [digit]),
        between_front (stands ▸ List.prefix_append (first :: more) rest)
          (Nat.le_of_lt (lt_length stands)), ok_bind, skip_eq, ok_bind]
      have behind_space := drop_skipped isSpace stripped (start + (first :: more).length)
      rw [behind_name] at behind_space ⊢
      cases opened : (body.dropWhile isWordByte).dropWhile isSpace with
      | nil =>
          rw [opened] at behind_space
          rw [if_pos (List.drop_eq_nil_iff.mp behind_space), if_neg (by simp)]
          exact .none
      | cons mark later =>
          rw [opened] at behind_space
          rw [if_neg (Nat.not_le.mpr (lt_length behind_space)), itemAt_eq behind_space, ok_bind,
            List.head?_cons, Option.some_beq_some]
          split
          · exact .some ⟨rfl, behind_space⟩
          · exact .none

theorem openDefinition_finds (stripped : Bytes) :
    Finds (fun own value => own.1 = value.1 ∧ stripped.drop own.2 = value.2)
      (openDefinition stripped) (openDefinition? stripped) := by
  rw [openDefinition, opensWith_eq, ok_bind]
  simp only [openDefinition?, Bool.and_eq_true, ite_and]
  by_cases word : startsWith (ascii "def") stripped = true
  swap
  · rw [if_pos (by simp [word]), if_neg word]
    exact .none
  rw [if_pos word]
  cases after : stripped.drop 3 with
  | nil =>
      have short : stripped.length < 4 := Nat.lt_succ_of_le (List.drop_eq_nil_iff.mp after)
      rw [if_pos (by simp [short]), if_neg (by simp)]
      exact .none
  | cons mark more =>
      have long : ¬ stripped.length < 4 := Nat.not_lt.mpr (lt_length after)
      rw [if_neg (by simp [word, long]), itemAt_eq after, ok_bind]
      by_cases space : isSpace mark = true
      · rw [if_neg (by simp [space]), if_pos (by simp [space]), skip_eq, ok_bind]
        apply namedAt_finds
        rw [drop_skipped, after]
      · rw [if_pos (by simp [space]), if_neg (by simp [space])]
        exact .none

theorem closeLines_finds (rows later : List Bytes) (opened next extraLines : Nat) (text : Bytes)
    (inside : opened ≤ text.length) (stands : rows.drop next = later) :
    Finds (fun own value => own.text.drop opened = value.text ∧ own.close = opened + value.length ∧
        own.lineCount = value.extraLines + 1 ∧ opened ≤ own.text.length)
      (closeLines rows opened text next (extraLines + 1))
      (closeList? (text.drop opened) extraLines later) := by
  induction later generalizing next extraLines text with
  | nil =>
      have closed := closeFrom_eq (steps .outside rfl _) (rfl : text.drop opened = text.drop opened)
      rw [closeLines, closed, ok_bind, closeList?]
      cases closedLength? .outside (text.drop opened) with
      | none =>
          dsimp only [Option.map_none]
          rw [if_neg (Nat.not_lt.mpr (List.drop_eq_nil_iff.mp stands))]
          exact .none
      | some length => exact .some ⟨rfl, rfl, rfl, inside⟩
  | cons row later ih =>
      have closed := closeFrom_eq (steps .outside rfl _) (rfl : text.drop opened = text.drop opened)
      rw [closeLines, closed, ok_bind, closeList?]
      cases closedLength? .outside (text.drop opened) with
      | none =>
          have longer := ih (next + 1) (extraLines + 1) (text ++ newline :: row)
            (by rw [List.length_append]; omega) (drop_next stands)
          rw [List.drop_append_of_le_length inside] at longer
          dsimp only [Option.map_none]
          rw [if_pos (lt_length stands), itemAt_eq stands, ok_bind]
          exact longer
      | some length => exact .some ⟨rfl, rfl, rfl, inside⟩

theorem endsHeader_eq (rest : Bytes) : endsHeader rest = .ok (Notation.endsHeader rest) := by
  by_cases empty : rest = []
  · rw [empty]
    rfl
  · rw [endsHeader, if_neg (by simpa using empty), firstIs_eq _ empty, ok_bind, opensWith_eq]
    cases colon : startsWith [byte ':'] rest with
    | true =>
        have ends : Notation.endsHeader rest = true := Bool.or_eq_true_iff.mpr (.inl colon)
        rw [ends]
        rfl
    | false =>
        have ends : Notation.endsHeader rest = (false || startsWith (ascii "->") rest) :=
          congrArg (· || startsWith (ascii "->") rest) colon
        rw [ends, Bool.false_or]
        rfl

theorem inlineAfter_eq (text : Bytes) : inlineAfter text = .ok (Notation.inlineAfter text) := by
  rw [inlineAfter, trim_eq, ok_bind, Notation.inlineAfter]
  by_cases empty : Text.trim text = []
  · rw [empty]
    rfl
  · rw [if_neg (by simpa using empty), firstIs_eq _ empty, ok_bind, startsWith_head]
    split <;> rfl

theorem ofClosed_eq (name : Bytes) {opened : Nat} {own : ClosedText} {closed : ClosedList}
    (text : own.text.drop opened = closed.text) (close : own.close = opened + closed.length)
    (lineCount : own.lineCount = closed.extraLines + 1) (inside : opened ≤ own.text.length)
    (fits : closed.length ≤ closed.text.length) (opens : 2 ≤ closed.length) :
    ofClosed name opened own = .ok (Header.ofClosed name closed) := by
  have length := congrArg List.length text
  rw [List.length_drop] at length
  have behind : textFrom own.text own.close = .ok (closed.text.drop closed.length) := by
    rw [textFrom_eq (by omega), close, ← text, List.drop_drop]
  have inner : part own.text (opened + 1) (closed.length - 2) =
      .ok ((closed.text.take (closed.length - 1)).drop 1) := by
    rw [part_eq (by omega), ← List.drop_drop, text, List.drop_take, Nat.sub_sub]
  have distance : minus own.close opened = .ok closed.length := by rw [close, minus_add]
  rw [ofClosed, behind, ok_bind, trim_eq, ok_bind, endsHeader_eq, ok_bind, findByte_eq,
    Header.ofClosed]
  cases ends : Notation.endsHeader (Text.trim (closed.text.drop closed.length)) with
  | false =>
      cases cutAt? (byte ':') (Text.trim (closed.text.drop closed.length)) <;> rfl
  | true =>
      cases cut : cutAt? (byte ':') (Text.trim (closed.text.drop closed.length)) with
      | none => rfl
      | some sides =>
          obtain ⟨returns, body⟩ := sides
          have behind_colon : textFrom (Text.trim (closed.text.drop closed.length))
              (returns.length + 1) = .ok body := by
            rw [cutAt_whole _ _ _ _ cut, textFrom_behind]
          dsimp only [Option.map_some]
          rw [if_neg (by simp), distance, ok_bind, minus_eq opens, ok_bind, inner, ok_bind,
            behind_colon, ok_bind, inlineAfter_eq, ok_bind, lineCount]
          rfl

/-- The header at a line is read without leaving the lines or a text. -/
theorem headerAt_eq {rows later : List Bytes} {line : Bytes} {index : Nat}
    (stands : rows.drop index = line :: later) :
    headerAt rows index = .ok (Header.read line later) := by
  rw [headerAt, itemAt_eq stands, ok_bind, trim_eq, ok_bind, Header.read]
  rcases (openDefinition_finds (Text.trim line)).found with ⟨own, opening⟩ |
    ⟨⟨name, opened⟩, ⟨_, ahead⟩, own, opening, rfl, stands_open⟩
  · rw [own, opening]
    rfl
  rw [own, opening, ok_bind]
  have bracket := openDefinition_bracket _ _ _ opening
  dsimp only at stands_open bracket ⊢
  have inside : opened ≤ (Text.trim line).length := by
    by_contra beyond
    rw [← stands_open, List.drop_eq_nil_of_le (Nat.le_of_not_le beyond)] at bracket
    cases bracket
  have closes := closeLines_finds rows later opened (index + 1) 0 (Text.trim line) inside
    (drop_next stands)
  rw [stands_open] at closes
  rcases closes.found with ⟨own, closing⟩ |
    ⟨own_closed, closed, own, closing, text, close, lineCount, fits⟩
  · rw [own, closing]
    rfl
  rw [own, closing]
  obtain ⟨inner, mark, after, whole, length, -⟩ :=
    closeList_opened ahead later closed bracket closing
  have count := congrArg List.length whole
  simp only [List.length_cons, List.length_append] at count
  exact ofClosed_eq name text close lineCount fits (by omega) (by omega)

end EndpointPreview.ByPosition
