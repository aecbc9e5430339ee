import EndpointPreview.Proofs.Lines

/-!
Reading a text by positions. Here a text or a list is read the way an indexed buffer is:
an item is asked for by its place, a part by its start and its length, and lengths are
subtracted as unsigned numbers. Each such step is checked and faults where it would leave
the buffer. The functions below do with positions what the list functions do by recursion,
and the equations say that none of them faults.
-/

namespace EndpointPreview.ByPosition

open Text

inductive Fault where
  -- An index at or beyond the length, or a part that starts beyond the end.
  | outOfRange
  | underflow
  | endless
  | noText
  deriving DecidableEq, Repr

abbrev Checked := Except Fault

def itemAt {Item : Type} (items : List Item) (index : Nat) : Checked Item :=
  match items[index]? with
  | some item => .ok item
  | none => .error .outOfRange

def lastItem {Item : Type} (items : List Item) : Checked Item :=
  match items.getLast? with
  | some item => .ok item
  | none => .error .outOfRange

def withoutLast {Item : Type} (items : List Item) : Checked (List Item) :=
  if items.isEmpty then .error .outOfRange else .ok items.dropLast

def minus (larger smaller : Nat) : Checked Nat :=
  if smaller ≤ larger then .ok (larger - smaller) else .error .underflow

def textFrom (text : Bytes) (start : Nat) : Checked Bytes :=
  if start ≤ text.length then .ok (text.drop start) else .error .outOfRange

def part (text : Bytes) (start count : Nat) : Checked Bytes := do
  let rest ← textFrom text start
  return rest.take count

def between (text : Bytes) (start stop : Nat) : Checked Bytes := do
  part text start (← minus stop start)

def opensWith (start text : Bytes) : Checked Bool := do
  return (← part text 0 start.length) == start

def firstIs (mark : UInt8) (text : Bytes) : Checked Bool := do
  return (← itemAt text 0) == mark

def opensWithWord (word text : Bytes) : Checked Bool := do
  if !(← opensWith word text) then return false
  if text.length = word.length then return true
  return !isWordByte (← itemAt text word.length)

def peek (text : Bytes) (position : Nat) : Checked UInt8 :=
  if position < text.length then itemAt text position else .ok 0

section steps

variable {Item : Type} {items rest : List Item} {item : Item} {index : Nat}

@[simp] theorem ok_bind {First Last : Type} (value : First) (next : First → Checked Last) :
    ((Except.ok value : Checked First) >>= next) = next value := rfl

@[simp] theorem pure_ok {Value : Type} (value : Value) :
    (pure value : Checked Value) = .ok value := rfl

theorem lt_length (stands : items.drop index = item :: rest) : index < items.length := by
  by_contra beyond
  rw [List.drop_eq_nil_of_le (Nat.le_of_not_lt beyond)] at stands
  cases stands

theorem drop_next (stands : items.drop index = item :: rest) :
    items.drop (index + 1) = rest := by
  rw [← List.drop_drop, stands, List.drop_succ_cons, List.drop_zero]

theorem itemAt_eq (stands : items.drop index = item :: rest) : itemAt items index = .ok item := by
  have there : items[index]? = some item := by
    rw [← List.head?_drop, stands, List.head?_cons]
  simp only [itemAt, there]

theorem lastItem_eq (items : List Item) (last : Item) :
    lastItem (items ++ [last]) = .ok last := by
  simp only [lastItem, List.getLast?_concat]

theorem withoutLast_eq (items : List Item) (last : Item) :
    withoutLast (items ++ [last]) = .ok items := by
  simp [withoutLast]

theorem minus_eq {larger smaller : Nat} (fits : smaller ≤ larger) :
    minus larger smaller = .ok (larger - smaller) := if_pos fits

@[simp] theorem minus_add (start count : Nat) : minus (start + count) start = .ok count := by
  rw [minus_eq (Nat.le_add_right start count), Nat.add_sub_cancel_left]

theorem textFrom_eq {text : Bytes} {start : Nat} (fits : start ≤ text.length) :
    textFrom text start = .ok (text.drop start) := if_pos fits

theorem part_eq {text : Bytes} {start : Nat} (fits : start ≤ text.length) (count : Nat) :
    part text start count = .ok ((text.drop start).take count) := by
  rw [part, textFrom_eq fits]
  rfl

/-- The bytes from a position that the text goes on with there. -/
theorem between_front {text front : Bytes} {start : Nat} (stands : front <+: text.drop start)
    (fits : start ≤ text.length) : between text start (start + front.length) = .ok front := by
  obtain ⟨more, whole⟩ := stands
  rw [between, minus_add, ok_bind, part_eq fits, ← whole, List.take_left]

theorem take_beq (start text : Bytes) :
    (text.take start.length == start) = startsWith start text := by
  apply Bool.eq_iff_iff.mpr
  rw [beq_iff_eq, startsWith, List.isPrefixOf_iff_prefix, List.prefix_iff_eq_take]
  exact eq_comm

theorem opensWith_eq (start text : Bytes) :
    opensWith start text = .ok (startsWith start text) := by
  rw [opensWith, part_eq (Nat.zero_le _), ok_bind, List.drop_zero, take_beq]
  rfl

theorem startsWith_head (mark : UInt8) (text : Bytes) :
    startsWith [mark] text = (text.head? == some mark) := by
  cases text with
  | nil => rfl
  | cons b rest => simp [startsWith, List.isPrefixOf, Bool.beq_comm (a := b)]

theorem firstIs_eq (mark : UInt8) {text : Bytes} (solid : text ≠ []) :
    firstIs mark text = .ok (startsWith [mark] text) := by
  cases text with
  | nil => exact absurd rfl solid
  | cons b rest =>
      rw [firstIs, itemAt_eq List.drop_zero, ok_bind, startsWith_head, List.head?_cons,
        Option.some_beq_some]
      rfl

theorem opensWithWord_eq (word text : Bytes) :
    opensWithWord word text = .ok (startsWith word text &&
      ((text.drop word.length).head?.map fun b => !isWordByte b).getD true) := by
  rw [opensWithWord, opensWith_eq, ok_bind]
  by_cases front : startsWith word text = true
  · obtain ⟨rest, whole⟩ := List.isPrefixOf_iff_prefix.mp front
    rw [front, ← whole, List.drop_left, List.length_append]
    cases rest with
    | nil => simp
    | cons b rest =>
        have longer : ¬ word.length + (b :: rest).length = word.length := by simp
        rw [if_neg (by simp), if_neg longer, itemAt_eq List.drop_left]
        rfl
  · rw [Bool.not_eq_true] at front
    rw [front]
    rfl

theorem peek_next {text rest : Bytes} {b : UInt8} {position : Nat}
    (stands : text.drop position = b :: rest) : peek text position = .ok b := by
  rw [peek, if_pos (lt_length stands), itemAt_eq stands]

theorem peek_end {text : Bytes} {position : Nat} (stands : text.drop position = []) :
    peek text position = .ok 0 := by
  rw [peek, if_neg (Nat.not_lt.mpr (List.drop_eq_nil_iff.mp stands))]

theorem peek_eq (text : Bytes) (position : Nat) :
    peek text position = .ok ((text.drop position).headD 0) := by
  cases stands : text.drop position with
  | nil => exact peek_end stands
  | cons b rest => exact peek_next stands

end steps

-- A search by positions and one over lists find nothing both, or related things.
inductive Finds {First Second : Type} (related : First → Second → Prop) :
    Checked (Option First) → Option Second → Prop where
  | none : Finds related (.ok none) none
  | some {own : First} {value : Second} (same : related own value) :
      Finds related (.ok (some own)) (some value)

theorem Finds.found {First Second : Type} {related : First → Second → Prop}
    {search : Checked (Option First)} {result : Option Second} (finds : Finds related search result) :
    (search = .ok .none ∧ result = .none) ∨
      ∃ own value, search = .ok (.some own) ∧ result = .some value ∧ related own value := by
  cases finds with
  | none => exact .inl ⟨rfl, rfl⟩
  | some same => exact .inr ⟨_, _, rfl, rfl, same⟩

def skip (inClass : UInt8 → Bool) (text : Bytes) (position : Nat) : Checked Nat :=
  if position < text.length then do
    let b ← itemAt text position
    if inClass b then skip inClass text (position + 1) else return position
  else return position
termination_by text.length - position

theorem skip_eq (inClass : UInt8 → Bool) (text : Bytes) (position : Nat) :
    skip inClass text position =
      .ok (position + ((text.drop position).takeWhile inClass).length) := by
  induction stands : text.drop position generalizing position with
  | nil =>
      have beyond : ¬ position < text.length := Nat.not_lt.mpr (List.drop_eq_nil_iff.mp stands)
      rw [skip, if_neg beyond]
      rfl
  | cons b rest ih =>
      rw [skip, if_pos (lt_length stands), itemAt_eq stands, ok_bind]
      by_cases inside : inClass b = true
      · rw [if_pos inside, ih (position + 1) (drop_next stands),
          List.takeWhile_cons_of_pos inside, List.length_cons]
        congr 1
        omega
      · rw [if_neg inside, List.takeWhile_cons_of_neg inside]
        rfl

/-- What stands behind a run of bytes. -/
theorem drop_skipped (inClass : UInt8 → Bool) (text : Bytes) (position : Nat) :
    text.drop (position + ((text.drop position).takeWhile inClass).length) =
      (text.drop position).dropWhile inClass := by
  rw [← List.drop_drop, drop_takeWhile]

/-- The end of the text before `stop` without the white space there, but not before `start`. -/
def trimmedEnd (text : Bytes) (start : Nat) : Nat → Checked Nat
  | 0 => .ok 0
  | last + 1 =>
      if start < last + 1 then do
        let b ← itemAt text (← minus (last + 1) 1)
        if isSpace b then trimmedEnd text start last else return last + 1
      else return last + 1

def trim (text : Bytes) : Checked Bytes := do
  let start ← skip isSpace text 0
  let stop ← trimmedEnd text start text.length
  between text start stop

theorem trimmedEnd_eq (before inner after : Bytes) :
    trimmedEnd (before ++ inner ++ after) before.length (before ++ inner).length =
      .ok (before.length + (dropEndWhile isSpace inner).length) := by
  induction inner using List.reverseRecOn generalizing after with
  | nil =>
      rw [List.append_nil]
      cases length : before.length with
      | zero => rfl
      | succ count =>
          rw [trimmedEnd, if_neg (Nat.lt_irrefl _)]
          rfl
  | append_singleton inner b ih =>
      have stands : (before ++ (inner ++ [b]) ++ after).drop (before ++ inner).length =
          b :: after := by
        rw [show before ++ (inner ++ [b]) ++ after = (before ++ inner) ++ b :: after by simp,
          List.drop_left]
      have length : (before ++ (inner ++ [b])).length = (before ++ inner).length + 1 := by
        simp only [List.length_append, List.length_singleton]
        omega
      have inside : before.length < (before ++ inner).length + 1 := by
        rw [List.length_append]
        omega
      rw [length, trimmedEnd, if_pos inside, minus_eq (Nat.le_add_left 1 _), ok_bind,
        Nat.add_sub_cancel, itemAt_eq stands, ok_bind]
      split
      · rename_i blank
        have again := ih (b :: after)
        rw [show before ++ inner ++ b :: after = before ++ (inner ++ [b]) ++ after by simp] at again
        rw [again, dropEnd_blank inner [b] (by simpa using blank)]
      · rename_i solid
        rw [dropEnd_keeps inner [b] (by simpa using solid), dropEndWhile_eq,
          List.rdropWhile_singleton, if_neg solid, pure_ok, List.length_append,
          List.length_append, List.length_singleton, Nat.add_assoc]

theorem trim_eq (text : Bytes) : trim text = .ok (Text.trim text) := by
  have whole : text.takeWhile isSpace ++ text.dropWhile isSpace ++ [] = text := by
    rw [List.append_nil, List.takeWhile_append_dropWhile]
  have stop := trimmedEnd_eq (text.takeWhile isSpace) (text.dropWhile isSpace) []
  rw [whole, List.takeWhile_append_dropWhile] at stop
  rw [trim, skip_eq, ok_bind, List.drop_zero, Nat.zero_add, stop, ok_bind]
  apply between_front
  · rw [drop_takeWhile]
    exact List.rdropWhile_prefix isSpace _
  · exact (List.takeWhile_prefix isSpace).length_le

def chompReturn (line : Bytes) : Checked Bytes := do
  if line.isEmpty then return line
  if (← lastItem line) == carriageReturn then withoutLast line else return line

def lines (text : Bytes) : Checked (List Bytes) := (rawLines text).mapM chompReturn

def joinFrom (rows : List Bytes) (index : Nat) (written : Bytes) : Checked Bytes :=
  if index < rows.length then do
    let row ← itemAt rows index
    joinFrom rows (index + 1) ((if 0 < index then written ++ [newline] else written) ++ row)
  else return written
termination_by rows.length - index

def unlines (rows : List Bytes) : Checked Bytes := joinFrom rows 0 []

/-- The rows without the blank ones at the end, of which at most `steps` are looked at. -/
def dropBlankRows : Nat → List Bytes → Checked (List Bytes)
  | 0, _ => .error .endless
  | steps + 1, rows =>
      if rows.isEmpty then return rows
      else do
        if isBlank (← lastItem rows) then dropBlankRows steps (← withoutLast rows)
        else return rows

def dropBlankEnd (rows : List Bytes) : Checked (List Bytes) :=
  dropBlankRows (rows.length + 1) rows

theorem mapM_eq {First Last : Type} {check : First → Checked Last} {plain : First → Last}
    (items : List First) (same : ∀ item ∈ items, check item = .ok (plain item)) :
    items.mapM check = .ok (items.map plain) := by
  induction items with
  | nil => rfl
  | cons item items ih =>
      obtain ⟨first, others⟩ := List.forall_mem_cons.mp same
      rw [List.mapM_cons, first, ok_bind, ih others]
      rfl

theorem chompReturn_eq (line : Bytes) : chompReturn line = .ok (Text.chompReturn line) := by
  induction line using List.reverseRecOn with
  | nil => rfl
  | append_singleton line last =>
      have nonempty : ¬ (line ++ [last]).isEmpty = true := by simp
      rw [chompReturn, if_neg nonempty, lastItem_eq, ok_bind, withoutLast_eq, Text.chompReturn,
        List.getLast?_concat, List.dropLast_concat, Option.some_beq_some]
      split <;> rfl

theorem lines_eq (text : Bytes) : lines text = .ok (Text.lines text) :=
  mapM_eq (rawLines text) fun line _ => chompReturn_eq line

theorem joinFrom_eq (rows rest : List Bytes) (index : Nat) (written : Bytes) (begun : 0 < index)
    (stands : rows.drop index = rest) :
    joinFrom rows index written = .ok (written ++ rest.flatMap (newline :: ·)) := by
  induction rest generalizing index written with
  | nil =>
      rw [joinFrom, if_neg (Nat.not_lt.mpr (List.drop_eq_nil_iff.mp stands)), List.flatMap_nil,
        List.append_nil]
      rfl
  | cons row rest ih =>
      rw [joinFrom, if_pos (lt_length stands), itemAt_eq stands, ok_bind, if_pos begun,
        ih (index + 1) _ (Nat.succ_pos _) (drop_next stands)]
      simp

theorem unlines_eq (rows : List Bytes) : unlines rows = .ok (Text.unlines rows) := by
  cases rows with
  | nil =>
      rw [unlines, joinFrom, if_neg (Nat.not_lt_zero _)]
      rfl
  | cons row rest =>
      have stands : (row :: rest).drop 0 = row :: rest := rfl
      rw [unlines, joinFrom, if_pos (lt_length stands), itemAt_eq stands, ok_bind,
        if_neg (Nat.lt_irrefl 0), joinFrom_eq (row :: rest) rest _ _ Nat.one_pos rfl,
        unlines_flatMap]
      rfl

theorem dropBlankRows_eq (steps : Nat) (rows : List Bytes) (enough : rows.length < steps) :
    dropBlankRows steps rows = .ok (Text.dropBlankEnd rows) := by
  induction rows using List.reverseRecOn generalizing steps with
  | nil =>
      cases steps with
      | zero => cases enough
      | succ steps => rfl
  | append_singleton rows last ih =>
      cases steps with
      | zero => cases enough
      | succ steps =>
          have nonempty : ¬ (rows ++ [last]).isEmpty = true := by simp
          rw [List.length_append, List.length_singleton] at enough
          rw [dropBlankRows, if_neg nonempty, lastItem_eq, ok_bind, withoutLast_eq, ok_bind]
          split
          · rename_i blank
            rw [ih steps (Nat.lt_of_succ_lt_succ enough), Text.dropBlankEnd_append,
              if_pos (by simpa using blank)]
          · rename_i solid
            rw [Text.dropBlankEnd_concat rows last (by simpa using solid)]
            rfl

theorem dropBlankEnd_eq (rows : List Bytes) :
    dropBlankEnd rows = .ok (Text.dropBlankEnd rows) :=
  dropBlankRows_eq _ rows (Nat.lt_succ_self _)

end EndpointPreview.ByPosition
