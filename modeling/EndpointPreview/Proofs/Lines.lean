import EndpointPreview.Text.Line
import Mathlib.Data.List.DropRight
import Mathlib.Data.List.TakeWhile

/-!
Rows of a text and the white space around them. A carriage return at the end of a
row is white space: taking it off changes neither the trimmed row nor whether the
row is blank, nor the column at which the row starts.
-/

namespace EndpointPreview.Text

theorem isBlank_iff (text : Bytes) : isBlank text = true ↔ ∀ b ∈ text, isSpace b = true := by
  simp [isBlank]

@[simp] theorem isBlank_nil : isBlank [] = true := rfl

@[simp] theorem isBlank_append (left right : Bytes) :
    isBlank (left ++ right) = (isBlank left && isBlank right) := by
  simp [isBlank]

@[simp] theorem isBlank_cons (b : UInt8) (rest : Bytes) :
    isBlank (b :: rest) = (isSpace b && isBlank rest) := by
  simp [isBlank]

theorem isSpace_newline : isSpace newline = true := by decide

theorem dropWhile_blank (gap rest : Bytes) (blank : isBlank gap = true) :
    (gap ++ rest).dropWhile isSpace = rest.dropWhile isSpace :=
  List.dropWhile_append_of_pos ((isBlank_iff gap).mp blank)

theorem dropWhile_isSpace_eq_nil (text : Bytes) :
    text.dropWhile isSpace = [] ↔ isBlank text = true := by
  rw [List.dropWhile_eq_nil_iff, isBlank_iff]

theorem drop_takeWhile {α : Type} (inClass : α → Bool) (items : List α) :
    items.drop (items.takeWhile inClass).length = items.dropWhile inClass := by
  calc items.drop (items.takeWhile inClass).length
      = (items.takeWhile inClass ++ items.dropWhile inClass).drop
          (items.takeWhile inClass).length := by rw [List.takeWhile_append_dropWhile]
    _ = items.dropWhile inClass := List.drop_left

/-- A text is a row and what stands from its line break on. -/
theorem first_row (text : Bytes) : ∃ row rest, text = row ++ rest ∧ newline ∉ row ∧
    ∀ b ∈ rest.head?, b = newline := by
  refine ⟨text.takeWhile (· != newline), text.dropWhile (· != newline),
    List.takeWhile_append_dropWhile.symm, fun member => ?_, fun b head => ?_⟩
  · simpa using List.mem_takeWhile_imp member
  · have stops := List.head?_dropWhile_not (· != newline) text
    rw [Option.mem_def.mp head] at stops
    simpa using stops

theorem dropWhile_past_row (row text : Bytes) (one_row : newline ∉ row) :
    (row ++ text).dropWhile (· != newline) = text.dropWhile (· != newline) :=
  List.dropWhile_append_of_pos fun b member => by
    simpa using fun same : b = newline => one_row (same ▸ member)

theorem dropWhile_row (row rest : Bytes) (one_row : newline ∉ row)
    (starts : ∀ b ∈ rest.head?, b = newline) : (row ++ rest).dropWhile (· != newline) = rest := by
  rw [dropWhile_past_row row rest one_row]
  cases rest with
  | nil => rfl
  | cons b rest =>
      obtain rfl := starts b rfl
      rfl

theorem row_unique {row other rest left : Bytes} (same : row ++ rest = other ++ left)
    (one_row : newline ∉ row) (one_other : newline ∉ other) (starts : ∀ b ∈ rest.head?, b = newline)
    (starts_left : ∀ b ∈ left.head?, b = newline) : row = other ∧ rest = left := by
  have same_rest : rest = left := by
    rw [← dropWhile_row row rest one_row starts, same, dropWhile_row other left one_other starts_left]
  rw [same_rest] at same
  exact ⟨List.append_cancel_right same, same_rest⟩

-- A word does not go on behind a byte that is not in it.
theorem prefix_inside {word text more : Bytes} (stops : ∀ b ∈ more.head?, b ∉ word)
    (front : word <+: text ++ more) : word <+: text := by
  rcases Nat.le_total word.length text.length with fits | longer
  · exact List.prefix_of_prefix_length_le front (List.prefix_append _ _) fits
  · obtain ⟨tail, rfl⟩ := List.prefix_of_prefix_length_le (List.prefix_append _ _) front longer
    obtain ⟨later, rfl⟩ := (List.prefix_append_right_inj text).mp front
    cases tail with
    | nil => exact (List.append_nil text).symm ▸ List.prefix_rfl
    | cons b tail => exact absurd (List.mem_append_right text List.mem_cons_self) (stops b rfl)

theorem rdropWhile_append {α : Type} (inClass : α → Bool) (left right : List α) :
    (left ++ right).rdropWhile inClass =
      if right.all inClass then left.rdropWhile inClass
      else left ++ right.rdropWhile inClass := by
  simp only [List.rdropWhile, List.reverse_append, List.dropWhile_append]
  by_cases all : right.all inClass = true
  · have gone : right.reverse.dropWhile inClass = [] := by
      simpa [List.dropWhile_eq_nil_iff] using all
    simp [all, gone]
  · have left_over : right.reverse.dropWhile inClass ≠ [] := by
      simpa [List.dropWhile_eq_nil_iff] using all
    simp [all, List.isEmpty_iff, left_over]

theorem dropEndWhile_eq (inClass : UInt8 → Bool) (text : Bytes) :
    dropEndWhile inClass text = text.rdropWhile inClass := rfl

theorem dropEnd_blank (text gap : Bytes) (blank : isBlank gap = true) :
    dropEndWhile isSpace (text ++ gap) = dropEndWhile isSpace text := by
  have all : gap.all isSpace = true := blank
  simp only [dropEndWhile_eq, rdropWhile_append, if_pos all]

theorem dropEnd_keeps (left right : Bytes) (solid : isBlank right = false) :
    dropEndWhile isSpace (left ++ right) = left ++ dropEndWhile isSpace right := by
  have some_solid : ¬ right.all isSpace = true := by
    change ¬ isBlank right = true
    simp [solid]
  simp only [dropEndWhile_eq, rdropWhile_append, if_neg some_solid]

/-- Every text is its trimmed form between two blank ones. -/
theorem dropEnd_solid (first : UInt8) (text : Bytes) (solid : isSpace first = false) :
    dropEndWhile isSpace (first :: text) = first :: dropEndWhile isSpace text := by
  by_cases blank : isBlank text = true
  · have alone := dropEnd_blank [first] text blank
    have nothing := dropEnd_blank [] text blank
    rw [List.singleton_append] at alone
    rw [List.nil_append] at nothing
    rw [alone, nothing]
    simp [dropEndWhile, solid]
  · exact dropEnd_keeps [first] text (by simpa using blank)

theorem trim_between (text : Bytes) :
    ∃ lead trail, isBlank lead = true ∧ isBlank trail = true ∧
      text = lead ++ trim text ++ trail := by
  let inner := text.dropWhile isSpace
  refine ⟨text.takeWhile isSpace, inner.rtakeWhile isSpace, ?_, ?_, ?_⟩
  · exact (isBlank_iff _).mpr fun b member => List.mem_takeWhile_imp member
  · exact (isBlank_iff _).mpr fun b member => List.mem_rtakeWhile_imp member
  · have whole : inner = trim text ++ inner.rtakeWhile isSpace :=
      List.rdropWhile_append_rtakeWhile.symm
    calc text = text.takeWhile isSpace ++ inner := List.takeWhile_append_dropWhile.symm
      _ = text.takeWhile isSpace ++ trim text ++ inner.rtakeWhile isSpace := by
        rw [List.append_assoc, ← whole]

theorem trim_padded (lead text trail : Bytes) (before : isBlank lead = true)
    (after : isBlank trail = true) : trim (lead ++ text ++ trail) = trim text := by
  unfold trim
  rw [List.append_assoc, dropWhile_blank _ _ before, List.dropWhile_append]
  by_cases blank : isBlank text = true
  · have gone := (dropWhile_isSpace_eq_nil text).mpr blank
    have none_after := (dropWhile_isSpace_eq_nil trail).mpr after
    simp [gone, none_after]
  · have kept : text.dropWhile isSpace ≠ [] :=
      fun gone => blank ((dropWhile_isSpace_eq_nil text).mp gone)
    rw [if_neg (by simpa using kept), dropEnd_blank _ _ after]

theorem trim_lead (lead text : Bytes) (before : isBlank lead = true) :
    trim (lead ++ text) = trim text := by
  simpa using trim_padded lead text [] before rfl

theorem trim_trail (text trail : Bytes) (after : isBlank trail = true) :
    trim (text ++ trail) = trim text := by
  simpa using trim_padded [] text trail rfl after

theorem isBlank_trim (text : Bytes) : isBlank (trim text) = isBlank text := by
  obtain ⟨lead, trail, before, after, whole⟩ := trim_between text
  conv_rhs => rw [whole]
  simp [before, after]

theorem trim_trim (text : Bytes) : trim (trim text) = trim text := by
  obtain ⟨lead, trail, before, after, whole⟩ := trim_between text
  conv_rhs => rw [whole]
  exact (trim_padded lead (trim text) trail before after).symm

theorem trim_eq_nil_iff (text : Bytes) : trim text = [] ↔ isBlank text = true := by
  constructor
  · intro empty
    rw [← isBlank_trim, empty]
    rfl
  · intro blank
    have none_left : trim (text ++ [] ++ []) = trim [] := trim_padded text [] [] blank rfl
    rw [List.append_nil, List.append_nil] at none_left
    exact none_left

-- A text that starts and ends with other bytes than white space is trimmed.
theorem trim_solid (first last : UInt8) (middle : Bytes) (opens : isSpace first = false)
    (ends : isSpace last = false) :
    trim (first :: middle ++ [last]) = first :: middle ++ [last] := by
  unfold trim
  rw [List.cons_append, List.dropWhile_cons_of_neg (by simp [opens]), dropEndWhile_eq,
    ← List.cons_append, List.rdropWhile_concat_neg _ _ _ (by simp [ends])]

theorem trimmed_ends (text : Bytes) (trimmed : trim text = text) :
    text.dropWhile isSpace = text ∧ dropEndWhile isSpace text = text := by
  have back := List.dropWhile_suffix isSpace (l := text)
  have front := (List.rdropWhile_prefix isSpace (text.dropWhile isSpace)).length_le
  change (trim text).length ≤ _ at front
  rw [trimmed] at front
  have whole := back.eq_of_length_le front
  refine ⟨whole, ?_⟩
  unfold trim at trimmed
  rwa [whole] at trimmed

theorem trim_joined (left middle right : Bytes) (front : trim left = left) (back : trim right = right)
    (some_front : left ≠ []) (some_back : right ≠ []) :
    trim (left ++ middle ++ right) = left ++ middle ++ right := by
  have solid : isBlank right = false := by
    rw [← Bool.not_eq_true, ← trim_eq_nil_iff, back]
    exact some_back
  have starts := (trimmed_ends left front).1
  have kept : ¬ (left.dropWhile isSpace).isEmpty = true := by simpa [starts] using some_front
  unfold trim
  rw [List.append_assoc, List.dropWhile_append, if_neg kept, starts, ← List.append_assoc,
    dropEnd_keeps _ right solid, (trimmed_ends right back).2]

theorem trim_solid_bytes (text : Bytes) (solid : ∀ b ∈ text, isSpace b = false) :
    trim text = text := by
  obtain ⟨lead, trail, before, after, whole⟩ := trim_between text
  have gone (gap : Bytes) (blank : isBlank gap = true) (inside : ∀ b ∈ gap, b ∈ text) : gap = [] := by
    refine List.eq_nil_iff_forall_not_mem.mpr fun b member => ?_
    exact absurd ((isBlank_iff gap).mp blank b member) (by simp [solid b (inside b member)])
  have no_lead := gone lead before fun b member => by rw [whole]; simp [member]
  have no_trail := gone trail after fun b member => by rw [whole]; simp [member]
  conv_rhs => rw [whole, no_lead, no_trail, List.nil_append, List.append_nil]

theorem count_trim (b : UInt8) (text : Bytes) (solid : isSpace b = false) :
    (trim text).count b = text.count b := by
  obtain ⟨lead, trail, before, after, whole⟩ := trim_between text
  have none_in (gap : Bytes) (blank : isBlank gap = true) : gap.count b = 0 :=
    List.count_eq_zero.mpr fun member => by
      rw [(isBlank_iff gap).mp blank b member] at solid
      cases solid
  conv_rhs => rw [whole, List.count_append, List.count_append, none_in lead before,
    none_in trail after, Nat.zero_add, Nat.add_zero]

theorem head_trim (text : Bytes) : (trim text).head? = (text.dropWhile isSpace).head? := by
  unfold trim
  cases behind : text.dropWhile isSpace with
  | nil => rfl
  | cons first rest =>
      have solid := List.head?_dropWhile_not isSpace text
      rw [behind] at solid
      rw [dropEnd_solid first rest solid]
      rfl

theorem chompReturn_cases (row : Bytes) :
    chompReturn row = row ∨ row = chompReturn row ++ [carriageReturn] := by
  unfold chompReturn
  split
  · rename_i ends
    right
    exact (List.dropLast_append_getLast? _ (beq_iff_eq.mp ends)).symm
  · exact Or.inl rfl

theorem chompReturn_concat (row : Bytes) (last : UInt8) (other : last ≠ carriageReturn) :
    chompReturn (row ++ [last]) = row ++ [last] := by
  unfold chompReturn
  rw [List.getLast?_concat, if_neg (by simpa using other)]

theorem trim_chompReturn (row : Bytes) : trim (chompReturn row) = trim row := by
  rcases chompReturn_cases row with same | ends
  · rw [same]
  · conv_rhs => rw [ends]
    exact (trim_trail _ _ (by decide)).symm

theorem isBlank_chompReturn (row : Bytes) : isBlank (chompReturn row) = isBlank row := by
  rw [← isBlank_trim, trim_chompReturn, isBlank_trim]

theorem mem_chompReturn (b : UInt8) (row : Bytes) (member : b ∈ chompReturn row) : b ∈ row := by
  rcases chompReturn_cases row with same | ends
  · rwa [same] at member
  · rw [ends]
    exact List.mem_append_left _ member

def stripReturns (row : Bytes) : Bytes := dropEndWhile (· == carriageReturn) row

theorem stripReturns_chompReturn (row : Bytes) :
    stripReturns (chompReturn row) = stripReturns row := by
  rcases chompReturn_cases row with same | ends
  · rw [same]
  · conv_rhs => rw [ends]
    exact (List.rdropWhile_concat_pos (· == carriageReturn) _ carriageReturn (by decide)).symm

theorem le_indentFrom (column : Nat) (text : Bytes) : column ≤ indentFrom column text := by
  induction text generalizing column with
  | nil => exact Nat.le_refl _
  | cons b rest ih =>
      unfold indentFrom
      split
      · exact Nat.le_of_succ_le (ih (column + 1))
      · split
        · have further := ih ((column / 8 + 1) * 8)
          omega
        · exact Nat.le_refl _

theorem indentFrom_return (column : Nat) (text : Bytes) :
    indentFrom column (text ++ [carriageReturn]) = indentFrom column text := by
  induction text generalizing column with
  | nil => rfl
  | cons b rest ih => simp only [List.cons_append, indentFrom, ih]

theorem indentFrom_chompReturn (column : Nat) (row : Bytes) :
    indentFrom column (chompReturn row) = indentFrom column row := by
  rcases chompReturn_cases row with same | ends
  · rw [same]
  · conv_rhs => rw [ends]
    exact (indentFrom_return column _).symm

theorem indent_chompReturn (row : Bytes) : indent (chompReturn row) = indent row :=
  indentFrom_chompReturn 0 row

theorem rawLines_row (row rest : Bytes) (single : newline ∉ row) :
    rawLines (row ++ newline :: rest) = row :: rawLines rest := by
  induction row with
  | nil => simp [rawLines]
  | cons b row ih =>
      have different : (b == newline) = false := by
        simpa using fun same => single (by simp [same])
      have tail := ih (fun member => single (List.mem_cons_of_mem b member))
      simp [rawLines, different, tail]

theorem rawLines_last (row : Bytes) (single : newline ∉ row) (nonempty : row ≠ []) :
    rawLines row = [row] := by
  induction row with
  | nil => exact absurd rfl nonempty
  | cons b row ih =>
      have different : (b == newline) = false := by
        simpa using fun same => single (by simp [same])
      cases row with
      | nil => simp [rawLines, different]
      | cons c row =>
          have tail := ih (fun member => single (List.mem_cons_of_mem b member)) (by simp)
          rw [rawLines, tail]
          simp [different]

-- The first row of a text starts as the text does, up to a line break.
theorem rawLines_start (start rest : Bytes) (single : newline ∉ start) (nonempty : start ≠ []) :
    ∃ more later, rawLines (start ++ rest) = (start ++ more) :: later := by
  induction start with
  | nil => exact absurd rfl nonempty
  | cons b start ih =>
      have different : (b == newline) = false := by
        simpa using fun same => single (by simp [same])
      cases start with
      | nil =>
          simp only [List.cons_append, List.nil_append, rawLines, different, Bool.false_eq_true,
            ↓reduceIte]
          split
          · exact ⟨[], [], rfl⟩
          · exact ⟨_, _, rfl⟩
      | cons c start =>
          obtain ⟨more, later, tail⟩ :=
            ih (fun member => single (List.mem_cons_of_mem b member)) (by simp)
          rw [List.cons_append, rawLines, tail]
          exact ⟨more, later, by simp [different]⟩

theorem newline_not_mem_rawLines (text row : Bytes) (member : row ∈ rawLines text) :
    newline ∉ row := by
  induction text generalizing row with
  | nil => simp [rawLines] at member
  | cons b text ih =>
      unfold rawLines at member
      split at member
      · rcases List.mem_cons.mp member with empty | later
        · simp [empty]
        · exact ih row later
      · rename_i different
        have other : newline ≠ b := fun same => different (by simp [same])
        split at member
        · rw [List.mem_singleton.mp member]
          simpa using other
        · rename_i line later rows
          rcases List.mem_cons.mp member with first | rest
          · rw [first]
            have clear := ih line (by simp [rows])
            simp [other, clear]
          · exact ih row (by simp [rows, rest])

theorem newline_not_mem_lines (text row : Bytes) (member : row ∈ lines text) :
    newline ∉ row := by
  obtain ⟨raw, found, rfl⟩ := List.mem_map.mp member
  exact fun inside => newline_not_mem_rawLines text raw found (mem_chompReturn _ _ inside)

theorem unlines_cons (row next : Bytes) (rest : List Bytes) :
    unlines (row :: next :: rest) = row ++ newline :: unlines (next :: rest) := by
  simp [unlines, joinWith]

theorem unlines_flatMap (row : Bytes) (rest : List Bytes) :
    unlines (row :: rest) = row ++ rest.flatMap (newline :: ·) := by
  induction rest generalizing row with
  | nil => simp [unlines, joinWith]
  | cons next rest ih => rw [unlines_cons, ih, List.flatMap_cons, List.cons_append]

theorem breaks_start (rows : List Bytes) :
    ∀ b ∈ (rows.flatMap (newline :: ·)).head?, b = newline := by
  cases rows with
  | nil => rintro b ⟨⟩
  | cons row rows =>
      rintro b ⟨⟩
      rfl

/-- Rows come back from their text, but for one carriage return each; the last one
must not be empty, since nothing would be left of it. -/
theorem lines_unlines (rows : List Bytes) (single : ∀ row ∈ rows, newline ∉ row)
    (solid : ∀ row ∈ rows.getLast?, row ≠ []) :
    lines (unlines rows) = rows.map chompReturn := by
  unfold lines
  congr 1
  induction rows with
  | nil => rfl
  | cons row rest ih =>
      have clear := single row (by simp)
      cases rest with
      | nil => exact rawLines_last row clear (solid row (by simp))
      | cons next rest =>
          rw [unlines_cons, rawLines_row row _ clear]
          have later := ih (fun r member => single r (List.mem_cons_of_mem row member))
            (fun r last => solid r (by simpa using last))
          rw [later]

theorem dropBlankEnd_append (rows more : List Bytes) :
    dropBlankEnd (rows ++ more) =
      if more.all isBlank then dropBlankEnd rows else rows ++ dropBlankEnd more :=
  rdropWhile_append isBlank rows more

theorem dropBlankEnd_concat (rows : List Bytes) (last : Bytes) (solid : isBlank last = false) :
    dropBlankEnd (rows ++ [last]) = rows ++ [last] :=
  List.rdropWhile_concat_neg isBlank rows last (by simp [solid])

theorem dropBlankEnd_after (rows more : List Bytes) (last : Bytes)
    (solid : isBlank last = false) :
    dropBlankEnd (rows ++ [last] ++ more) = rows ++ [last] ++ dropBlankEnd more := by
  rw [dropBlankEnd_append]
  split
  · rename_i blank
    have gone : dropBlankEnd more = [] :=
      List.rdropWhile_eq_nil_iff.mpr (List.all_eq_true.mp blank)
    rw [dropBlankEnd_concat rows last solid, gone, List.append_nil]
  · rfl

theorem dropBlankEnd_sublist (rows : List Bytes) : (dropBlankEnd rows).Sublist rows :=
  (List.rdropWhile_prefix isBlank rows).sublist

theorem dropBlankEnd_last (rows : List Bytes) :
    ∀ row ∈ (dropBlankEnd rows).getLast?, isBlank row = false := by
  intro row last
  have nonempty : rows.rdropWhile isBlank ≠ [] := by
    intro empty
    change row ∈ (rows.rdropWhile isBlank).getLast? at last
    simp [empty] at last
  have solid := List.rdropWhile_last_not isBlank rows nonempty
  have same : (rows.rdropWhile isBlank).getLast nonempty = row := by
    change (rows.rdropWhile isBlank).getLast? = some row at last
    rw [List.getLast?_eq_some_getLast nonempty] at last
    exact Option.some.inj last
  rw [same] at solid
  simpa using solid

theorem indexFrom_isSome (needle : Bytes) (position : Nat) (text : Bytes) :
    (indexFrom needle position text).isSome = true ↔ needle <:+: text := by
  induction text generalizing position with
  | nil =>
      cases needle <;> simp [indexFrom]
  | cons b rest ih =>
      rw [List.infix_cons_iff, indexFrom]
      by_cases front : needle.isPrefixOf (b :: rest) = true
      · simp [front, List.isPrefixOf_iff_prefix.mp front]
      · have apart : ¬ needle <+: b :: rest := fun start =>
          front (List.isPrefixOf_iff_prefix.mpr start)
        simp [front, apart, ih]

/-- The text contains what it has as a part. -/
theorem contains_iff (needle text : Bytes) : contains needle text = true ↔ needle <:+: text :=
  indexFrom_isSome needle 0 text

theorem rawLines_first (text first : Bytes) (later : List Bytes)
    (rows : rawLines text = first :: later) : first <+: text := by
  induction text generalizing first later with
  | nil => cases rows
  | cons b rest ih =>
      unfold rawLines at rows
      split at rows
      · cases rows
        exact List.nil_prefix
      · split at rows
        · cases rows
          exact ⟨rest, rfl⟩
        · rename_i line more inner
          cases rows
          exact List.cons_prefix_cons.mpr ⟨rfl, ih line _ inner⟩

theorem rawLines_inside (text row : Bytes) (member : row ∈ rawLines text) : row <:+: text := by
  induction text generalizing row with
  | nil => cases member
  | cons b rest ih =>
      unfold rawLines at member
      split at member
      · rcases List.mem_cons.mp member with rfl | later
        · exact List.nil_infix
        · exact List.infix_cons (ih row later)
      · split at member
        · rw [List.mem_singleton.mp member]
          exact List.IsPrefix.isInfix ⟨rest, rfl⟩
        · rename_i line later inner
          rcases List.mem_cons.mp member with rfl | after
          · have front := rawLines_first rest line later inner
            exact (List.cons_prefix_cons.mpr ⟨rfl, front⟩).isInfix
          · exact List.infix_cons (ih row (inner ▸ List.mem_cons_of_mem line after))

/-- Each row is a part of the text. -/
theorem lines_inside (text row : Bytes) (member : row ∈ lines text) : row <:+: text := by
  obtain ⟨raw, found, rfl⟩ := List.mem_map.mp member
  have inside := rawLines_inside text raw found
  rcases chompReturn_cases raw with same | ends
  · rwa [same]
  · have front : chompReturn raw <+: raw := ⟨[carriageReturn], ends.symm⟩
    exact front.isInfix.trans inside

theorem trim_inside (text : Bytes) : trim text <:+: text := by
  obtain ⟨lead, trail, _, _, whole⟩ := trim_between text
  exact ⟨lead, trail, whole.symm⟩

theorem takeWhile_mark (mark : UInt8) (front rest : Bytes) (unmarked : mark ∉ front) :
    (front ++ mark :: rest).takeWhile (· != mark) = front ∧
      (front ++ mark :: rest).dropWhile (· != mark) = mark :: rest := by
  have inside : ∀ b ∈ front, (b != mark) = true := by
    intro b member
    rw [bne_iff_ne]
    rintro rfl
    exact unmarked member
  rw [List.takeWhile_append_of_pos inside, List.dropWhile_append_of_pos inside]
  simp

theorem cutAt_mark (mark : UInt8) (front rest : Bytes) (unmarked : mark ∉ front) :
    cutAt? mark (front ++ mark :: rest) = some (front, rest) := by
  obtain ⟨before, from_mark⟩ := takeWhile_mark mark front rest unmarked
  unfold cutAt?
  rw [before, from_mark]

theorem dropWhile_unmarked (mark : UInt8) (text : Bytes) (unmarked : mark ∉ text) :
    text.dropWhile (· != mark) = [] := by
  rw [List.dropWhile_eq_nil_iff]
  intro b member
  rw [bne_iff_ne]
  rintro rfl
  exact unmarked member

theorem cutAt_none (mark : UInt8) (text : Bytes) (unmarked : mark ∉ text) :
    cutAt? mark text = none := by
  unfold cutAt?
  rw [dropWhile_unmarked mark text unmarked]

theorem cutAt_whole (mark : UInt8) (text before after : Bytes)
    (cut : cutAt? mark text = some (before, after)) : text = before ++ mark :: after := by
  unfold cutAt? at cut
  split at cut
  · cases cut
  · rename_i first rest dropped
    cases cut
    have stops : first = mark := by
      have kept := List.head?_dropWhile_not (· != mark) text
      rw [dropped] at kept
      simpa using kept
    subst stops
    rw [← dropped]
    exact List.takeWhile_append_dropWhile.symm

theorem cutAt_before (mark : UInt8) (text before after : Bytes)
    (cut : cutAt? mark text = some (before, after)) : mark ∉ before := by
  unfold cutAt? at cut
  split at cut
  · cases cut
  · cases cut
    intro member
    simpa using List.mem_takeWhile_imp member

end EndpointPreview.Text
