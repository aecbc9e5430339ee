import EndpointPreview.Http.Framing
import EndpointPreview.Proofs.Lines
import EndpointPreview.Proofs.Numerals

/-!
Header blocks: rows with a line end each, and an empty row after the last. The first blank line of
a connection ends its block, wherever the chunks are cut; the rows of a block are its lines; and a
length that the block declares is the one that is read.
-/

namespace EndpointPreview.Text

theorem indexFrom_some (needle : Bytes) (start : Nat) (text : Bytes) (position : Nat) :
    indexFrom needle start text = some position ↔
      ∃ skipped, position = start + skipped ∧ needle <+: text.drop skipped ∧
        ∀ earlier < skipped, ¬ needle <+: text.drop earlier := by
  induction text generalizing start with
  | nil =>
      cases needle with
      | nil =>
          simp only [indexFrom, List.isEmpty_nil, ↓reduceIte, Option.some.injEq, List.drop_nil,
            List.nil_prefix, true_and, not_true]
          constructor
          · rintro rfl
            exact ⟨0, rfl, by omega⟩
          · rintro ⟨skipped, rfl, first⟩
            cases skipped with
            | zero => rfl
            | succ skipped => exact (first 0 (by omega)).elim
      | cons b rest => simp [indexFrom]
  | cons b rest ih =>
      unfold indexFrom
      by_cases front : needle.isPrefixOf (b :: rest) = true
      · rw [if_pos front, Option.some.injEq]
        have own := List.isPrefixOf_iff_prefix.mp front
        constructor
        · rintro rfl
          exact ⟨0, rfl, own, by omega⟩
        · rintro ⟨skipped, rfl, _, first⟩
          cases skipped with
          | zero => rfl
          | succ skipped => exact absurd own (first 0 (by omega))
      · rw [if_neg front, ih]
        have apart : ¬ needle <+: b :: rest := fun own =>
          front (List.isPrefixOf_iff_prefix.mpr own)
        constructor
        · rintro ⟨skipped, rfl, here, first⟩
          refine ⟨skipped + 1, by omega, here, fun earlier before => ?_⟩
          cases earlier with
          | zero => exact apart
          | succ earlier => exact first earlier (by omega)
        · rintro ⟨skipped, rfl, here, first⟩
          cases skipped with
          | zero => exact absurd here apart
          | succ skipped =>
              exact ⟨skipped, by omega, here, fun earlier before => first (earlier + 1) (by omega)⟩

theorem indexOf_some (needle text : Bytes) (position : Nat) :
    indexOf? needle text = some position ↔
      needle <+: text.drop position ∧ ∀ earlier < position, ¬ needle <+: text.drop earlier := by
  unfold indexOf?
  rw [indexFrom_some]
  simp

/-- What is found in a text is found there, whatever follows. -/
theorem indexOf_append (needle left right : Bytes) (position : Nat) (solid : needle ≠ [])
    (found : indexOf? needle left = some position) :
    indexOf? needle (left ++ right) = some position := by
  obtain ⟨here, first⟩ := (indexOf_some _ _ _).mp found
  have fits := here.length_le
  have positive := List.length_pos_iff.mpr solid
  rw [List.length_drop] at fits
  refine (indexOf_some _ _ _).mpr ⟨?_, fun earlier before inside => first earlier before ?_⟩
  · rw [List.drop_append_of_le_length (by omega)]
    exact here.trans (List.prefix_append _ _)
  · rw [List.drop_append_of_le_length (by omega)] at inside
    exact List.prefix_of_prefix_length_le inside (List.prefix_append _ _)
      (by rw [List.length_drop]; omega)

/-- What is found with room to spare is found without what follows. -/
theorem indexOf_within (needle left right : Bytes) (position : Nat)
    (found : indexOf? needle (left ++ right) = some position)
    (fits : position + needle.length ≤ left.length) : indexOf? needle left = some position := by
  obtain ⟨here, first⟩ := (indexOf_some _ _ _).mp found
  refine (indexOf_some _ _ _).mpr ⟨?_, fun earlier before inside => first earlier before ?_⟩
  · rw [List.drop_append_of_le_length (by omega)] at here
    exact List.prefix_of_prefix_length_le here (List.prefix_append _ _)
      (by rw [List.length_drop]; omega)
  · rw [List.drop_append_of_le_length (by omega)]
    exact inside.trans (List.prefix_append _ _)

end EndpointPreview.Text

namespace EndpointPreview.Http

open Text

/-- A block that is complete ends with the first blank line of all that is sent, and nothing is
lost behind it. One that is not complete has no such line before the limit. -/
def HeaderRead.Reads (sent : Bytes) : HeaderRead → Prop
  | .complete headers extra later => ∃ position, indexOf? blankLine sent = some position ∧
      headers = sent.take (position + blankLine.length) ∧
      extra ++ readAll later = sent.drop (position + blankLine.length)
  | .incomplete _ => ∀ position, indexOf? blankLine sent = some position →
      headerLimit < position + blankLine.length

theorem readHeadersFrom_reads (received : Bytes) (chunks : List Bytes)
    (unended : indexOf? blankLine received = none) :
    (readHeadersFrom received chunks).Reads (received ++ readAll chunks) := by
  have solid : blankLine ≠ [] := List.cons_ne_nil _ _
  induction chunks generalizing received with
  | nil =>
      intro position found
      rw [readAll, List.flatten_nil, List.append_nil, unended] at found
      cases found
  | cons chunk later ih =>
      have whole : received ++ readAll (chunk :: later) = received ++ chunk ++ readAll later := by
        simp [readAll]
      unfold readHeadersFrom
      split
      · rename_i full
        intro position found
        by_contra early
        have inside := indexOf_within blankLine received _ position found (by omega)
        rw [unended] at inside
        cases inside
      · dsimp only
        rw [whole]
        split
        · rename_i position found
          have fits := ((indexOf_some _ _ _).mp found).1.length_le
          rw [List.length_drop] at fits
          have inside : position + blankLine.length ≤ (received ++ chunk).length := by
            have positive := List.length_pos_iff.mpr solid
            omega
          refine ⟨position, indexOf_append _ _ _ _ solid found, ?_, ?_⟩
          · rw [List.take_append_of_le_length inside]
          · rw [List.drop_append_of_le_length inside]
        · rename_i unended
          exact ih (received ++ chunk) unended

theorem readHeaders_reads (chunks : List Bytes) : (readHeaders chunks).Reads (readAll chunks) :=
  readHeadersFrom_reads [] chunks rfl

def block (rows : List Bytes) : Bytes := rows.flatMap (· ++ lineEnd)

structure IsRow (row : Bytes) : Prop where
  solid : row ≠ []
  unreturned : carriageReturn ∉ row
  single : newline ∉ row

theorem indexFrom_row (row rest : Bytes) (start : Nat) (unreturned : carriageReturn ∉ row) :
    indexFrom blankLine start (row ++ rest) = indexFrom blankLine (start + row.length) rest := by
  induction row generalizing start with
  | nil => rfl
  | cons b row ih =>
      have other : b ≠ 13 := fun same => unreturned (same ▸ List.mem_cons_self)
      have apart : blankLine.isPrefixOf (b :: (row ++ rest)) = false := by
        simp [blankLine, List.isPrefixOf_cons_cons, Ne.symm other]
      rw [List.cons_append, indexFrom, apart]
      simp only [Bool.false_eq_true, ↓reduceIte, List.length_cons]
      rw [ih (start + 1) fun member => unreturned (List.mem_cons_of_mem b member)]
      congr 1
      omega

-- A line end before a row is no part of a blank line.
theorem indexFrom_lineEnd (row rest : Bytes) (start : Nat) (isRow : IsRow row) :
    indexFrom blankLine start (lineEnd ++ (row ++ rest)) =
      indexFrom blankLine (start + lineEnd.length) (row ++ rest) := by
  cases row with
  | nil => exact absurd rfl isRow.solid
  | cons b row =>
      have other : b ≠ 13 := fun same => isRow.unreturned (same ▸ List.mem_cons_self)
      simp [lineEnd, indexFrom, blankLine, Ne.symm other]

theorem indexFrom_block (rows : List Bytes) (last rest : Bytes) (start : Nat)
    (all : ∀ row ∈ rows ++ [last], IsRow row) :
    indexFrom blankLine start (block rows ++ (last ++ (blankLine ++ rest))) =
      some (start + (block rows ++ last).length) := by
  induction rows generalizing start with
  | nil =>
      have own := all last (by simp)
      have here : indexFrom blankLine (start + last.length) (blankLine ++ rest) =
          some (start + last.length) := by simp [blankLine, indexFrom]
      simp [block, indexFrom_row last _ start own.unreturned, here]
  | cons row rows ih =>
      obtain ⟨own, further⟩ := List.forall_mem_cons.mp all
      have next := ih (start + row.length + lineEnd.length) further
      have split : block (row :: rows) = row ++ (lineEnd ++ block rows) := by simp [block]
      have step : indexFrom blankLine (start + row.length)
          (lineEnd ++ (block rows ++ (last ++ (blankLine ++ rest)))) =
          indexFrom blankLine (start + row.length + lineEnd.length)
            (block rows ++ (last ++ (blankLine ++ rest))) := by
        cases rows with
        | nil => exact indexFrom_lineEnd last _ _ (further last (by simp))
        | cons second rows =>
            have parts : block (second :: rows) = second ++ (lineEnd ++ block rows) := by
              simp [block]
            rw [parts, List.append_assoc]
            exact indexFrom_lineEnd second _ _ (further second (by simp))
      rw [split, List.append_assoc, indexFrom_row row _ start own.unreturned, List.append_assoc,
        step, next]
      congr 1
      simp only [List.length_append]
      omega

/-- The rows of a block are its lines. -/
theorem lines_block (rows : List Bytes) (rest : Bytes) (all : ∀ row ∈ rows, IsRow row) :
    lines (block rows ++ rest) = rows ++ lines rest := by
  induction rows with
  | nil => rfl
  | cons row rows ih =>
      obtain ⟨own, further⟩ := List.forall_mem_cons.mp all
      have single : newline ∉ row ++ [carriageReturn] := by
        simpa using ⟨own.single, by decide⟩
      have split : block (row :: rows) ++ rest =
          (row ++ [carriageReturn]) ++ newline :: (block rows ++ rest) := by
        simp [block, lineEnd, carriageReturn, newline]
      have chomped : chompReturn (row ++ [carriageReturn]) = row := by
        simp [chompReturn]
      rw [split, lines, rawLines_row _ _ single, List.map_cons, chomped]
      exact congrArg (row :: ·) (ih further)

theorem chompReturn_row (row : Bytes) (isRow : IsRow row) : chompReturn row = row := by
  rcases chompReturn_cases row with same | ends
  · exact same
  · refine absurd ?_ isRow.unreturned
    rw [ends]
    simp

/-- The lines of a block without the line end of its last row. -/
theorem lines_block_last (rows : List Bytes) (last : Bytes)
    (all : ∀ row ∈ rows ++ [last], IsRow row) :
    lines (block rows ++ last) = rows ++ [last] := by
  have own := all last (by simp)
  rw [lines_block rows last fun row member => all row (List.mem_append_left _ member), lines,
    rawLines_last last own.single own.solid, List.map_singleton, chompReturn_row last own]

section Framed

variable (rows : List Bytes) (last body : Bytes) (all : ∀ row ∈ rows ++ [last], IsRow row)

theorem block_concat :
    block (rows ++ [last]) ++ lineEnd ++ body = block rows ++ last ++ (blankLine ++ body) := by
  simp [block, lineEnd, blankLine]

include all

theorem indexOf_block :
    indexOf? blankLine (block (rows ++ [last]) ++ lineEnd ++ body) =
      some (block rows ++ last).length := by
  have found := indexFrom_block rows last body 0 all
  rw [Nat.zero_add, ← List.append_assoc] at found
  rw [block_concat]
  exact found

/-- A block is cut from its body at its end, without the blank line. -/
theorem cut_block :
    cut? blankLine (block (rows ++ [last]) ++ lineEnd ++ body) = some (block rows ++ last, body) := by
  unfold cut?
  rw [indexOf_block rows last body all, block_concat, Option.map_some, List.take_left,
    ← List.drop_drop, List.drop_left, List.drop_left]

/-- A block within the limit is read whole, wherever the chunks are cut. -/
theorem readHeaders_block (chunks : List Bytes)
    (sent : readAll chunks = block (rows ++ [last]) ++ lineEnd ++ body)
    (fits : (block (rows ++ [last]) ++ lineEnd).length ≤ headerLimit) :
    ∃ extra later, readHeaders chunks = .complete (block (rows ++ [last]) ++ lineEnd) extra later ∧
      extra ++ readAll later = body := by
  have found := indexOf_block rows last body all
  have ends : (block rows ++ last).length + blankLine.length =
      (block (rows ++ [last]) ++ lineEnd).length := by
    simp [block, blankLine, lineEnd]
    omega
  have reads := readHeaders_reads chunks
  rw [sent] at reads
  cases outcome : readHeaders chunks with
  | incomplete received =>
      rw [outcome] at reads
      have late := reads _ found
      omega
  | complete headers extra later =>
      rw [outcome] at reads
      obtain ⟨position, here, own, rest⟩ := reads
      cases here.symm.trans found
      rw [ends, List.take_left] at own
      rw [ends, List.drop_left] at rest
      exact ⟨extra, later, by rw [own], rest⟩

end Framed

def headerRow (name value : Bytes) : Bytes := name ++ ascii ": " ++ value

def lengthRow (length : Nat) : Bytes := headerRow (ascii "Content-Length") (decimal length)

def lastRow : Bytes := headerRow (ascii "Connection") (ascii "close")

theorem isRow_headerRow (name value : Bytes)
    (unreturned : carriageReturn ∉ name ∧ carriageReturn ∉ value)
    (single : newline ∉ name ∧ newline ∉ value) : IsRow (headerRow name value) where
  solid := by simp [headerRow, ascii]
  unreturned := by
    have mark : carriageReturn ∉ ascii ": " := by decide
    simp [headerRow, unreturned, mark]
  single := by
    have mark : newline ∉ ascii ": " := by decide
    simp [headerRow, single, mark]

theorem isRow_lengthRow (length : Nat) : IsRow (lengthRow length) :=
  isRow_headerRow _ _ ⟨by decide, not_mem_decimal _ length rfl⟩
    ⟨by decide, not_mem_decimal _ length rfl⟩

theorem headerLine_row (name value : Bytes) :
    headerLine name value = headerRow name value ++ lineEnd := rfl

def declaresLength (row : Bytes) : Bool := startsWith (ascii "content-length:") (lowercase row)

theorem contentLength_block (before after : List Bytes) (length : Nat) (small : length < 2147483648)
    (all : ∀ row ∈ before ++ lengthRow length :: after, IsRow row)
    (others : ∀ row ∈ before, declaresLength row = false) :
    contentLength? (block (before ++ lengthRow length :: after) ++ lineEnd) = some (length : Int) := by
  have own : declaresLength (lengthRow length) = true := rfl
  have value : (lengthRow length).drop (ascii "content-length:").length = 32 :: decimal length := rfl
  have skipped : before.find? declaresLength = none :=
    List.find?_eq_none.mpr fun row member => by simp [others row member]
  have first : (lines (block (before ++ lengthRow length :: after) ++ lineEnd)).find?
      (fun row => startsWith (ascii "content-length:") (lowercase row)) = some (lengthRow length) := by
    change List.find? declaresLength _ = _
    rw [lines_block _ _ all, List.append_assoc, List.find?_append, skipped, Option.none_or,
      List.cons_append, List.find?_cons_of_pos own]
  unfold contentLength?
  dsimp only
  rw [first]
  dsimp only
  rw [value, Numeral.int32_decimal length small]

end EndpointPreview.Http
