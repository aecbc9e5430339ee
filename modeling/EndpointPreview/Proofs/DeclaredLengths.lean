import EndpointPreview.Proofs.BarePaths
import EndpointPreview.Proofs.ParameterTexts
import EndpointPreview.Proofs.Tables

/-!
Declared lengths. The headers of a response are kept in a table, in which the last of several
headers of one name tells the value; the length of the body is read from the block itself, where
the first row that declares one counts. Both see the same rows: a row declares a length when its
name is that of the header, in any case, and white space around the value does not change the
number.
-/

namespace EndpointPreview.Table

section Forms

variable {Key Form Value : Type} (less : Form → Form → Bool) (form : Key → Form)

def byForm (a b : Key) : Bool := less (form a) (form b)

def formed (entries : List (Key × Value)) : List (Form × Value) :=
  entries.map fun entry => (form entry.1, entry.2)

theorem formed_set (key : Key) (value : Value) (table : List (Key × Value)) :
    formed form (set (byForm less form) key value table) =
      set less (form key) value (formed form table) := by
  induction table with
  | nil => rfl
  | cons entry rest ih =>
      have first : formed form (entry :: rest) = (form entry.1, entry.2) :: formed form rest := rfl
      rw [set, first, set, byForm, byForm]
      by_cases before : less (form key) (form entry.1) = true
      · rw [if_pos before, if_pos before]
        rfl
      · rw [if_neg before, if_neg before]
        by_cases after : less (form entry.1) (form key) = true
        · rw [if_pos after, if_pos after, ← ih]
          rfl
        · rw [if_neg after, if_neg after]
          rfl

theorem find?_formed (key : Key) (table : List (Key × Value)) :
    find? (byForm less form) key table = find? less (form key) (formed form table) := by
  induction table with
  | nil => rfl
  | cons entry rest ih =>
      have first : formed form (entry :: rest) = (form entry.1, entry.2) :: formed form rest := rfl
      rw [find?, ih, first, find?]
      rfl

theorem formed_setAll (assignments table : List (Key × Value)) :
    formed form (setAll (byForm less form) assignments table) =
      setAll less (formed form assignments) (formed form table) := by
  induction assignments generalizing table with
  | nil => rfl
  | cons entry later ih =>
      have further := ih (set (byForm less form) entry.1 entry.2 table)
      rw [formed_set] at further
      exact further

/-- The last assignment to a key of the same form tells the value. -/
theorem find?_ofList_formed [BEq Form] [LawfulBEq Form] (order : Orders less) (key : Key)
    (assignments : List (Key × Value)) :
    find? (byForm less form) key (ofList (byForm less form) assignments) =
      (assignments.filterMap fun entry =>
        if form entry.1 == form key then some entry.2 else none).getLast? := by
  rw [find?_formed, ofList, formed_setAll]
  change find? less (form key) (ofList less (formed form assignments)) = _
  rw [find?_ofList order]
  induction assignments using List.reverseRecOn with
  | nil => rfl
  | append_singleton earlier last ih =>
      have parts : formed form (earlier ++ [last]) =
          formed form earlier ++ [(form last.1, last.2)] := List.map_append
      rw [parts, List.reverse_concat, List.lookup_cons, List.filterMap_append, ih,
        Bool.beq_comm]
      by_cases same : (form last.1 == form key) = true
      · simp [same]
      · rw [Bool.not_eq_true] at same
        simp [same]

end Forms

end EndpointPreview.Table

namespace EndpointPreview.Numeral

open Text

theorem int32_padded (value : Bytes) : int32? (value.dropWhile Http.isPadding) = int32? value := by
  have blank : ∀ b, Http.isPadding b = true → isSpace b = true := by
    intro b padding
    rcases Bool.or_eq_true_iff.mp padding with space | tab
    · rw [beq_iff_eq.mp space]
      rfl
    · rw [beq_iff_eq.mp tab]
      rfl
  have started : (value.dropWhile Http.isPadding).dropWhile isSpace = value.dropWhile isSpace := by
    induction value with
    | nil => rfl
    | cons b rest ih =>
        by_cases padding : Http.isPadding b = true
        · rw [List.dropWhile_cons_of_pos padding, List.dropWhile_cons_of_pos (blank b padding), ih]
        · rw [List.dropWhile_cons_of_neg padding]
  rw [int32?, int32?, signed?, started]
  rfl

theorem signed_ten (text : Bytes) : signed? 10 isDigit text =
    let body := (takeSign (text.dropWhile isSpace)).2
    if (body.takeWhile isDigit).isEmpty then none
    else some (applySign (takeSign (text.dropWhile isSpace)).1
      (ofDigits 10 (body.takeWhile isDigit))) := rfl

theorem takeSign_append (text more : Bytes) (solid : text ≠ []) :
    takeSign (text ++ more) = ((takeSign text).1, (takeSign text).2 ++ more) := by
  cases text with
  | nil => exact absurd rfl solid
  | cons b rest =>
      rw [List.cons_append, takeSign, takeSign]
      split
      · rfl
      · split
        · rfl
        · rfl

theorem int32_trailed (value gap : Bytes) (blank : isBlank gap = true) :
    int32? (value ++ gap) = int32? value := by
  have unread : gap.takeWhile isDigit = [] := by
    cases gap with
    | nil => rfl
    | cons b gap =>
        rw [isBlank_cons, Bool.and_eq_true] at blank
        refine List.takeWhile_cons_of_neg fun digit => ?_
        rw [digit_solid b digit] at blank
        cases blank.1
  have digits (body : Bytes) : (body ++ gap).takeWhile isDigit = body.takeWhile isDigit := by
    rw [List.takeWhile_append]
    split
    · rename_i whole
      rw [unread, List.append_nil]
      exact ((List.takeWhile_prefix isDigit).eq_of_length whole).symm
    · rfl
  have signed : signed? 10 isDigit (value ++ gap) = signed? 10 isDigit value := by
    by_cases empty : value.dropWhile isSpace = []
    · have gone : (value ++ gap).dropWhile isSpace = [] := by
        rw [List.dropWhile_append, empty]
        exact (dropWhile_isSpace_eq_nil gap).mpr blank
      rw [signed_ten, signed_ten, gone, empty]
    · have started : (value ++ gap).dropWhile isSpace = value.dropWhile isSpace ++ gap := by
        rw [List.dropWhile_append, if_neg (by rwa [List.isEmpty_iff])]
      rw [signed_ten, signed_ten, started, takeSign_append _ gap empty]
      dsimp only
      rw [digits]
  rw [int32?, signed, int32?]

end EndpointPreview.Numeral

namespace EndpointPreview.Http

open Text

def lengthName : Bytes := ascii "content-length"

def declaredValue? (header : Bytes × Bytes) : Option Bytes :=
  if lowercase header.1 == lengthName then some header.2 else none

def rowLength? (row : Bytes) : Option (Option Int) :=
  if declaresLength row then some (Numeral.int32? (row.drop (lengthName.length + 1))) else none

/-- A row declares a length when its name, up to the first colon, is that of the header. -/
theorem declaresLength_iff (row : Bytes) : declaresLength row = true ↔
    ∃ name value, cutAt? (byte ':') row = some (name, value) ∧ lowercase name = lengthName := by
  constructor
  · intro declares
    obtain ⟨rest, whole⟩ := List.isPrefixOf_iff_prefix.mp declares
    have split : lowercase row = lengthName ++ byte ':' :: rest := whole.symm
    obtain ⟨name, marked, rfl, own, behind⟩ := List.map_eq_append_iff.mp split
    obtain ⟨mark, value, rfl, colon, -⟩ := List.map_eq_cons_iff.mp behind
    have same : mark = byte ':' := by
      rw [← colon, toLower_other mark (by rw [colon]; rfl)]
    have undivided : byte ':' ∉ name := fun member => by
      have inside := Url.mem_lowercase (byte ':') name rfl member
      rw [lowercase, own] at inside
      revert inside
      decide
    rw [same]
    exact ⟨name, value, cutAt_mark _ name value undivided, own⟩
  · rintro ⟨name, value, cut, own⟩
    have lowered : lowercase row = lengthName ++ byte ':' :: lowercase value := by
      rw [cutAt_whole _ _ _ _ cut, lowercase, List.map_append]
      exact congrArg (· ++ _) own
    rw [declaresLength, startsWith, List.isPrefixOf_iff_prefix, lowered]
    exact ⟨lowercase value, rfl⟩

/-- The number of a row is that of its header. -/
theorem rowLength_eq (row : Bytes) :
    rowLength? row = ((headerOf? row).bind declaredValue?).map Numeral.int32? := by
  rw [rowLength?, headerOf?]
  by_cases declares : declaresLength row = true
  · obtain ⟨name, value, cut, own⟩ := (declaresLength_iff row).mp declares
    have length : name.length = lengthName.length := by
      rw [← own, lowercase, List.length_map]
    have behind : row.drop (lengthName.length + 1) = value := by
      rw [cutAt_whole _ _ _ _ cut, ← length, ← List.drop_drop, List.drop_left]
      rfl
    rw [if_pos declares, behind, cut]
    simp [declaredValue?, own, Numeral.int32_padded]
  · rw [if_neg declares]
    cases cut : cutAt? (byte ':') row with
    | none => rfl
    | some sides =>
        obtain ⟨name, value⟩ := sides
        have other : ¬ lowercase name = lengthName := fun own =>
          declares ((declaresLength_iff row).mpr ⟨name, value, cut, own⟩)
        simp [declaredValue?, other]

theorem rowLength_return (row : Bytes) : rowLength? (row ++ [carriageReturn]) = rowLength? row := by
  have declares : declaresLength (row ++ [carriageReturn]) = declaresLength row := by
    apply Bool.eq_iff_iff.mpr
    simp only [declaresLength, startsWith, List.isPrefixOf_iff_prefix, lowercase, List.map_append]
    refine ⟨prefix_inside ?_, fun front => front.trans (List.prefix_append _ _)⟩
    rintro b ⟨⟩
    decide
  rw [rowLength?, declares, rowLength?]
  split
  · rename_i own
    have fits : lengthName.length + 1 ≤ row.length := by
      have front := (List.isPrefixOf_iff_prefix.mp own).length_le
      rw [lowercase, List.length_map] at front
      exact front
    rw [List.drop_append_of_le_length fits, Numeral.int32_trailed _ _ rfl]
  · rfl

theorem rowLength_chompReturn (row : Bytes) : rowLength? (chompReturn row) = rowLength? row := by
  rcases chompReturn_cases row with same | ends
  · rw [same]
  · conv_rhs => rw [ends, rowLength_return]

def firstLength? (rows : List Bytes) : Option (Option Int) := rows.findSome? rowLength?

theorem contentLength_found (block : Bytes) :
    contentLength? block = ((lines block).find? declaresLength).bind fun line =>
      Numeral.int32? (line.drop (lengthName.length + 1)) := by
  rw [contentLength?]
  split
  · rename_i line found
    have first : (lines block).find? declaresLength = some line := found
    rw [first]
    rfl
  · rename_i missing
    have none_declares : (lines block).find? declaresLength = none := missing
    rw [none_declares]
    rfl

theorem contentLength_first (block : Bytes) :
    contentLength? block = (firstLength? (lines block)).join := by
  rw [contentLength_found]
  induction lines block with
  | nil => rfl
  | cons row rows ih =>
      rw [firstLength?, List.findSome?_cons, rowLength?]
      by_cases declares : declaresLength row = true
      · rw [List.find?_cons_of_pos declares, if_pos declares]
        rfl
      · rw [List.find?_cons_of_neg declares, if_neg declares]
        exact ih

theorem firstLength_lines (text : Bytes) :
    firstLength? (lines text) = firstLength? (rawLines text) := by
  rw [firstLength?, lines, List.findSome?_map]
  exact congrArg (List.findSome? · (rawLines text)) (funext rowLength_chompReturn)

theorem firstLength_row (row rest : Bytes) (single : newline ∉ row) :
    firstLength? (rawLines (row ++ newline :: rest)) =
      (rowLength? row).or (firstLength? (rawLines rest)) := by
  rw [rawLines_row row rest single, firstLength?, List.findSome?_cons]
  cases rowLength? row <;> rfl

/-- A blank line behind a block adds no length and changes none. -/
theorem firstLength_blankLine (head : Bytes) :
    firstLength? (rawLines (head ++ blankLine)) = firstLength? (rawLines head) := by
  obtain ⟨row, rest, whole, single, stops⟩ := first_row head
  cases rest with
  | nil =>
      -- The last row of the block has a carriage return more, and an empty row follows it.
      have parts : row ++ blankLine = (row ++ [carriageReturn]) ++ newline :: lineEnd := by
        simp [blankLine, lineEnd, carriageReturn, newline]
      have own : newline ∉ row ++ [carriageReturn] := by simpa using ⟨single, by decide⟩
      have after : firstLength? (rawLines lineEnd) = none := rfl
      rw [whole, List.append_nil, parts, firstLength_row _ _ own, after, rowLength_return,
        Option.or_none]
      cases row with
      | nil => rfl
      | cons b row =>
          rw [rawLines_last (b :: row) single (List.cons_ne_nil b row), firstLength?,
            List.findSome?_cons]
          cases rowLength? (b :: row) <;> rfl
  | cons b rest =>
      obtain rfl := stops b rfl
      have shorter : rest.length < head.length := by
        rw [whole, List.length_append, List.length_cons]
        omega
      have further := firstLength_blankLine rest
      rw [whole, List.append_assoc, List.cons_append, firstLength_row row _ single, further,
        firstLength_row row rest single]
termination_by head.length

end EndpointPreview.Http
