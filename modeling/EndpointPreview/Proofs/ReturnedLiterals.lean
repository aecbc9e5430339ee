import EndpointPreview.Notation.ReturnLiteral
import EndpointPreview.Proofs.LiteralReading
import EndpointPreview.Proofs.Reindentation
import EndpointPreview.Proofs.RoundTrip
import EndpointPreview.StrictFormats

/-!
The literals that the functions of a module return. The returned text is found at the
same row as in the source when the rows keep their alignment, and its rows are moved like
all others; a string that goes over several of them is what changes the literal.
-/

namespace EndpointPreview.Notation

open Text

namespace Reindented

variable {text again : Bytes}

theorem isBlank_eq (moved : Reindented text again) : isBlank again = isBlank text := by
  induction moved with
  | done => rfl
  | byte b inside rest ih => rw [isBlank_cons, isBlank_cons, ih]
  | row start rest ih =>
      obtain ⟨⟨gap_blank, _⟩, moved_blank, _⟩ := start.blank
      rw [isBlank_cons, isBlank_cons, isBlank_append, isBlank_append, gap_blank, moved_blank, ih]

theorem dropWhile_space (moved : Reindented text again) :
    Reindented (text.dropWhile isSpace) (again.dropWhile isSpace) := by
  induction moved with
  | done => exact .done
  | byte b inside rest ih =>
      by_cases space : isSpace b = true
      · rwa [List.dropWhile_cons_of_pos space, List.dropWhile_cons_of_pos space]
      · rw [List.dropWhile_cons_of_neg space, List.dropWhile_cons_of_neg space]
        exact .byte b inside rest
  | row start rest ih =>
      obtain ⟨⟨gap_blank, _⟩, moved_blank, _⟩ := start.blank
      rw [List.dropWhile_cons_of_pos isSpace_newline, List.dropWhile_cons_of_pos isSpace_newline,
        dropWhile_blank _ _ gap_blank, dropWhile_blank _ _ moved_blank]
      exact ih

theorem dropEnd_space (moved : Reindented text again) :
    Reindented (dropEndWhile isSpace text) (dropEndWhile isSpace again) := by
  induction moved with
  | done => exact .done
  | @byte b text again inside rest ih =>
      have same := rest.isBlank_eq
      by_cases blank : isBlank text = true
      · have blank_again := same.trans blank
        have own := dropEnd_blank [b] text blank
        have other := dropEnd_blank [b] again blank_again
        rw [List.singleton_append] at own other
        rw [own, other]
        by_cases space : isSpace b = true
        · simpa [dropEndWhile, space] using Reindented.done
        · simpa [dropEndWhile, space] using Reindented.byte b inside .done
      · have solid : isBlank text = false := by simpa using blank
        have own := dropEnd_keeps [b] text solid
        have other := dropEnd_keeps [b] again (same.trans solid)
        rw [List.singleton_append] at own other
        rw [own, other]
        exact .byte b inside ih
  | @row gap moved text again start rest ih =>
      have same := rest.isBlank_eq
      obtain ⟨⟨gap_blank, _⟩, moved_blank, _⟩ := start.blank
      by_cases blank : isBlank text = true
      · have all_blank : isBlank (newline :: (gap ++ text)) = true := by
          rw [isBlank_cons, isBlank_append, gap_blank, blank]
          rfl
        have all_again : isBlank (newline :: (moved ++ again)) = true := by
          rw [isBlank_cons, isBlank_append, moved_blank, same, blank]
          rfl
        have own := dropEnd_blank [] _ all_blank
        have other := dropEnd_blank [] _ all_again
        rw [List.nil_append] at own other
        rw [own, other]
        exact .done
      · have solid : isBlank text = false := by simpa using blank
        have own := dropEnd_keeps (newline :: gap) text solid
        have other := dropEnd_keeps (newline :: moved) again (same.trans solid)
        rw [← List.cons_append, ← List.cons_append, own, other]
        refine .row ?_ ih
        rcases start with indented | ⟨blank, one_row, gone, ends⟩
        · exact .inl indented
        · refine .inr ⟨blank, one_row, gone, ?_⟩
          -- Cutting the end leaves the first byte of the row, if anything is left.
          have front : dropEndWhile isSpace text <+: text := List.rdropWhile_prefix isSpace text
          intro b member
          apply ends
          obtain ⟨more, whole⟩ := front
          rw [← whole]
          cases kept : dropEndWhile isSpace text with
          | nil =>
              rw [kept] at member
              cases member
          | cons first kept_rest =>
              rw [kept] at member
              exact member

theorem trim (moved : Reindented text again) : Reindented (trim text) (trim again) :=
  moved.dropWhile_space.dropEnd_space

-- A last byte that is no white space stays.
theorem concat_inv (last : UInt8) (solid : isSpace last = false)
    (moved : Reindented (text ++ [last]) again) :
    ∃ rest, again = rest ++ [last] ∧ Reindented text rest := by
  generalize whole : text ++ [last] = all at moved
  induction moved generalizing text with
  | done => simp at whole
  | @byte b all again inside rest ih =>
      cases text with
      | nil =>
          simp only [List.nil_append, List.cons.injEq] at whole
          obtain ⟨rfl, rfl⟩ := whole
          cases rest with
          | done => exact ⟨[], rfl, .done⟩
      | cons first text =>
          simp only [List.cons_append, List.cons.injEq] at whole
          obtain ⟨rfl, whole⟩ := whole
          obtain ⟨kept, rfl, kept_moved⟩ := ih whole
          exact ⟨_, rfl, .byte first inside kept_moved⟩
  | @row gap moved all again start rest ih =>
      -- White space before a row cannot hold the last byte.
      cases all using List.reverseRecOn with
      | nil =>
          obtain ⟨⟨gap_blank, _⟩, _⟩ := start.blank
          have all_blank : isBlank (text ++ [last]) = true := by
            rw [whole, List.append_nil, isBlank_cons, gap_blank]
            rfl
          simp [solid] at all_blank
      | append_singleton inner final =>
          have parts : text ++ [last] = (newline :: (gap ++ inner)) ++ [final] := by
            rw [whole, List.cons_append, List.append_assoc]
          obtain ⟨rfl, same⟩ := List.append_inj' parts rfl
          injection same with same
          subst same
          obtain ⟨kept, rfl, kept_moved⟩ := ih rfl
          have still : RowMoved gap moved inner := by
            rcases start with indented | ⟨blank, one_row, gone, ends⟩
            · exact .inl indented
            · refine .inr ⟨blank, one_row, gone, ?_⟩
              cases inner with
              | nil => simp
              | cons first inner => exact ends
          exact ⟨newline :: (moved ++ kept), by simp, .row still kept_moved⟩

end Reindented

theorem trimmed_last (text : Bytes) (last : UInt8) (trimmed : trim (text ++ [last]) = text ++ [last]) :
    isSpace last = false := by
  by_contra space
  have blank : isBlank [last] = true := by simpa using space
  rw [trim_trail _ _ blank] at trimmed
  obtain ⟨lead, trail, _, _, whole⟩ := trim_between text
  have lengths := congrArg List.length whole
  rw [trimmed] at lengths
  simp only [List.length_append, List.length_singleton] at lengths
  omega

theorem unwrapJsonify_moved (text again : Bytes) (moved : Reindented text again)
    (trimmed : trim text = text) : Reindented (unwrapJsonify text) (unwrapJsonify again) := by
  have one_row : newline ∉ jsonifyCall := by decide
  have same_start : startsWith jsonifyCall again = startsWith jsonifyCall text :=
    moved.isPrefixOf_eq jsonifyCall one_row
  unfold unwrapJsonify
  rw [same_start]
  cases text using List.reverseRecOn with
  | nil =>
      cases moved
      exact .done
  | append_singleton before last =>
      obtain ⟨before_again, rfl, before_moved⟩ := moved.concat_inv last (trimmed_last _ _ trimmed)
      rw [List.getLast?_concat, List.getLast?_concat]
      by_cases unwraps : (startsWith jsonifyCall (before ++ [last]) &&
          some last == some (byte ')')) = true
      · rw [if_pos unwraps, if_pos unwraps]
        rw [Bool.and_eq_true] at unwraps
        have closes : last = byte ')' := by simpa using unwraps.2
        rcases List.prefix_concat_iff.mp (List.isPrefixOf_iff_prefix.mp unwraps.1) with call | inside
        · -- The call's own bytes end with another mark.
          have ends := congrArg List.getLast? call
          rw [List.getLast?_concat, closes] at ends
          exact absurd ends (by decide)
        · obtain ⟨argument, rfl⟩ := inside
          obtain ⟨argument_again, rfl, argument_moved⟩ := Reindented.front_inv _ one_row before_moved
          rw [List.append_assoc, List.append_assoc, List.drop_left, List.drop_left,
            List.dropLast_concat, List.dropLast_concat]
          exact argument_moved
      · rw [if_neg unwraps, if_neg unwraps]
        exact moved

-- Joining takes the same rows of both texts.
theorem join_moved (text again : Bytes) (rows : List Bytes) (moved : Reindented text again)
    (single : ∀ row ∈ rows, newline ∉ row) :
    Reindented (joinUntilBalanced text rows) (joinUntilBalanced again (rows.map shiftLine)) := by
  induction rows generalizing text again with
  | nil => exact moved
  | cons row rows ih =>
      have same_depth := openBracketDepth_moved text again (words_reindented text again moved).text
      rw [List.map_cons]
      unfold joinUntilBalanced
      rw [same_depth]
      by_cases balanced : openBracketDepth text = 0
      · rw [if_pos balanced, if_pos balanced]
        exact moved
      · rw [if_neg balanced, if_neg balanced]
        apply ih
        · exact moved.append (shiftLine_moved row (single row List.mem_cons_self)) (by simp)
        · exact fun later member => single later (List.mem_cons_of_mem _ member)

def returnedTextAt? (base : Nat) : List Bytes → Option Bytes
  | [] => none
  | line :: later =>
      if !isBlank line && indent line == base && isReturn (trim line) then
        some (unwrapJsonify (trim (joinUntilBalanced (returned (trim line)) later)))
      else returnedTextAt? base later

def baseIndent? (rows : List Bytes) : Option Nat := (rows.find? (!isBlank ·)).map indent

def Endpoint.returnedText? (endpoint : Endpoint) : Option Bytes :=
  if isReturn endpoint.inlineBody then some (unwrapJsonify (returned endpoint.inlineBody))
  else (baseIndent? endpoint.innerLines).bind fun base => returnedTextAt? base endpoint.innerLines

theorem expressionLiteral_text [Json.Dialect] (expression : Bytes) :
    expressionLiteral? expression = literal? (unwrapJsonify expression) := by
  cases expression with
  | nil => rfl
  | cons b expression => rfl

theorem returnAt_text [Json.Dialect] (base : Nat) (rows : List Bytes) :
    returnAt base rows = (returnedTextAt? base rows).bind literal? := by
  induction rows with
  | nil => rfl
  | cons line later ih =>
      unfold returnAt returnedTextAt?
      by_cases found : (!isBlank line && indent line == base && isReturn (trim line)) = true
      · rw [if_pos found, if_pos found, expressionLiteral_text]
        rfl
      · rw [if_neg found, if_neg found]
        exact ih

theorem returnLiteral_text [Json.Dialect] (endpoint : Endpoint) (count : 0 ≤ endpoint.headerLines) :
    endpoint.returnLiteral? = endpoint.returnedText?.bind literal? := by
  have below : (lines endpoint.body).drop endpoint.headerLines.toNat = endpoint.innerLines := by
    unfold Endpoint.innerLines linesAfter
    rw [if_neg (by omega)]
  unfold Endpoint.returnLiteral? Endpoint.returnedText?
  by_cases inlined : isReturn endpoint.inlineBody = true
  · rw [if_pos inlined, if_pos inlined, expressionLiteral_text]
    rfl
  · rw [if_neg inlined, if_neg inlined, below]
    unfold returnIn baseIndent?
    cases endpoint.innerLines.find? (!isBlank ·) with
    | none => rfl
    | some first => exact returnAt_text (indent first) endpoint.innerLines

theorem trim_shiftLine (row : Bytes) : trim (shiftLine row) = trim row := by
  unfold shiftLine
  by_cases blank : isBlank row = true
  · rw [if_pos blank, (trim_eq_nil_iff row).mpr blank]
    rfl
  · rw [if_neg blank]
    exact trim_lead indentation row (by decide)

theorem isBlank_shiftLine (row : Bytes) : isBlank (shiftLine row) = isBlank row := by
  rw [← isBlank_trim, trim_shiftLine, isBlank_trim]

-- When the same rows that return stand at the base, the same `return` is found.
theorem returnedTextAt_moved (base base_again : Nat) (rows : List Bytes)
    (single : ∀ row ∈ rows, newline ∉ row)
    (aligned : ∀ row ∈ rows, isReturn (trim row) = true →
      (indent row = base ↔ indent (shiftLine row) = base_again)) :
    Option.Rel Reindented (returnedTextAt? base rows)
      (returnedTextAt? base_again (rows.map shiftLine)) := by
  induction rows with
  | nil => exact .none
  | cons row rows ih =>
      have same_pick : (!isBlank (shiftLine row) && indent (shiftLine row) == base_again &&
          isReturn (trim (shiftLine row))) =
          (!isBlank row && indent row == base && isReturn (trim row)) := by
        rw [isBlank_shiftLine, trim_shiftLine]
        cases returns : isReturn (trim row) with
        | false => rw [Bool.and_false, Bool.and_false]
        | true =>
            have at_base := aligned row List.mem_cons_self returns
            have same_base : (indent (shiftLine row) == base_again) = (indent row == base) := by
              rw [Bool.eq_iff_iff, beq_iff_eq, beq_iff_eq]
              exact at_base.symm
            rw [same_base]
      rw [List.map_cons]
      unfold returnedTextAt?
      rw [same_pick, trim_shiftLine]
      by_cases picked : (!isBlank row && indent row == base && isReturn (trim row)) = true
      · rw [if_pos picked, if_pos picked]
        have one_row : newline ∉ returned (trim row) := by
          intro member
          have in_row := List.mem_of_mem_drop (mem_of_mem_trim _ _ member)
          exact single row List.mem_cons_self (mem_of_mem_trim _ _ in_row)
        have joined := join_moved _ _ rows (Reindented.refl_row _ one_row)
          fun later member => single later (List.mem_cons_of_mem _ member)
        exact .some (unwrapJsonify_moved _ _ joined.trim (trim_trim _))
      · rw [if_neg picked, if_neg picked]
        apply ih
        · exact fun later member => single later (List.mem_cons_of_mem _ member)
        · exact fun later member => aligned later (List.mem_cons_of_mem _ member)

-- The rows of the endpoint let its first `return` be found in its module, and with the same rows
-- behind it.
structure Endpoint.KeepsReturn (endpoint : Endpoint) : Prop where
  -- A `return` stands at the base in the source when it does so in the module.
  aligned : isReturn endpoint.inlineBody = false →
    ∀ row ∈ endpoint.innerLines, isReturn (trim row) = true →
      (some (indent row) = baseIndent? endpoint.innerLines ↔
        some (indent (shiftLine row)) = baseIndent? endpoint.moduleBody)
  -- What is returned behind the colon does not reach into the rows below.
  closed : isReturn endpoint.inlineBody = true →
    openBracketDepth (returned endpoint.inlineBody) = 0 ∨ endpoint.innerLines = []
  returns : ∀ row ∈ endpoint.innerLines, chompReturn row = row

theorem chompReturn_indented (row : Bytes) (kept : chompReturn row = row) :
    chompReturn (indentation ++ row) = indentation ++ row := by
  cases row using List.reverseRecOn with
  | nil => decide
  | append_singleton before last =>
      have other : last ≠ carriageReturn := by
        rintro rfl
        have shorter : chompReturn (before ++ [carriageReturn]) = before := by
          simp [chompReturn]
        have lengths := congrArg List.length (shorter.symm.trans kept)
        simp at lengths
      rw [← List.append_assoc]
      exact chompReturn_concat _ last other

theorem chompReturn_trimmed (text : Bytes) (trimmed : trim text = text) : chompReturn text = text := by
  cases text using List.reverseRecOn with
  | nil => rfl
  | append_singleton before last =>
      apply chompReturn_concat
      rintro rfl
      exact absurd (trimmed_last _ _ trimmed) (by decide)

theorem reread_innerLines (endpoint : Endpoint) (lineNumber : Nat)
    (found : FunctionFound (.endpoint endpoint)) (keeps : endpoint.KeepsReturn) :
    (endpoint.reread lineNumber).innerLines = endpoint.moduleBody := by
  have rows := lines_reread endpoint lineNumber found
  have kept : ∀ row ∈ endpoint.moduleBody, chompReturn row = row := by
    apply moduleBody_rows
    · rfl
    · decide
    · cases found with
      | endpoint line extra body rows text count trimmed =>
      rw [List.append_assoc]
      apply chompReturn_indented
      apply chompReturn_indented
      exact chompReturn_trimmed _ trimmed
    · exact fun row member => chompReturn_indented row (keeps.returns row member)
  have once : endpoint.moduleBody.map chompReturn = endpoint.moduleBody :=
    (List.map_congr_left kept).trans (List.map_id _)
  change linesAfter 1 (lines (endpoint.reread lineNumber).body) = _
  rw [rows, once, List.map_cons, once]
  rfl

-- A statement behind the colon that returns is the first row of the module's function.
theorem returnedText_inline (endpoint : Endpoint) (found : FunctionFound (.endpoint endpoint))
    (keeps : endpoint.KeepsReturn) (inlined : isReturn endpoint.inlineBody = true) :
    (baseIndent? endpoint.moduleBody).bind (fun base => returnedTextAt? base endpoint.moduleBody) =
      some (unwrapJsonify (returned endpoint.inlineBody)) := by
  let row := indentation ++ indentation ++ endpoint.inlineBody
  have written : endpoint.inlineBody ≠ [] := by
    intro empty
    rw [empty] at inlined
    exact absurd inlined (by decide)
  have solid : isBlank row = false := by
    rw [isBlank_append, inlineBody_solid endpoint found written, Bool.and_false]
  have body : endpoint.moduleBody = row :: endpoint.innerLines.map shiftLine := by
    rw [moduleBody_found endpoint found, if_neg fun nothing => written nothing.1]
    simp [inlineLines, written, row]
  have own : trim row = endpoint.inlineBody := by
    cases found with
    | endpoint line extra rows_body rows text count trimmed =>
    exact (trim_lead _ _ (by decide)).trans trimmed
  have joined : joinUntilBalanced (returned endpoint.inlineBody)
      (endpoint.innerLines.map shiftLine) = returned endpoint.inlineBody := by
    rcases keeps.closed inlined with balanced | nothing
    · cases endpoint.innerLines.map shiftLine with
      | nil => rfl
      | cons => rw [joinUntilBalanced, if_pos balanced]
    · rw [nothing]
      rfl
  rw [body]
  unfold baseIndent?
  rw [List.find?_cons_of_pos (by simp [solid])]
  simp only [Option.map_some, Option.bind_some, returnedTextAt?, solid, own, inlined, joined]
  simp only [Bool.not_false, beq_self_eq_true, Bool.and_self, ↓reduceIte, returned, trim_trim]

-- A statement behind the colon that does not return is passed over.
theorem returnedTextAt_inline (base : Nat) (inlineBody : Bytes) (rows : List Bytes)
    (trimmed : trim inlineBody = inlineBody) (other : isReturn inlineBody = false) :
    returnedTextAt? base (inlineLines inlineBody ++ rows) = returnedTextAt? base rows := by
  unfold inlineLines
  by_cases written : inlineBody.isEmpty = true
  · rw [if_pos written]
    rfl
  · have own : trim (indentation ++ indentation ++ inlineBody) = inlineBody :=
      (trim_lead _ _ (by decide)).trans trimmed
    rw [if_neg written, List.singleton_append, returnedTextAt?, own, other, Bool.and_false]
    rfl

theorem baseIndent_solid (rows before : List Bytes) (last : Bytes) (whole : rows = before ++ [last])
    (solid : isBlank last = false) : ∃ base, baseIndent? rows = some base := by
  have some_solid : (rows.find? (!isBlank ·)).isSome = true := by
    rw [List.find?_isSome]
    exact ⟨last, by simp [whole], by simp [solid]⟩
  obtain ⟨first, found⟩ := Option.isSome_iff_exists.mp some_solid
  exact ⟨indent first, by simp [baseIndent?, found]⟩

theorem returnedText_below (endpoint : Endpoint) (found : FunctionFound (.endpoint endpoint))
    (keeps : endpoint.KeepsReturn) (other : isReturn endpoint.inlineBody = false)
    (single : ∀ row ∈ endpoint.innerLines, newline ∉ row) :
    Option.Rel Reindented
      ((baseIndent? endpoint.innerLines).bind fun base => returnedTextAt? base endpoint.innerLines)
      ((baseIndent? endpoint.moduleBody).bind fun base =>
        returnedTextAt? base endpoint.moduleBody) := by
  have trimmed : trim endpoint.inlineBody = endpoint.inlineBody := by
    cases found with
    | endpoint line extra body rows text count trimmed => exact trimmed
  have body := moduleBody_found endpoint found
  obtain ⟨before, last, whole, solid⟩ := moduleBody_solid endpoint found
  obtain ⟨base_again, at_again⟩ := baseIndent_solid _ before last whole solid
  by_cases nothing : endpoint.inlineBody = [] ∧ endpoint.innerLines = []
  · have pass : (baseIndent? [indentation ++ indentation ++ ascii "pass"]).bind (fun base =>
        returnedTextAt? base [indentation ++ indentation ++ ascii "pass"]) = none := by
      decide +kernel
    rw [body, if_pos nothing, pass, nothing.2]
    exact .none
  · rw [if_neg nothing] at body
    rw [at_again, Option.bind_some]
    have passed := returnedTextAt_inline base_again _ (endpoint.innerLines.map shiftLine) trimmed other
    rw [← body] at passed
    rw [passed]
    rcases innerLines_solid endpoint found with empty | ⟨inner, final, inner_whole, inner_solid⟩
    · rw [empty]
      exact .none
    · obtain ⟨base, at_base⟩ := baseIndent_solid _ inner final inner_whole inner_solid
      rw [at_base, Option.bind_some]
      apply returnedTextAt_moved base base_again _ single
      intro row member returns
      have kept := keeps.aligned other row member returns
      rwa [at_base, at_again, Option.some_inj, Option.some_inj] at kept

theorem mem_unwrapJsonify (b : UInt8) (text : Bytes) (member : b ∈ unwrapJsonify text) :
    b ∈ text := by
  unfold unwrapJsonify at member
  by_cases unwraps : (startsWith jsonifyCall text && text.getLast? == some (byte ')')) = true
  · rw [if_pos unwraps] at member
    exact List.mem_of_mem_drop ((List.dropLast_sublist _).subset member)
  · rwa [if_neg unwraps] at member

/-- The module's function returns the text of the source, moved like its other rows. -/
theorem returnedText_moved (endpoint : Endpoint) (lineNumber : Nat)
    (found : FunctionFound (.endpoint endpoint)) (keeps : endpoint.KeepsReturn) :
    Option.Rel Reindented endpoint.returnedText? (endpoint.reread lineNumber).returnedText? := by
  have again : (endpoint.reread lineNumber).returnedText? =
      (baseIndent? endpoint.moduleBody).bind fun base =>
        returnedTextAt? base endpoint.moduleBody := by
    rw [← reread_innerLines endpoint lineNumber found keeps]
    rfl
  rw [again]
  unfold Endpoint.returnedText?
  cases inlined : isReturn endpoint.inlineBody with
  | true =>
      rw [returnedText_inline endpoint found keeps inlined]
      cases found with
      | endpoint line extra body rows text count trimmed inline_single =>
      refine .some (.refl_row _ fun member => inline_single ?_)
      exact List.mem_of_mem_drop (mem_of_mem_trim _ _ (mem_unwrapJsonify _ _ member))
  | false =>
      apply returnedText_below endpoint found keeps inlined
      intro row member
      cases found with
      | endpoint line extra body rows text count =>
      rw [innerLines_found endpoint line extra body rows text count] at member
      obtain ⟨original, inside, rfl⟩ := List.mem_map.mp member
      intro in_row
      exact rows.single original (List.mem_append_right _ inside) (mem_chompReturn _ _ in_row)

def keepsEntries [Json.Dialect] (text : Bytes) : Bool :=
  (literal? text).all fun value => value.memberCount == (words text).countP (·.1 == .colon)

-- What becomes of the literal of an endpoint in its module: it is neither lost nor found, and
-- changes when one of its strings goes over several rows.
structure Endpoint.LiteralMoved [Json.Dialect] (before after : Endpoint) : Prop where
  present : after.returnLiteral?.isSome = before.returnLiteral?.isSome
  kept : (∀ text ∈ before.returnedText?, stringsInRow text = true) →
    after.returnLiteral? = before.returnLiteral?
  changed : ∀ text ∈ before.returnedText?, stringsInRow text = false → keepsEntries text = true →
    before.returnLiteral?.isSome = true → after.returnLiteral? ≠ before.returnLiteral?

theorem literal_reindented [Json.Dialect] (text again : Bytes) (moved : Reindented text again) :
    Option.Rel (ValueMoved (words text) (words again)) (literal? text) (literal? again) :=
  literal_moved (wordBound_positive _) text again (words_reindented text again moved).text

theorem literal_present [Json.Dialect] (text again : Bytes) (moved : Reindented text again) :
    (literal? again).isSome = (literal? text).isSome := by
  have values := literal_reindented text again moved
  generalize literal? text = value at values
  generalize literal? again = value_again at values
  cases values with
  | none => rfl
  | some => rfl

theorem literal_kept [Json.Dialect] (text again : Bytes) (moved : Reindented text again)
    (in_rows : stringsInRow text = true) : literal? again = literal? text := by
  have values := literal_reindented text again moved
  cases found : literal? text with
  | none =>
      rw [found] at values
      generalize literal? again = value_again at values
      cases values
      rfl
  | some value =>
      have closed := literal_closed text value found
      have same_words := ((words_reindented text again moved).same closed).mpr in_rows
      rw [found] at values
      generalize literal? again = value_again at values
      cases values with
      | some values => rw [values.same same_words]

theorem literal_changed [Json.Dialect] (text again : Bytes) (moved : Reindented text again)
    (crosses : stringsInRow text = false) (entries : keepsEntries text = true)
    (present : (literal? text).isSome = true) : literal? again ≠ literal? text := by
  obtain ⟨value, found⟩ := Option.isSome_iff_exists.mp present
  have values := literal_reindented text again moved
  have closed := literal_closed text value found
  have same_words := (words_reindented text again moved).same closed
  unfold keepsEntries at entries
  rw [found] at values entries ⊢
  intro unchanged
  rw [unchanged] at values
  cases values with
  | some values =>
      have count : value.memberCount = (words text).countP (·.1 == .colon) := by
        simpa using entries
      rw [same_words.mp (values.words count rfl)] at crosses
      cases crosses

theorem literalMoved_reread [Json.Dialect] (endpoint : Endpoint) (lineNumber : Nat)
    (found : FunctionFound (.endpoint endpoint)) (keeps : endpoint.KeepsReturn) :
    endpoint.LiteralMoved (endpoint.reread lineNumber) := by
  have moved := returnedText_moved endpoint lineNumber found keeps
  have own : endpoint.returnLiteral? = endpoint.returnedText?.bind literal? := by
    apply returnLiteral_text
    cases found with
    | endpoint line extra body rows text count => omega
  have other := returnLiteral_text (endpoint.reread lineNumber) Int.one_nonneg
  generalize before_text : endpoint.returnedText? = before at moved own
  generalize (endpoint.reread lineNumber).returnedText? = after at moved other
  cases moved with
  | none =>
      have same := other.trans own.symm
      refine ⟨congrArg Option.isSome same, fun _ => same, ?_⟩
      intro text is_text
      rw [before_text] at is_text
      cases is_text
  | @some text again moved =>
      rw [Option.bind_some] at own other
      constructor
      · rw [own, other]
        exact literal_present text again moved
      · intro in_rows
        rw [own, other]
        exact literal_kept text again moved (in_rows text before_text)
      · intro own_text is_text crosses entries
        rw [before_text] at is_text
        cases is_text
        rw [own, other]
        exact literal_changed text again moved crosses entries

theorem returnLiteral_module [Json.Dialect] (source : Bytes) (index : Nat) (endpoint : Endpoint)
    (at_index : (parse source).endpoints[index]? = some endpoint)
    (one_row : ∀ earlier ∈ (parse source).endpoints.take (index + 1), newline ∉ earlier.route)
    (hangs : ∀ helper ∈ (parse source).helpers, helper.hangs) (keeps : endpoint.KeepsReturn) :
    ∃ again, (parse (renderModule (parse source))).endpoints[index]? = some again ∧
      again.name = endpoint.name ∧ endpoint.LiteralMoved again := by
  let front := (parse source).endpoints.take (index + 1)
  have helpers := helper_found source
  have reads : ∀ helper ∈ (parse source).helpers, ∃ line extra body,
      helper.Reads line extra body :=
    fun helper member => reads_hanging helper (helpers helper member) (hangs helper member)
  have found : ∀ endpoint ∈ front, FunctionFound (.endpoint endpoint) :=
    fun earlier member => endpoint_found source earlier (List.mem_of_mem_take member)
  -- Routes behind this endpoint may hold line breaks; what they become is left open.
  obtain ⟨before, again, after, whole, kinds, pairs, _⟩ := findings_module (parse source) front
    ((parse source).endpoints.drop (index + 1)) (List.take_append_drop _ _).symm helpers reads found
    one_row
  have again_read : parse (renderModule (parse source)) =
      .ofFindings (before ++ (again.map .endpoint ++ after)) := congrArg _ whole
  have inside : index < (parse source).endpoints.length := (List.getElem?_eq_some_iff.mp at_index).1
  have at_front : front[index]? = some endpoint := by
    rw [List.getElem?_take_of_lt (Nat.lt_succ_self index), at_index]
  have in_front : index < front.length := (List.getElem?_eq_some_iff.mp at_front).1
  have in_again : index < again.length := by rwa [← pairs.length_eq]
  have pair := pairs.get in_front in_again
  have own : front.get ⟨index, in_front⟩ = endpoint := (List.getElem?_eq_some_iff.mp at_front).2
  obtain ⟨lineNumber, reread⟩ := pair
  rw [own] at reread
  refine ⟨endpoint.reread lineNumber, ?_, rfl, ?_⟩
  · rw [again_read, endpoints_after_helpers _ _ _ kinds, List.getElem?_append_left in_again,
      List.getElem?_eq_getElem in_again]
    exact congrArg some reread
  · exact literalMoved_reread endpoint lineNumber (endpoint_found source endpoint
      (List.mem_of_getElem? at_index)) keeps

def listSource : Bytes := ascii (
  "@endpoint('/a')\ndef one(): return 1\n" ++
  "@endpoint('/b')\ndef two():\n    return ['a',\n  [2],\n    ]\n")

def listEndpoint : Endpoint :=
  { name := ascii "two"
    route := ascii "/b"
    method := defaultMethod
    parameters := []
    body := ascii "def two():\n    return ['a',\n  [2],\n    ]"
    line := 4
    headerLines := 1
    inlineBody := [] }

section Strict

attribute [local instance] Json.strict

theorem returnLiteral_module_list :
    ∃ again, (parse (renderModule (parse listSource))).endpoints[1]? = some again ∧
      again.name = listEndpoint.name ∧ listEndpoint.LiteralMoved again :=
  returnLiteral_module listSource 1 listEndpoint (by decide +kernel) (by decide +kernel)
    (by decide +kernel)
    ⟨by decide +kernel, by decide +kernel, by decide +kernel⟩

def tallSource : Bytes := ascii
  "@endpoint('/a')\ndef f():\n    return \"\"\"a\n    b\"\"\"\n"

/-- The module of such a source does not return what the source does. -/
theorem returnLiteral_module_tall :
    ∃ before after, (parse tallSource).endpoints[0]? = some before ∧
      (parse (renderModule (parse tallSource))).endpoints[0]? = some after ∧
      after.name = before.name ∧ after.returnLiteral? ≠ before.returnLiteral? := by
  let before := ((parse tallSource).endpoints[0]?).get (by decide +kernel)
  let after := ((parse (renderModule (parse tallSource))).endpoints[0]?).get (by decide +kernel)
  refine ⟨before, after, by simp [before], by simp [after], by decide +kernel, ?_⟩
  intro same
  have texts : after.returnLiteral?.bind keyText ≠ before.returnLiteral?.bind keyText := by
    decide +kernel
  exact texts (congrArg (·.bind keyText) same)

end Strict

end EndpointPreview.Notation
