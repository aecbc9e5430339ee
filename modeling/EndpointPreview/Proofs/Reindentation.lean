import EndpointPreview.Proofs.LiteralReading
import EndpointPreview.Proofs.StringBodies
import Mathlib.Data.List.Forall2

/-!
A text whose rows after the first one are moved in as a module moves them. The pieces of
such a text are those it had before, except that a string over several rows takes the
moves into its content.
-/

namespace EndpointPreview.Notation

open Text

/-- What a row starts with before and after it is moved, and what comes behind that: a
row gets an indentation, and a blank one loses everything. -/
def RowMoved (gap moved after : Bytes) : Prop :=
  (gap = [] ∧ moved = indentation) ∨
    (isBlank gap = true ∧ newline ∉ gap ∧ moved = [] ∧ ∀ b ∈ after.head?, b = newline)

-- The second text is the first one with its rows after line breaks moved.
inductive Reindented : Bytes → Bytes → Prop where
  | done : Reindented [] []
  | byte (b : UInt8) {text again : Bytes} (inside : b ≠ newline)
      (rest : Reindented text again) : Reindented (b :: text) (b :: again)
  | row {gap moved text again : Bytes} (start : RowMoved gap moved text)
      (rest : Reindented text again) :
      Reindented (newline :: (gap ++ text)) (newline :: (moved ++ again))

theorem RowMoved.blank {gap moved after : Bytes} (start : RowMoved gap moved after) :
    (isBlank gap = true ∧ newline ∉ gap) ∧ isBlank moved = true ∧ newline ∉ moved := by
  rcases start with ⟨rfl, rfl⟩ | ⟨blank, one_row, rfl, _⟩
  · decide
  · exact ⟨⟨blank, one_row⟩, by decide⟩

namespace Reindented

variable {text again more last : Bytes}

theorem refl_row (row : Bytes) (one_row : newline ∉ row) : Reindented row row := by
  induction row with
  | nil => exact .done
  | cons b row ih =>
      rw [List.mem_cons, not_or] at one_row
      exact .byte b (Ne.symm one_row.1) (ih one_row.2)

theorem front (start : Bytes) (one_row : newline ∉ start) (moved : Reindented text again) :
    Reindented (start ++ text) (start ++ again) := by
  induction start with
  | nil => exact moved
  | cons b start ih =>
      rw [List.mem_cons, not_or] at one_row
      exact .byte b (Ne.symm one_row.1) (ih one_row.2)

theorem front_inv (start : Bytes) (one_row : newline ∉ start)
    (moved : Reindented (start ++ text) again) :
    ∃ rest, again = start ++ rest ∧ Reindented text rest := by
  induction start generalizing again with
  | nil => exact ⟨again, rfl, moved⟩
  | cons b start ih =>
      rw [List.mem_cons, not_or] at one_row
      generalize whole : b :: start ++ text = all at moved
      cases moved with
      | done => cases whole
      | byte c inside rest =>
          injection whole with same tail
          subst same
          subst tail
          obtain ⟨last, rfl, later⟩ := ih one_row.2 rest
          exact ⟨last, rfl, later⟩
      | row =>
          injection whole with same
          exact absurd same.symm one_row.1

theorem append (moved : Reindented text again) (later : Reindented more last)
    (starts : ∀ b ∈ more.head?, b = newline) : Reindented (text ++ more) (again ++ last) := by
  induction moved with
  | done => exact later
  | byte b inside rest ih => exact .byte b inside ih
  | @row gap moved text again start rest ih =>
      have still : RowMoved gap moved (text ++ more) := by
        rcases start with indented | ⟨blank, one_row, gone, ends⟩
        · exact .inl indented
        · refine .inr ⟨blank, one_row, gone, ?_⟩
          cases text with
          | nil => exact starts
          | cons b text => exact ends
      simpa using Reindented.row still ih

-- The first row, and what follows it in both texts.
theorem first_row (moved : Reindented text again) :
    ∃ row rest later, text = row ++ rest ∧ again = row ++ later ∧ newline ∉ row ∧
      Reindented rest later ∧ (∀ b ∈ rest.head?, b = newline) ∧ ∀ b ∈ later.head?, b = newline := by
  induction moved with
  | done => exact ⟨[], [], [], rfl, rfl, by simp, .done, by simp, by simp⟩
  | byte b inside _ ih =>
      obtain ⟨row, rest, later, rfl, rfl, one_row, moved, stops⟩ := ih
      refine ⟨b :: row, rest, later, rfl, rfl, ?_, moved, stops⟩
      simp [Ne.symm inside, one_row]
  | row start rest ih =>
      exact ⟨[], _, _, rfl, rfl, by simp, .row start rest, by simp, by simp⟩

theorem isPrefixOf_eq (mark : Bytes) (one_row : newline ∉ mark) (moved : Reindented text again) :
    mark.isPrefixOf again = mark.isPrefixOf text := by
  induction moved generalizing mark with
  | done => rfl
  | byte b inside rest ih =>
      cases mark with
      | nil => rfl
      | cons first mark =>
          rw [List.mem_cons, not_or] at one_row
          simp only [List.isPrefixOf, ih mark one_row.2]
  | row =>
      cases mark with
      | nil => rfl
      | cons first mark =>
          rw [List.mem_cons, not_or] at one_row
          have other : (first == newline) = false := by simpa using Ne.symm one_row.1
          simp only [List.isPrefixOf, other, Bool.false_and]

end Reindented

-- A further row, moved.
theorem shiftLine_moved (row : Bytes) (one_row : newline ∉ row) :
    Reindented (newline :: row) (newline :: shiftLine row) := by
  unfold shiftLine
  by_cases blank : isBlank row = true
  · have emptied : RowMoved row [] [] := .inr ⟨blank, one_row, rfl, by simp⟩
    rw [if_pos blank]
    simpa using Reindented.row emptied .done
  · have indented : RowMoved [] indentation row := .inl ⟨rfl, rfl⟩
    rw [if_neg blank]
    exact .row indented (.refl_row row one_row)

-- White space in a string, without a line break, is content.
theorem stringBody_gap (quote : UInt8) (triple : Bool) (gap text : Bytes)
    (mark : isQuote quote = true) (blank : isBlank gap = true) (one_row : newline ∉ gap) :
    stringBody? quote triple (gap ++ text) =
      (stringBody? quote triple text).map (.prepend gap gap) := by
  change Passes quote triple gap gap text
  induction gap with
  | nil => exact .nil text
  | cons space gap ih =>
      rw [isBlank_cons, Bool.and_eq_true] at blank
      rw [List.mem_cons, not_or] at one_row
      have straight : space ≠ backslash := by
        rintro rfl
        exact absurd blank.1 (by decide)
      have inside : ¬ closingMark quote triple <+: space :: (gap ++ text) := by
        obtain ⟨more, parts⟩ := closingMark_cons quote triple
        rw [parts, List.cons_prefix_cons]
        rintro ⟨rfl, _⟩
        rw [(isQuote_other quote mark).2] at blank
        cases blank.1
      have first : Passes quote triple [space] [space] (gap ++ text) :=
        .byte space _ straight inside fun same => absurd same.symm one_row.1
      exact first.append (ih blank.2 one_row.2)

/-- The second content weighs more, as soon as a row outweighs all that stands before it. -/
def Widened (content again : Bytes) : Prop :=
  ∀ base, content.length < base → Heavier base content again

theorem Widened.ne {content again : Bytes} (widened : Widened content again) : content ≠ again := by
  rintro rfl
  exact Nat.lt_irrefl _ (widened _ (Nat.lt_succ_self _)).2

theorem Widened.prepend {content again : Bytes} (start : Bytes) (widened : Widened content again) :
    Widened (start ++ content) (start ++ again) := by
  intro base bound
  rw [List.length_append] at bound
  obtain ⟨breaks, more⟩ := widened base (by omega)
  constructor
  · rw [List.count_append, List.count_append, breaks]
  · rw [rowWeight_append, rowWeight_append]
    have scale : 0 < Nat.pow base (start.count newline) := Nat.pow_pos (by omega)
    exact Nat.add_lt_add_left (Nat.mul_lt_mul_of_pos_left more scale) _

-- An indentation widens a content that was the same or wider already.
theorem Widened.indented {content again : Bytes} (kept : content = again ∨ Widened content again) :
    Widened content (indentation ++ again) := by
  intro base bound
  have no_break : indentation.count newline = 0 := by decide
  have wide : rowWeight base indentation = 4 := rfl
  have no_scale : Nat.pow base 0 = 1 := rfl
  have before : again.count newline = content.count newline ∧
      rowWeight base content ≤ rowWeight base again := by
    rcases kept with rfl | widened
    · exact ⟨rfl, Nat.le_refl _⟩
    · obtain ⟨breaks, more⟩ := widened base bound
      exact ⟨breaks, Nat.le_of_lt more⟩
  constructor
  · rw [List.count_append, no_break, Nat.zero_add, before.1]
  · rw [rowWeight_append, no_break, wide, no_scale, Nat.one_mul]
    omega

-- A blank row that loses its white space is lighter by less than the rows behind it gain.
theorem Widened.emptied {content again : Bytes} (gap : Bytes) (one_row : newline ∉ gap)
    (widened : Widened (newline :: content) (newline :: again)) :
    Widened (gap ++ newline :: content) (newline :: again) := by
  intro base bound
  rw [List.length_append] at bound
  obtain ⟨breaks, more⟩ := widened base (by omega)
  have none_lost : gap.count newline = 0 := List.count_eq_zero.mpr one_row
  have no_scale : Nat.pow base 0 = 1 := rfl
  constructor
  · rw [List.count_append, none_lost, Nat.zero_add, breaks]
  · rw [rowWeight_append, rowWeight_row base gap one_row, none_lost, no_scale, Nat.one_mul]
    have scaled : rowWeight base (newline :: content) = base * rowWeight base content := if_pos rfl
    have scaled_again : rowWeight base (newline :: again) = base * rowWeight base again :=
      if_pos rfl
    rw [scaled, scaled_again] at more ⊢
    have heavier : rowWeight base content + 1 ≤ rowWeight base again :=
      Nat.lt_of_mul_lt_mul_left more
    have gain := Nat.mul_le_mul_left base heavier
    rw [Nat.mul_add, Nat.mul_one] at gain
    omega

structure BodiesAlike (body again : StringBody) : Prop where
  rest : Reindented body.rest again.rest
  same : newline ∉ body.raw → again.content = body.content ∧ again.raw = body.raw
  widened : newline ∈ body.raw → Widened body.content again.content

theorem BodiesAlike.prepend {body again : StringBody} (content raw : Bytes)
    (one_row : newline ∉ raw) (alike : BodiesAlike body again) :
    BodiesAlike (body.prepend content raw) (again.prepend content raw) where
  rest := alike.rest
  same := by
    intro outside
    have inner : newline ∉ body.raw := fun member => outside (List.mem_append_right _ member)
    obtain ⟨same_content, same_raw⟩ := alike.same inner
    exact ⟨congrArg (content ++ ·) same_content, congrArg (raw ++ ·) same_raw⟩
  widened := by
    intro member
    rcases List.mem_append.mp member with first | inner
    · exact absurd first one_row
    · exact (alike.widened inner).prepend content

theorem bodies_prepend {bodies others : Option StringBody} (content raw : Bytes)
    (one_row : newline ∉ raw) (alike : Option.Rel BodiesAlike bodies others) :
    Option.Rel BodiesAlike (bodies.map (.prepend content raw)) (others.map (.prepend content raw)) := by
  cases alike with
  | none => exact .none
  | some alike => exact .some (alike.prepend content raw one_row)

-- A string that goes on with a line break has it in its content.
theorem stringBody_newline (quote : UInt8) (triple : Bool) (text : Bytes) (body : StringBody)
    (mark : isQuote quote = true) (starts : ∀ b ∈ text.head?, b = newline)
    (found : stringBody? quote triple text = some body) :
    (∃ content, body.content = newline :: content) ∧ newline ∈ body.raw := by
  cases text with
  | nil => cases found
  | cons b text =>
      obtain rfl := starts b rfl
      have inside : (closingMark quote triple).isPrefixOf (newline :: text) = false := by
        obtain ⟨more, parts⟩ := closingMark_cons quote triple
        have different : (quote == newline) = false := by
          rw [beq_eq_false_iff_ne]
          rintro rfl
          exact absurd mark (by decide)
        rw [parts]
        simp only [List.isPrefixOf, different, Bool.false_and]
      rw [stringBody_cons _ _ _ _ (by decide), inside] at found
      simp only [Bool.false_eq_true, ↓reduceIte] at found
      split at found
      · cases found
      · obtain ⟨inner, _, rfl⟩ := Option.map_eq_some_iff.mp found
        exact ⟨⟨inner.content, rfl⟩, List.mem_append_left _ (List.mem_singleton_self _)⟩

-- Over a line break, with the row behind it moved.
theorem bodies_row (quote : UInt8) (triple : Bool) (gap moved text again content raw : Bytes)
    (mark : isQuote quote = true) (start : RowMoved gap moved text) (break_inside : newline ∈ raw)
    (rest : Reindented text again)
    (alike : Option.Rel BodiesAlike (stringBody? quote triple text) (stringBody? quote triple again)) :
    Option.Rel BodiesAlike
      ((stringBody? quote triple (gap ++ text)).map (.prepend content raw))
      ((stringBody? quote triple (moved ++ again)).map (.prepend content raw)) := by
  obtain ⟨⟨gap_blank, gap_row⟩, moved_blank, moved_row⟩ := start.blank
  rw [stringBody_gap _ _ _ _ mark gap_blank gap_row, stringBody_gap _ _ _ _ mark moved_blank moved_row]
  generalize found : stringBody? quote triple text = bodies at alike
  generalize found_again : stringBody? quote triple again = others at alike
  cases alike with
  | none => exact .none
  | @some body other alike =>
      have wider : Widened (gap ++ body.content) (moved ++ other.content) := by
        rcases start with ⟨rfl, rfl⟩ | ⟨_, _, rfl, ends⟩
        · apply Widened.indented
          by_cases one_row : newline ∈ body.raw
          · exact .inr (alike.widened one_row)
          · exact .inl (alike.same one_row).1.symm
        · have ends_again : ∀ b ∈ again.head?, b = newline := by
            cases rest with
            | done => exact ends
            | byte b inside => exact absurd (ends b rfl) inside
            | row => simp
          obtain ⟨⟨c, content_break⟩, crosses⟩ := stringBody_newline _ _ _ _ mark ends found
          obtain ⟨⟨o, other_break⟩, _⟩ := stringBody_newline _ _ _ _ mark ends_again found_again
          have wider := alike.widened crosses
          rw [content_break, other_break] at wider ⊢
          exact Widened.emptied gap gap_row wider
      refine .some ⟨alike.rest, ?_, ?_⟩
      · intro outside
        exact absurd (List.mem_append_left _ break_inside) outside
      · intro _
        exact wider.prepend content

theorem stringBody_reindented (quote : UInt8) (triple : Bool) (text again : Bytes)
    (mark : isQuote quote = true) (moved : Reindented text again) :
    Option.Rel BodiesAlike (stringBody? quote triple text) (stringBody? quote triple again) := by
  obtain ⟨straight, solid⟩ := isQuote_other quote mark
  have one_row : newline ∉ closingMark quote triple := by
    intro member
    rw [← mem_closingMark _ _ _ member] at solid
    exact absurd solid (by decide)
  -- An escape takes two bytes at once, so the induction is on the length.
  induction measure : text.length using Nat.strong_induction_on generalizing text again with
  | _ size ih =>
      -- A closing mark stands on one row, so it closes both texts or none.
      have mark_again := moved.isPrefixOf_eq (closingMark quote triple) one_row
      cases moved with
      | done => exact .none
      | @byte b text again inside rest =>
          by_cases escape : b = backslash
          · subst escape
            cases rest with
            | done =>
                have single : stringBody? quote triple [backslash] = none := by
                  simp [stringBody?, Ne.symm straight]
                rw [single]
                exact .none
            | @byte next text again same_row rest =>
                have alike := ih text.length (by simp only [List.length_cons] at measure; omega) _ _ rest rfl
                have two : newline ∉ [backslash, next] := by
                  simpa [Ne.symm same_row] using (by decide : newline ≠ backslash)
                rw [stringBody_escape, stringBody_escape]
                exact bodies_prepend _ _ two alike
            | @row gap moved text again start rest =>
                have shorter : text.length < size := by
                  simp only [List.length_cons, List.length_append] at measure
                  omega
                have alike := ih text.length shorter _ _ rest rfl
                rw [stringBody_escape, stringBody_escape]
                exact bodies_row _ _ _ _ _ _ _ _ mark start (by simp) rest alike
          · rw [stringBody_cons _ _ _ _ escape, stringBody_cons _ _ _ _ escape, mark_again]
            by_cases closes : (closingMark quote triple).isPrefixOf (b :: text) = true
            · rw [if_pos closes, if_pos closes]
              obtain ⟨after, whole⟩ := List.isPrefixOf_iff_prefix.mp closes
              have whole_moved : Reindented (closingMark quote triple ++ after) (b :: again) := by
                rw [whole]
                exact .byte b inside rest
              obtain ⟨after_again, whole_again, ends⟩ := Reindented.front_inv _ one_row whole_moved
              refine .some ⟨?_, fun _ => ⟨rfl, rfl⟩, fun member => absurd member one_row⟩
              rw [← whole, whole_again]
              simpa using ends
            · rw [if_neg closes, if_neg closes]
              have same_row : (b == newline && !triple) = false := by simp [inside]
              have alike := ih text.length (by simp only [List.length_cons] at measure; omega) _ _ rest rfl
              rw [same_row]
              exact bodies_prepend [b] [b] (by simpa using Ne.symm inside) alike
      | @row gap moved text again start rest =>
          have no_escape : newline ≠ backslash := by decide
          have inside : (closingMark quote triple).isPrefixOf (newline :: (gap ++ text)) = false := by
            by_contra closes
            rw [Bool.not_eq_false, List.isPrefixOf_iff_prefix] at closes
            obtain ⟨more, parts⟩ := closingMark_cons quote triple
            rw [parts, List.cons_prefix_cons] at closes
            rw [closes.1] at solid
            exact absurd solid (by decide)
          rw [stringBody_cons _ _ _ _ no_escape, stringBody_cons _ _ _ _ no_escape, mark_again, inside]
          cases triple with
          | false => exact .none
          | true =>
              have shorter : text.length < size := by
                simp only [List.length_cons, List.length_append] at measure
                omega
              have alike := ih text.length shorter _ _ rest rfl
              exact bodies_row _ _ _ _ _ _ _ _ mark start (List.mem_singleton_self _) rest alike

inductive PiecesAlike : Piece → Piece → Prop where
  | same (piece : Piece) (stays : piece.staysInRow = true) : PiecesAlike piece piece
  | widened {content raw again moved : Bytes} (crosses : newline ∈ raw)
      (wider : Widened content again) :
      PiecesAlike (.lexeme .string content raw) (.lexeme .string again moved)

theorem ofString_reindented (quote : UInt8) (after again : Bytes) (mark : isQuote quote = true)
    (moved : Reindented after again) :
    (Piece.ofString quote again).isInvalid = (Piece.ofString quote after).isInvalid ∧
      ((Piece.ofString quote after).isInvalid = false →
        PiecesAlike (Piece.ofString quote after) (Piece.ofString quote again) ∧
          Reindented ((quote :: after).drop (Piece.ofString quote after).raw.length)
            ((quote :: again).drop (Piece.ofString quote again).raw.length)) := by
  have solid : quote ≠ newline := by
    rintro rfl
    exact absurd mark (by decide)
  have same_opening : opensTriple quote again = opensTriple quote after := by
    have two : newline ∉ [quote, quote] := by simpa using Ne.symm solid
    unfold opensTriple
    rw [moved.isPrefixOf_eq _ two]
  have one_row : newline ∉ closingMark quote (opensTriple quote after) := by
    intro member
    exact solid (mem_closingMark _ _ _ member).symm
  obtain ⟨inner, whole⟩ := opening_front quote after
  have opened : Reindented (closingMark quote (opensTriple quote after) ++ inner)
      (quote :: again) := by
    rw [whole]
    exact .byte quote solid moved
  obtain ⟨inner_again, whole_again, inner_moved⟩ := Reindented.front_inv _ one_row opened
  have alike := stringBody_reindented quote (opensTriple quote after) _ _ mark inner_moved
  unfold Piece.ofString
  dsimp only
  rw [same_opening, whole_again, ← whole, List.drop_left, List.drop_left]
  generalize found : stringBody? quote (opensTriple quote after) inner = bodies at alike
  generalize found_again : stringBody? quote (opensTriple quote after) inner_again = others at alike
  cases alike with
  | none => exact ⟨rfl, fun closed => by cases closed⟩
  | @some body other alike =>
      refine ⟨rfl, fun _ => ⟨?_, ?_⟩⟩
      · by_cases crosses : newline ∈ body.raw
        · exact .widened (List.mem_append_right _ crosses) (alike.widened crosses)
        · obtain ⟨same_content, same_raw⟩ := alike.same crosses
          dsimp only
          rw [same_content, same_raw]
          apply PiecesAlike.same
          simp [Piece.staysInRow, one_row, crosses]
      · have parts := stringBody_whole _ _ _ _ found
        have parts_again := stringBody_whole _ _ _ _ found_again
        simp only [Piece.raw]
        rw [parts, parts_again, ← List.append_assoc, ← List.append_assoc, List.drop_left,
          List.drop_left]
        exact alike.rest

-- The piece at the front, unless it is a comment, and the texts behind it.
theorem first_reindented (b : UInt8) (after again : Bytes) (inside : b ≠ newline)
    (no_comment : b ≠ byte '#') (moved : Reindented after again) :
    (Piece.first b again).isInvalid = (Piece.first b after).isInvalid ∧
      ((Piece.first b after).isInvalid = false →
        PiecesAlike (Piece.first b after) (Piece.first b again) ∧
          Reindented ((b :: after).drop (Piece.first b after).raw.length)
            ((b :: again).drop (Piece.first b again).raw.length)) := by
  by_cases mark : isQuote b = true
  · rw [first_quote b after mark, first_quote b again mark]
    exact ofString_reindented b after again mark moved
  · have no_quote : isQuote b = false := by simpa using mark
    obtain ⟨row, rest, later, rfl, rfl, one_row, rest_moved, starts, starts_again⟩ := moved.first_row
    have same (text : Bytes) (ends : ∀ c ∈ text.head?, c = newline) :
        Piece.first b (row ++ text) = Piece.first b row := by
      cases text with
      | nil => rw [List.append_nil]
      | cons c text =>
          obtain rfl := ends c rfl
          exact first_before b row newline text (by decide) no_comment no_quote
    rw [same rest starts, same later starts_again]
    obtain ⟨left, whole⟩ := first_front b row
    have whole_row : newline ∉ (Piece.first b row).raw ++ left := by
      rw [whole, List.mem_cons, not_or]
      exact ⟨Ne.symm inside, one_row⟩
    rw [List.mem_append, not_or] at whole_row
    obtain ⟨raw_row, left_row⟩ := whole_row
    have stays : (Piece.first b row).staysInRow = true := by
      unfold Piece.staysInRow
      split
      · rename_i piece
        rw [piece] at raw_row
        simpa [Piece.raw] using raw_row
      · rfl
    refine ⟨rfl, fun _ => ⟨.same _ stays, ?_⟩⟩
    rw [← List.cons_append, ← List.cons_append, ← whole, List.append_assoc, List.append_assoc,
      List.drop_left, List.drop_left]
    exact Reindented.front left left_row rest_moved

theorem piece_words {base : Nat} {piece again : Piece} (alike : PiecesAlike piece again)
    (bound : ∀ word ∈ piece.word?, word.2.length < base) :
    List.Forall₂ (WordMoved base) piece.word?.toList again.word?.toList := by
  cases alike with
  | same =>
      cases piece.word? with
      | none => exact .nil
      | some word => exact .cons (.inl rfl) .nil
  | widened _ wider => exact .cons (.inr ⟨rfl, rfl, wider base (bound _ rfl)⟩) .nil

theorem piece_same {piece again : Piece} (alike : PiecesAlike piece again)
    (later later_again : List Word) :
    again.word?.toList ++ later_again = piece.word?.toList ++ later ↔
      piece.staysInRow = true ∧ later_again = later := by
  cases alike with
  | same _ stays => simp [stays]
  | widened crosses wider =>
      have leaves := Ne.symm wider.ne
      simp [Piece.word?, Piece.staysInRow, crosses, leaves]

structure WordsMoved (text again : Bytes) : Prop where
  closed : stringsClosed again = stringsClosed text
  heavier : stringsClosed text = true → ∀ base, (∀ word ∈ words text, word.2.length < base) →
    List.Forall₂ (WordMoved base) (words text) (words again)
  same : stringsClosed text = true → (words again = words text ↔ stringsInRow text = true)

theorem WordsMoved.gap {text again : Bytes} (gap gap_again : Bytes) (blank : isBlank gap = true)
    (blank_again : isBlank gap_again = true) (moved : WordsMoved text again) :
    WordsMoved (gap ++ text) (gap_again ++ again) := by
  obtain ⟨own_words, own_closed, own_rows⟩ := words_gap gap text blank
  obtain ⟨other_words, other_closed, _⟩ := words_gap gap_again again blank_again
  constructor
  · rw [own_closed, other_closed]
    exact moved.closed
  · rw [own_closed, own_words, other_words]
    exact moved.heavier
  · rw [own_closed, own_words, other_words, own_rows]
    exact moved.same

-- A comment ends with its row, which is the same in both texts.
theorem WordsMoved.comment {text again : Bytes} (row : Bytes) (one_row : newline ∉ row)
    (starts : ∀ b ∈ text.head?, b = newline) (starts_again : ∀ b ∈ again.head?, b = newline)
    (moved : WordsMoved text again) :
    WordsMoved (byte '#' :: (row ++ text)) (byte '#' :: (row ++ again)) := by
  obtain ⟨own_words, own_closed, own_rows⟩ := words_comment (row ++ text)
  obtain ⟨other_words, other_closed, _⟩ := words_comment (row ++ again)
  rw [dropWhile_row row text one_row starts] at own_words own_closed own_rows
  rw [dropWhile_row row again one_row starts_again] at other_words other_closed
  constructor
  · rw [own_closed, other_closed]
    exact moved.closed
  · rw [own_closed, own_words, other_words]
    exact moved.heavier
  · rw [own_closed, own_words, other_words, own_rows]
    exact moved.same

-- A piece before texts whose words are known.
theorem WordsMoved.piece (b : UInt8) (after again left left_again : Bytes)
    (valid : (Piece.first b after).isInvalid = false)
    (valid_again : (Piece.first b again).isInvalid = false)
    (alike : PiecesAlike (Piece.first b after) (Piece.first b again))
    (rest : (b :: after).drop (Piece.first b after).raw.length = left)
    (rest_again : (b :: again).drop (Piece.first b again).raw.length = left_again)
    (moved : WordsMoved left left_again) : WordsMoved (b :: after) (b :: again) := by
  constructor
  · rw [stringsClosed_cons, stringsClosed_cons, valid, valid_again, rest, rest_again, moved.closed]
  · rw [stringsClosed_cons, valid, rest, words_cons, words_cons, rest, rest_again]
    intro left_closed base bound
    have front := piece_words alike fun word member =>
      bound word (List.mem_append_left _ (Option.mem_toList.mpr member))
    exact List.rel_append front (moved.heavier left_closed base fun word member =>
      bound word (List.mem_append_right _ member))
  · rw [stringsClosed_cons, valid, rest, words_cons, words_cons, stringsInRow_cons, rest, rest_again]
    intro left_closed
    rw [piece_same alike, moved.same left_closed, Bool.and_eq_true]

/-- Moving the rows of a text leaves its words, except for the content of strings over
several rows, which it always changes. -/
theorem words_reindented (text again : Bytes) (moved : Reindented text again) :
    WordsMoved text again := by
  induction measure : text.length using Nat.strong_induction_on generalizing text again with
  | _ size ih =>
      cases moved with
      | done => exact ⟨rfl, fun _ _ _ => .nil, fun _ => ⟨fun _ => rfl, fun _ => rfl⟩⟩
      | @byte b after again inside rest =>
          by_cases comment : b = byte '#'
          · subst comment
            -- A comment goes to the end of its row, which is the same in both texts.
            obtain ⟨row, tail, later, rfl, rfl, one_row, tail_moved, starts, starts_again⟩ :=
              rest.first_row
            have shorter : tail.length < size := by
              simp only [List.length_cons, List.length_append] at measure
              omega
            have inner := ih tail.length shorter _ _ tail_moved rfl
            exact inner.comment row one_row starts starts_again
          · obtain ⟨same_open, alike⟩ := first_reindented b after again inside comment rest
            by_cases invalid : (Piece.first b after).isInvalid = true
            · have open_string : stringsClosed (b :: after) = false := by
                rw [stringsClosed_cons, invalid]
                rfl
              have open_again : stringsClosed (b :: again) = false := by
                rw [stringsClosed_cons, same_open, invalid]
                rfl
              rw [Bool.eq_false_iff] at open_string
              exact ⟨open_again.trans (Bool.eq_false_iff.mpr open_string).symm,
                fun closed => absurd closed open_string, fun closed => absurd closed open_string⟩
            · have valid : (Piece.first b after).isInvalid = false := by simpa using invalid
              obtain ⟨piece_alike, left_moved⟩ := alike valid
              obtain ⟨left, whole, dropped, shorter⟩ := first_rest b after
              have fits : left.length < size := by
                simp only [List.length_cons] at measure
                omega
              rw [dropped] at left_moved
              have inner := ih left.length fits _ _ left_moved rfl
              exact .piece b after again left _ valid (same_open.trans valid) piece_alike dropped rfl
                inner
      | @row gap gap_again after again start rest =>
          obtain ⟨⟨gap_blank, _⟩, again_blank, _⟩ := start.blank
          have shorter : after.length < size := by
            simp only [List.length_cons, List.length_append] at measure
            omega
          have inner := ih after.length shorter _ _ rest rfl
          refine inner.gap (newline :: gap) (newline :: gap_again) ?_ ?_
          · rw [isBlank_cons, gap_blank]
            rfl
          · rw [isBlank_cons, again_blank]
            rfl

def wordBound : List Word → Nat
  | [] => 1
  | word :: rest => word.2.length + wordBound rest

theorem wordBound_positive (own : List Word) : 0 < wordBound own := by
  induction own with
  | nil => exact Nat.one_pos
  | cons word rest ih => exact Nat.add_pos_right _ ih

theorem lt_wordBound (own : List Word) (word : Word) (member : word ∈ own) :
    word.2.length < wordBound own := by
  induction own with
  | nil => cases member
  | cons first rest ih =>
      rw [wordBound]
      rcases List.mem_cons.mp member with rfl | later
      · exact Nat.lt_add_of_pos_right (wordBound_positive rest)
      · exact Nat.lt_add_left _ (ih later)

theorem WordsMoved.text {text again : Bytes} (moved : WordsMoved text again) :
    TextMoved (wordBound (words text)) text again :=
  ⟨moved.closed, fun closed => moved.heavier closed _ (lt_wordBound (words text))⟩

end EndpointPreview.Notation
