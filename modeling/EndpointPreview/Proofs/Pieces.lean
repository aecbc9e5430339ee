import EndpointPreview.Notation.Token
import EndpointPreview.Proofs.Lines

/-!
Pieces of a text, one after another. Each piece is a written form at the front of what
is left, so the pieces of a text can be read off from its front. A piece that is neither
a string nor a comment is the same whatever follows the next white space, closing
parenthesis or comment.
-/

namespace EndpointPreview.Notation

open Text

theorem stringBody_whole (quote : UInt8) (triple : Bool) (text : Bytes) (body : StringBody)
    (found : stringBody? quote triple text = some body) : text = body.raw ++ body.rest := by
  fun_induction stringBody? quote triple text generalizing body with
  | case1 => cases found
  | case2 b ends =>
      cases found
      rfl
  | case3 => cases found
  | case4 b next rest escape ih =>
      obtain ⟨inner, later, rfl⟩ := Option.map_eq_some_iff.mp found
      simp [StringBody.prepend, ih inner later]
  | case5 b next rest _ closes =>
      cases found
      obtain ⟨after, whole⟩ := List.isPrefixOf_iff_prefix.mp closes
      cases triple with
      | false =>
          simp only [closingMark, Bool.false_eq_true, ↓reduceIte, List.cons_append,
            List.nil_append, List.cons.injEq] at whole ⊢
          simp [whole.1]
      | true =>
          simp only [closingMark, ↓reduceIte, List.cons_append, List.nil_append] at whole ⊢
          rw [← whole]
          simp only [List.cons.injEq] at whole
          simp [← whole.2]
  | case6 => cases found
  | case7 b next rest _ _ _ ih =>
      obtain ⟨inner, later, rfl⟩ := Option.map_eq_some_iff.mp found
      simp [StringBody.prepend, ih inner later]

theorem takeWhile_before (inClass : UInt8 → Bool) (text : Bytes) (stop : UInt8) (more : Bytes)
    (stops : inClass stop = false) :
    (text ++ stop :: more).takeWhile inClass = text.takeWhile inClass := by
  rw [List.takeWhile_append]
  split
  · rename_i all
    have whole : text.takeWhile inClass = text := (List.takeWhile_prefix inClass).eq_of_length all
    simp [stops, whole]
  · rfl

theorem space_cases (space : UInt8) (blank : isSpace space = true) :
    space = 32 ∨ space = 9 ∨ space = 10 ∨ space = 11 ∨ space = 12 ∨ space = 13 := by
  simp only [isSpace, Bool.or_eq_true, beq_iff_eq, Bool.and_eq_true, decide_eq_true_eq,
    UInt8.le_iff_toNat_le, ← UInt8.toNat_inj, UInt8.reduceToNat] at blank ⊢
  omega

def endsPiece (b : UInt8) : Bool := isSpace b || b == byte ')' || b == byte '#'

theorem endsPiece_cases (stop : UInt8) (ends : endsPiece stop = true) :
    stop = 32 ∨ stop = 9 ∨ stop = 10 ∨ stop = 11 ∨ stop = 12 ∨ stop = 13 ∨ stop = byte ')' ∨
      stop = byte '#' := by
  simp only [endsPiece, Bool.or_eq_true, beq_iff_eq] at ends
  obtain (space | closes) | comment := ends
  · obtain h | h | h | h | h | h := space_cases stop space <;> simp [h]
  · simp [closes]
  · simp [comment]

/-- The byte that ends a piece is in none of the classes of bytes that go on with one. -/
theorem endsPiece_outside (inClass : UInt8 → Bool)
    (apart : ([32, 9, 10, 11, 12, 13, byte ')', byte '#'].all (!inClass ·)) = true) {stop : UInt8}
    (ends : endsPiece stop = true) : inClass stop = false := by
  have known : stop ∈ [32, 9, 10, 11, 12, 13, byte ')', byte '#'] := by
    simpa using endsPiece_cases stop ends
  simpa using List.all_eq_true.mp apart stop known

theorem endsPiece_space (space : UInt8) (blank : isSpace space = true) :
    endsPiece space = true := by
  simp [endsPiece, blank]

theorem fractionPart_before (text : Bytes) (stop : UInt8) (more : Bytes)
    (ends : endsPiece stop = true) :
    fractionPart (text ++ stop :: more) = fractionPart text := by
  cases text with
  | nil => rcases endsPiece_cases stop ends with rfl | rfl | rfl | rfl | rfl | rfl | rfl | rfl <;> rfl
  | cons b rest => simp [fractionPart, takeWhile_before _ _ _ _ (endsPiece_outside isNumberByte (by decide) ends)]

theorem exponentPart_before (text : Bytes) (stop : UInt8) (more : Bytes)
    (ends : endsPiece stop = true) :
    exponentPart (text ++ stop :: more) = exponentPart text := by
  have digits (rest : Bytes) := takeWhile_before isDigit rest stop more (endsPiece_outside isDigit (by decide) ends)
  cases text with
  | nil => rcases endsPiece_cases stop ends with rfl | rfl | rfl | rfl | rfl | rfl | rfl | rfl <;> rfl
  | cons mark rest =>
      cases rest with
      | nil => rcases endsPiece_cases stop ends with rfl | rfl | rfl | rfl | rfl | rfl | rfl | rfl <;> rfl
      | cons sign rest =>
          have sign_part : ∀ part, (part = [] ∨ part = [sign]) →
              ((sign :: (rest ++ stop :: more)).drop part.length).takeWhile isDigit =
                ((sign :: rest).drop part.length).takeWhile isDigit := by
            rintro part (rfl | rfl)
            · exact digits (sign :: rest)
            · exact digits rest
          unfold exponentPart
          dsimp only [List.cons_append]
          rw [sign_part _ (by split <;> simp)]

theorem fractionPart_front (text : Bytes) : fractionPart text <+: text := by
  cases text with
  | nil => exact List.prefix_rfl
  | cons b rest =>
      unfold fractionPart
      dsimp only
      split
      · exact List.cons_prefix_cons.mpr ⟨rfl, List.takeWhile_prefix _⟩
      · exact List.nil_prefix

theorem exponentPart_front (text : Bytes) : exponentPart text <+: text := by
  cases text with
  | nil => exact List.prefix_rfl
  | cons mark rest =>
      have signed (part : Bytes) (front : part <+: rest) :
          (if ((rest.drop part.length).takeWhile isDigit).isEmpty then []
            else mark :: part ++ (rest.drop part.length).takeWhile isDigit) <+: mark :: rest := by
        obtain ⟨later, rfl⟩ := front
        split
        · exact List.nil_prefix
        · simpa using List.takeWhile_prefix isDigit
      unfold exponentPart
      dsimp only
      split
      · apply signed
        cases rest with
        | nil => exact List.prefix_rfl
        | cons sign rest =>
            dsimp only
            split
            · simp
            · exact List.nil_prefix
      · exact List.nil_prefix

theorem prefix_append_drop (text start more : Bytes) (front : start <+: text)
    (next : more <+: text.drop start.length) : start ++ more <+: text := by
  obtain ⟨rest, rfl⟩ := front
  rw [List.drop_left] at next
  exact (List.prefix_append_right_inj start).mpr next

theorem plainNumber_front (text : Bytes) : plainNumber text <+: text := by
  have whole := List.takeWhile_prefix isNumberByte (l := text)
  have part := prefix_append_drop text _ _ whole (fractionPart_front _)
  refine prefix_append_drop text _ _ part ?_
  rw [List.length_append]
  exact exponentPart_front _

theorem plainNumber_before (text : Bytes) (stop : UInt8) (more : Bytes)
    (ends : endsPiece stop = true) :
    plainNumber (text ++ stop :: more) = plainNumber text := by
  have whole := List.takeWhile_prefix isNumberByte (l := text)
  have part := prefix_append_drop text _ _ whole (fractionPart_front _)
  have part_length := part.length_le
  rw [List.length_append] at part_length
  simp only [plainNumber, takeWhile_before _ _ _ _ (endsPiece_outside isNumberByte (by decide) ends),
    List.drop_append_of_le_length whole.length_le, fractionPart_before _ _ _ ends,
    List.drop_append_of_le_length part_length, exponentPart_before _ _ _ ends]

theorem numberText_before (b : UInt8) (after : Bytes) (stop : UInt8) (more : Bytes)
    (ends : endsPiece stop = true) :
    numberText (b :: after ++ stop :: more) = numberText (b :: after) := by
  have plain := plainNumber_before (b :: after) stop more ends
  cases after with
  | nil =>
      have no_hex : (stop == byte 'x' || stop == byte 'X') = false := by
        rcases endsPiece_cases stop ends with rfl | rfl | rfl | rfl | rfl | rfl | rfl | rfl <;> rfl
      unfold numberText
      dsimp only [List.cons_append, List.nil_append]
      rw [no_hex, Bool.and_false, if_neg (by simp)]
      exact plain
  | cons x rest =>
      have hex : isHexDigit stop = false := by
        rcases endsPiece_cases stop ends with rfl | rfl | rfl | rfl | rfl | rfl | rfl | rfl <;> rfl
      unfold numberText
      dsimp only [List.cons_append]
      rw [takeWhile_before _ _ _ _ hex]
      exact congrArg _ plain

theorem numberText_front (text : Bytes) : numberText text <+: text := by
  unfold numberText
  split
  · split
    · exact List.cons_prefix_cons.mpr ⟨rfl, List.cons_prefix_cons.mpr
        ⟨rfl, List.takeWhile_prefix _⟩⟩
    · exact plainNumber_front _
  · exact plainNumber_front _

theorem numberText_nonempty (b : UInt8) (after : Bytes)
    (starts : startsNumber (b :: after) = true) : numberText (b :: after) ≠ [] := by
  have plain : plainNumber (b :: after) ≠ [] := by
    unfold plainNumber
    simp only [startsNumber, Bool.or_eq_true, Bool.and_eq_true, beq_iff_eq] at starts
    rcases starts with digit | ⟨point, _⟩
    · simp [isNumberByte, digit]
    · subst point
      have no_whole : (byte '.' :: after).takeWhile isNumberByte = [] :=
        List.takeWhile_cons_of_neg (by decide)
      have with_point : fractionPart (byte '.' :: after) =
          byte '.' :: after.takeWhile isNumberByte := rfl
      dsimp only
      rw [no_whole, List.length_nil, List.drop_zero, with_point]
      exact List.cons_ne_nil _ _
  unfold numberText
  split
  · split
    · simp
    · exact plain
  · exact plain

theorem opening_front (quote : UInt8) (after : Bytes) :
    closingMark quote (opensTriple quote after) <+: quote :: after := by
  cases triple : opensTriple quote after with
  | false => simp [closingMark]
  | true =>
      simp only [opensTriple, Bool.and_eq_true] at triple
      simpa [closingMark] using List.isPrefixOf_iff_prefix.mp triple.2

theorem ofString_front (quote : UInt8) (after : Bytes) :
    (Piece.ofString quote after).raw <+: quote :: after := by
  unfold Piece.ofString
  dsimp only
  split
  · rename_i body found
    apply prefix_append_drop _ _ _ (opening_front quote after)
    rw [stringBody_whole _ _ _ _ found]
    exact List.prefix_append _ _
  · exact List.prefix_rfl

theorem ofString_nonempty (quote : UInt8) (after : Bytes) :
    (Piece.ofString quote after).raw ≠ [] := by
  unfold Piece.ofString
  dsimp only
  split
  · have opening : closingMark quote (opensTriple quote after) ≠ [] := by
      unfold closingMark
      split <;> simp
    simp [Piece.raw, opening]
  · exact List.cons_ne_nil _ _

theorem ofMark_front (b : UInt8) (after : Bytes) : (Piece.ofMark b after).raw <+: b :: after := by
  cases after with
  | nil => exact List.prefix_rfl
  | cons next rest =>
      unfold Piece.ofMark
      dsimp only
      split
      · exact List.prefix_append [b, next] rest
      · exact List.prefix_append [b] (next :: rest)

theorem ofMark_nonempty (b : UInt8) (after : Bytes) : (Piece.ofMark b after).raw ≠ [] := by
  cases after with
  | nil => exact List.cons_ne_nil _ _
  | cons next rest =>
      unfold Piece.ofMark
      dsimp only
      split <;> exact List.cons_ne_nil _ _

theorem ofMark_before (b : UInt8) (after : Bytes) (stop : UInt8) (more : Bytes)
    (ends : endsPiece stop = true) :
    Piece.ofMark b (after ++ stop :: more) = Piece.ofMark b after := by
  cases after with
  | nil =>
      have no_pair : pairKind? b stop = none := by
        have no_assign : (stop == byte '=') = false := by
          rcases endsPiece_cases stop ends with rfl | rfl | rfl | rfl | rfl | rfl | rfl | rfl <;> rfl
        have no_star : (stop == byte '*') = false := by
          rcases endsPiece_cases stop ends with rfl | rfl | rfl | rfl | rfl | rfl | rfl | rfl <;> rfl
        unfold pairKind?
        rw [no_assign, no_star, Bool.and_false, Bool.and_false]
        rfl
      unfold Piece.ofMark
      dsimp only [List.nil_append]
      rw [no_pair]
  | cons next rest => rfl

/-- The first piece is a gap, a string, a number, a name or a mark. -/
@[elab_as_elim]
theorem first_cases {motive : Piece → Prop} (b : UInt8) (after : Bytes)
    (space : isSpace b = true → motive (.gap [b]))
    (comment : motive (.gap (b :: after.takeWhile (· != newline))))
    (quote : isQuote b = true → motive (.ofString b after))
    (number : startsNumber (b :: after) = true → motive (.plain .number (numberText (b :: after))))
    (name : isWordStart b = true → motive (.plain .identifier (b :: after.takeWhile isWordByte)))
    (mark : motive (.ofMark b after)) : motive (Piece.first b after) := by
  unfold Piece.first
  split_ifs with is_space is_comment is_quote is_number is_name
  · exact space is_space
  · exact comment
  · exact quote is_quote
  · exact number is_number
  · exact name is_name
  · exact mark

theorem first_front (b : UInt8) (after : Bytes) : (Piece.first b after).raw <+: b :: after := by
  refine first_cases b after (fun _ => ?space) ?comment (fun _ => ?quote) (fun _ => ?number)
    (fun _ => ?name) ?mark
  case space => exact List.prefix_append [b] after
  case comment => exact List.cons_prefix_cons.mpr ⟨rfl, List.takeWhile_prefix _⟩
  case quote => exact ofString_front b after
  case number => exact numberText_front (b :: after)
  case name => exact List.cons_prefix_cons.mpr ⟨rfl, List.takeWhile_prefix _⟩
  case mark => exact ofMark_front b after

theorem first_nonempty (b : UInt8) (after : Bytes) : (Piece.first b after).raw ≠ [] := by
  refine first_cases b after (fun _ => ?space) ?comment (fun _ => ?quote) (fun starts => ?number)
    (fun _ => ?name) ?mark
  case space => exact List.cons_ne_nil _ _
  case comment => exact List.cons_ne_nil _ _
  case quote => exact ofString_nonempty b after
  case number => exact numberText_nonempty b after starts
  case name => exact List.cons_ne_nil _ _
  case mark => exact ofMark_nonempty b after

-- Other pieces than strings and comments end at the latest before such a byte.
theorem first_before (b : UInt8) (after : Bytes) (stop : UInt8) (more : Bytes)
    (ends : endsPiece stop = true) (no_comment : b ≠ byte '#') (no_quote : isQuote b = false) :
    Piece.first b (after ++ stop :: more) = Piece.first b after := by
  have no_comment : ¬ (b == byte '#') = true := by simpa using no_comment
  have same_start : startsNumber (b :: (after ++ stop :: more)) = startsNumber (b :: after) := by
    cases after with
    | nil => simp [startsNumber, endsPiece_outside isDigit (by decide) ends]
    | cons next rest => rfl
  have word : isWordByte stop = false := by
    rcases endsPiece_cases stop ends with rfl | rfl | rfl | rfl | rfl | rfl | rfl | rfl <;> rfl
  unfold Piece.first
  rw [same_start, takeWhile_before _ _ _ _ word, ofMark_before b after stop more ends,
    ← List.cons_append, numberText_before b after stop more ends]
  simp only [no_comment, no_quote, Bool.false_eq_true, ↓reduceIte]

theorem piecesIn_enough (steps more : Nat) (text : Bytes) (fits : text.length ≤ steps)
    (longer : text.length ≤ more) : piecesIn steps text = piecesIn more text := by
  induction steps generalizing more text with
  | zero =>
      have empty : text = [] := by simpa using fits
      subst empty
      cases more <;> rfl
  | succ steps ih =>
      cases text with
      | nil => cases more <;> rfl
      | cons b after =>
          cases more with
          | zero => simp at longer
          | succ more =>
              have progress := List.length_pos_of_ne_nil (first_nonempty b after)
              simp only [List.length_cons] at fits longer
              simp only [piecesIn]
              congr 1
              apply ih
              · simp only [List.length_drop, List.length_cons]
                omega
              · simp only [List.length_drop, List.length_cons]
                omega

theorem pieces_cons (b : UInt8) (after : Bytes) :
    pieces (b :: after) = Piece.first b after ::
      pieces ((b :: after).drop (Piece.first b after).raw.length) := by
  have progress := List.length_pos_of_ne_nil (first_nonempty b after)
  have shorter : ((b :: after).drop (Piece.first b after).raw.length).length ≤ after.length := by
    simp only [List.length_drop, List.length_cons]
    omega
  simp only [pieces, List.length_cons, piecesIn]
  rw [piecesIn_enough _ _ _ shorter (Nat.le_refl _)]

/-- What a piece is read from: its own written form and the rest of the text. -/
theorem first_rest (b : UInt8) (after : Bytes) :
    ∃ rest, b :: after = (Piece.first b after).raw ++ rest ∧
      (b :: after).drop (Piece.first b after).raw.length = rest ∧ rest.length ≤ after.length := by
  obtain ⟨rest, whole⟩ := first_front b after
  have progress := List.length_pos_of_ne_nil (first_nonempty b after)
  have total := congrArg List.length whole
  simp only [List.length_append, List.length_cons] at total
  exact ⟨rest, whole.symm, by rw [← whole, List.drop_left], by omega⟩

end EndpointPreview.Notation
