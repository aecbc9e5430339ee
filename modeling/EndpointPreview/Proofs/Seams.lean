import EndpointPreview.Proofs.LiteralReading
import EndpointPreview.Proofs.StringBodies

/-!
Texts put together. Where the first text leaves no string open and the second one starts with a
byte that ends a piece, the words of both stand one after the other, except that a comment at the
end of the first text goes on to the end of its row. White space at the end of a text changes
neither its words nor whether a string is open.
-/

namespace EndpointPreview.Notation

open Text

-- What may follow the text: nothing, or a byte that ends a piece.
def EndsPiece (more : Bytes) : Prop := ∀ b ∈ more.head?, endsPiece b = true

theorem EndsPiece.behind_gap {gap more : Bytes} (stop : EndsPiece more)
    (blank : isBlank gap = true) : EndsPiece (gap ++ more) := by
  cases gap with
  | nil => exact stop
  | cons space gap =>
      rintro b ⟨⟩
      exact endsPiece_space space ((isBlank_iff _).mp blank space List.mem_cons_self)

theorem EndsPiece.of_blank {gap : Bytes} (blank : isBlank gap = true) : EndsPiece gap := by
  have nothing : EndsPiece [] := by rintro b ⟨⟩
  have alone := nothing.behind_gap blank
  rwa [List.append_nil] at alone

theorem EndsPiece.of_break {more : Bytes} (starts : ∀ b ∈ more.head?, b = newline) :
    EndsPiece more := by
  intro b head
  rw [starts b head]
  rfl

/-- A row of quotes does not go on behind such a seam. -/
theorem EndsPiece.prefix_before {marks text more : Bytes} (stop : EndsPiece more) {quote : UInt8}
    (mark : isQuote quote = true) (all : ∀ b ∈ marks, b = quote) (front : marks <+: text ++ more) :
    marks <+: text := by
  refine prefix_inside (fun b head member => ?_) front
  have apart := endsPiece_outside isQuote (by decide) (stop b head)
  rw [all b member, mark] at apart
  cases apart

theorem stringBody_ends (quote : UInt8) (triple : Bool) (text : Bytes) (body : StringBody)
    (found : stringBody? quote triple text = some body) :
    closingMark quote triple <:+ body.raw := by
  fun_induction stringBody? quote triple text generalizing body with
  | case1 => cases found
  | case2 b ends =>
      cases found
      simp only [Bool.and_eq_true, Bool.not_eq_true', beq_iff_eq] at ends
      rw [ends.1, ends.2]
      exact List.suffix_refl _
  | case3 => cases found
  | case4 b next rest escape ih =>
      obtain ⟨inner, later, rfl⟩ := Option.map_eq_some_iff.mp found
      exact (ih inner later).trans (List.suffix_append _ _)
  | case5 b next rest _ closes =>
      cases found
      exact List.suffix_refl _
  | case6 => cases found
  | case7 b next rest _ _ _ ih =>
      obtain ⟨inner, later, rfl⟩ := Option.map_eq_some_iff.mp found
      exact (ih inner later).trans (List.suffix_append _ _)

/-- A closed string has room for its closing mark. -/
theorem stringBody_room (quote : UInt8) (triple : Bool) (text : Bytes) (body : StringBody)
    (found : stringBody? quote triple text = some body) :
    (closingMark quote triple).length ≤ text.length := by
  have ends := (stringBody_ends quote triple text body found).length_le
  rw [stringBody_whole quote triple text body found, List.length_append]
  exact Nat.le_add_right_of_le ends

theorem stringBody_alone (quote b : UInt8) (triple : Bool) (mark : isQuote quote = true)
    (escape : b = backslash) : stringBody? quote triple [b] = none := by
  have other : b ≠ quote := escape ▸ (isQuote_other quote mark).1.symm
  simp [stringBody?, other]

-- A string that is closed stays as it is.
theorem stringBody_before (quote : UInt8) (triple : Bool) (text more : Bytes) (body : StringBody)
    (mark : isQuote quote = true) (found : stringBody? quote triple text = some body) :
    stringBody? quote triple (text ++ more) = some { body with rest := body.rest ++ more } := by
  induction measure : text.length using Nat.strong_induction_on generalizing text body with
  | _ size ih =>
      cases text with
      | nil => cases found
      | cons b rest =>
          have room := stringBody_room quote triple _ body found
          rw [List.length_cons] at measure
          by_cases escape : b = backslash
          · cases rest with
            | nil =>
                rw [stringBody_alone quote b triple mark escape] at found
                cases found
            | cons next rest =>
                subst escape
                rw [stringBody_escape] at found
                obtain ⟨inner, later, rfl⟩ := Option.map_eq_some_iff.mp found
                rw [List.length_cons] at measure
                have whole := ih rest.length (by omega) rest inner later rfl
                rw [List.cons_append, List.cons_append, stringBody_escape, whole]
                rfl
          · rw [stringBody_cons _ _ _ _ escape] at found
            rw [List.cons_append, stringBody_cons _ _ _ _ escape, ← List.cons_append]
            by_cases closes : (closingMark quote triple).isPrefixOf (b :: rest) = true
            · rw [if_pos closes] at found
              cases found
              have closes_again : (closingMark quote triple).isPrefixOf (b :: rest ++ more) = true :=
                List.isPrefixOf_iff_prefix.mpr
                  ((List.isPrefixOf_iff_prefix.mp closes).trans (List.prefix_append _ _))
              rw [if_pos closes_again, List.drop_append_of_le_length room]
            · have inside : ¬ (closingMark quote triple).isPrefixOf (b :: rest ++ more) = true := by
                rw [List.isPrefixOf_iff_prefix] at closes ⊢
                exact fun front => closes
                  (List.prefix_of_prefix_length_le front (List.prefix_append _ _) room)
              rw [if_neg closes] at found
              rw [if_neg inside]
              by_cases breaks : (b == newline && !triple) = true
              · rw [if_pos breaks] at found
                cases found
              · rw [if_neg breaks] at found ⊢
                obtain ⟨inner, later, rfl⟩ := Option.map_eq_some_iff.mp found
                rw [ih rest.length (by omega) rest inner later rfl]
                rfl

-- No white space closes a string.
theorem stringBody_blank (quote : UInt8) (triple : Bool) (gap : Bytes)
    (mark : isQuote quote = true) (blank : isBlank gap = true) :
    stringBody? quote triple gap = none := by
  induction gap with
  | nil => rfl
  | cons space gap ih =>
      have straight : space ≠ backslash := by
        rintro rfl
        cases blank
      have inside : ¬ (closingMark quote triple).isPrefixOf (space :: gap) = true := by
        rw [List.isPrefixOf_iff_prefix]
        intro front
        have none_there : closingMark quote triple <+: [] :=
          (EndsPiece.of_blank blank).prefix_before mark (mem_closingMark quote · triple) front
        obtain ⟨more, parts⟩ := closingMark_cons quote triple
        rw [parts] at none_there
        cases List.prefix_nil.mp none_there
      rw [isBlank_cons, Bool.and_eq_true] at blank
      rw [stringBody_cons _ _ _ _ straight, if_neg inside, ih blank.2]
      exact ite_self none

theorem stringBody_open (quote : UInt8) (triple : Bool) (text gap : Bytes)
    (mark : isQuote quote = true) (blank : isBlank gap = true)
    (left : stringBody? quote triple text = none) :
    stringBody? quote triple (text ++ gap) = none := by
  induction measure : text.length using Nat.strong_induction_on generalizing text with
  | _ size ih =>
      cases text with
      | nil => exact stringBody_blank quote triple gap mark blank
      | cons b rest =>
          rw [List.length_cons] at measure
          by_cases escape : b = backslash
          · subst escape
            cases rest with
            | nil =>
                cases gap with
                | nil => exact left
                | cons space gap =>
                    rw [isBlank_cons, Bool.and_eq_true] at blank
                    rw [List.singleton_append, stringBody_escape,
                      stringBody_blank quote triple gap mark blank.2]
                    rfl
            | cons next rest =>
                rw [stringBody_escape, Option.map_eq_none_iff] at left
                rw [List.length_cons] at measure
                rw [List.cons_append, List.cons_append, stringBody_escape,
                  ih rest.length (by omega) rest left rfl]
                rfl
          · rw [stringBody_cons _ _ _ _ escape] at left
            rw [List.cons_append, stringBody_cons _ _ _ _ escape, ← List.cons_append]
            by_cases closes : (closingMark quote triple).isPrefixOf (b :: rest) = true
            · rw [if_pos closes] at left
              cases left
            · have inside : ¬ (closingMark quote triple).isPrefixOf (b :: rest ++ gap) = true := by
                rw [List.isPrefixOf_iff_prefix] at closes ⊢
                exact fun front => closes ((EndsPiece.of_blank blank).prefix_before mark
                  (mem_closingMark quote · triple) front)
              rw [if_neg closes] at left
              rw [if_neg inside]
              by_cases breaks : (b == newline && !triple) = true
              · rw [if_pos breaks]
              · rw [if_neg breaks, Option.map_eq_none_iff] at left
                rw [if_neg breaks, ih rest.length (by omega) rest left rfl]
                rfl

theorem opensTriple_before (quote : UInt8) (after more : Bytes) (mark : isQuote quote = true)
    (stop : EndsPiece more) : opensTriple quote (after ++ more) = opensTriple quote after := by
  unfold opensTriple
  congr 1
  rw [Bool.eq_iff_iff, List.isPrefixOf_iff_prefix, List.isPrefixOf_iff_prefix]
  exact ⟨stop.prefix_before mark (by simp), fun front => front.trans (List.prefix_append _ _)⟩

theorem ofString_before (quote : UInt8) (after more : Bytes) (mark : isQuote quote = true)
    (stop : EndsPiece more) (valid : (Piece.ofString quote after).isInvalid = false) :
    Piece.ofString quote (after ++ more) = Piece.ofString quote after := by
  have opening := opening_front quote after
  unfold Piece.ofString at valid ⊢
  dsimp only at valid ⊢
  rw [opensTriple_before quote after more mark stop, ← List.cons_append,
    List.drop_append_of_le_length opening.length_le]
  cases found : stringBody? quote (opensTriple quote after)
      ((quote :: after).drop (closingMark quote (opensTriple quote after)).length) with
  | none =>
      rw [found] at valid
      cases valid
  | some body => rw [stringBody_before _ _ _ more body mark found]

-- White space behind a string closes it no more than it was.
theorem ofString_gap (quote : UInt8) (after gap : Bytes) (mark : isQuote quote = true)
    (blank : isBlank gap = true) (left : (Piece.ofString quote after).isInvalid = true) :
    (Piece.ofString quote (after ++ gap)).isInvalid = true := by
  have opening := opening_front quote after
  unfold Piece.ofString at left ⊢
  dsimp only at left ⊢
  rw [opensTriple_before quote after gap mark (.of_blank blank), ← List.cons_append,
    List.drop_append_of_le_length opening.length_le]
  cases found : stringBody? quote (opensTriple quote after)
      ((quote :: after).drop (closingMark quote (opensTriple quote after)).length) with
  | none => rw [stringBody_open _ _ _ gap mark blank found]; rfl
  | some body =>
      rw [found] at left
      cases left

/-- A piece that is neither a comment nor an open string is the same before more text. -/
theorem first_kept (b : UInt8) (after more : Bytes) (stop : EndsPiece more)
    (no_comment : b ≠ byte '#') (valid : (Piece.first b after).isInvalid = false) :
    Piece.first b (after ++ more) = Piece.first b after := by
  by_cases mark : isQuote b = true
  · rw [first_quote b _ mark] at valid ⊢
    rw [first_quote b _ mark]
    exact ofString_before b after more mark stop valid
  · cases more with
    | nil => rw [List.append_nil]
    | cons last more =>
        have no_quote : isQuote b = false := by simpa using mark
        exact first_before b after last more (stop last rfl) no_comment no_quote

def Piece.isComment : Piece → Bool
  | gap raw => raw.head? == some (byte '#')
  | lexeme _ _ _ => false

def endsInComment (text : Bytes) : Bool := (pieces text).getLast?.any Piece.isComment

def behind (text more : Bytes) : Bytes :=
  if endsInComment text then more.dropWhile (· != newline) else more

theorem isComment_first (b : UInt8) (after : Bytes) :
    (Piece.first b after).isComment = (b == byte '#') := by
  by_cases comment : b = byte '#'
  · subst comment
    rfl
  · have no_comment : (b == byte '#') = false := by simpa using comment
    have no_gap : ∀ quote after, (Piece.ofString quote after).isComment = false := by
      intro quote after
      unfold Piece.ofString
      dsimp only
      split <;> rfl
    have no_mark : ∀ b after, (Piece.ofMark b after).isComment = false := by
      intro b after
      unfold Piece.ofMark
      split
      · split <;> rfl
      · rfl
    unfold Piece.first
    split_ifs
    · simp [Piece.isComment]
    · simp_all
    · rw [no_gap, no_comment]
    · exact no_comment.symm
    · exact no_comment.symm
    · rw [no_mark, no_comment]

/-- Only a string can be left open. -/
theorem isInvalid_first (b : UInt8) (after : Bytes)
    (left : (Piece.first b after).isInvalid = true) : isQuote b = true := by
  by_contra no_quote
  unfold Piece.first at left
  split_ifs at left
  · cases left
  · cases left
  · cases left
  · cases left
  · have known := ofMark_kind b after
    cases piece : Piece.ofMark b after with
    | gap raw => rw [piece] at left; cases left
    | lexeme kind text raw =>
        rw [piece] at left known
        have other := (known (kind, text) rfl).2.1
        cases kind <;> first | exact other rfl | cases left

theorem endsInComment_cons (b : UInt8) (after rest : Bytes)
    (dropped : (b :: after).drop (Piece.first b after).raw.length = rest) :
    endsInComment (b :: after) = if rest = [] then b == byte '#' else endsInComment rest := by
  unfold endsInComment
  rw [pieces_cons, dropped]
  cases rest with
  | nil => simp [pieces, piecesIn, isComment_first]
  | cons c rest => rw [pieces_cons, List.getLast?_cons_cons, if_neg (List.cons_ne_nil _ _)]

theorem endsInComment_past (b : UInt8) (after rest : Bytes) (no_comment : b ≠ byte '#')
    (dropped : (b :: after).drop (Piece.first b after).raw.length = rest) :
    endsInComment (b :: after) = endsInComment rest := by
  rw [endsInComment_cons b after rest dropped]
  have mark : (b == byte '#') = false := by simpa using no_comment
  split
  next empty =>
    rw [empty, mark]
    rfl
  next => rfl

theorem endsInComment_row (row rest : Bytes) (one_row : newline ∉ row)
    (starts : ∀ b ∈ rest.head?, b = newline) :
    endsInComment (byte '#' :: (row ++ rest)) = if rest = [] then true else endsInComment rest := by
  apply endsInComment_cons
  have comment : (Piece.first (byte '#') (row ++ rest)).raw =
      byte '#' :: (row ++ rest).takeWhile (· != newline) := rfl
  rw [comment, List.length_cons, List.drop_succ_cons, drop_takeWhile,
    dropWhile_row row rest one_row starts]

/-- A text is read piece by piece: a comment to the end of its row, or another piece. -/
@[elab_as_elim]
theorem by_pieces {motive : Bytes → Prop} (text : Bytes) (nothing : motive [])
    (comment : ∀ row rest, newline ∉ row → (∀ b ∈ rest.head?, b = newline) → motive rest →
      motive (byte '#' :: (row ++ rest)))
    (piece : ∀ b after rest, b ≠ byte '#' → b :: after = (Piece.first b after).raw ++ rest →
      motive rest → motive (b :: after)) : motive text := by
  induction measure : text.length using Nat.strong_induction_on generalizing text with
  | _ size ih =>
      cases text with
      | nil => exact nothing
      | cons b after =>
          rw [List.length_cons] at measure
          by_cases mark : b = byte '#'
          · subst mark
            obtain ⟨row, rest, rfl, one_row, starts⟩ := first_row after
            rw [List.length_append] at measure
            exact comment row rest one_row starts (ih rest.length (by omega) rest rfl)
          · obtain ⟨rest, whole, _, shorter⟩ := first_rest b after
            exact piece b after rest mark whole (ih rest.length (by omega) rest rfl)

theorem words_row (row rest : Bytes) (one_row : newline ∉ row)
    (starts : ∀ b ∈ rest.head?, b = newline) : words (byte '#' :: (row ++ rest)) = words rest ∧
      stringsClosed (byte '#' :: (row ++ rest)) = stringsClosed rest := by
  obtain ⟨own, own_open, _⟩ := words_comment (row ++ rest)
  rw [dropWhile_row row rest one_row starts] at own own_open
  exact ⟨own, own_open⟩

/-- The words of two texts stand one after the other. -/
theorem words_append (text more : Bytes) (stop : EndsPiece more)
    (closed : stringsClosed text = true) :
    words (text ++ more) = words text ++ words (behind text more) ∧
      stringsClosed (text ++ more) = stringsClosed (behind text more) := by
  induction text using by_pieces with
  | nothing => exact ⟨rfl, rfl⟩
  | comment row rest one_row starts ih =>
      have commented := endsInComment_row row rest one_row starts
      obtain ⟨own, own_open⟩ := words_row row rest one_row starts
      rw [own_open] at closed
      rw [List.cons_append, List.append_assoc, own]
      cases rest with
      | nil =>
          obtain ⟨whole, whole_open, _⟩ := words_comment (row ++ more)
          rw [dropWhile_past_row row more one_row] at whole whole_open
          rw [List.nil_append, behind, commented, if_pos rfl, if_pos rfl]
          exact ⟨whole, whole_open⟩
      | cons b rest =>
          obtain ⟨whole, whole_open⟩ := words_row row (b :: rest ++ more) one_row (by exact starts)
          rw [behind, commented, if_neg (List.cons_ne_nil _ _), whole, whole_open]
          exact ih closed
  | piece b after rest no_comment whole ih =>
      have dropped : (b :: after).drop (Piece.first b after).raw.length = rest := by
        rw [whole, List.drop_left]
      rw [stringsClosed_cons, dropped, Bool.and_eq_true, Bool.not_eq_true'] at closed
      have kept := first_kept b after more stop no_comment closed.1
      have further : (b :: (after ++ more)).drop (Piece.first b after).raw.length = rest ++ more := by
        rw [← List.cons_append, whole, List.append_assoc, List.drop_left]
      have seam : behind (b :: after) more = behind rest more := by
        unfold behind
        rw [endsInComment_past b after rest no_comment dropped]
      obtain ⟨own, same_open⟩ := ih closed.2
      rw [List.cons_append, words_cons, stringsClosed_cons, kept, further, own, same_open,
        words_cons, dropped, closed.1, seam, List.append_assoc]
      exact ⟨rfl, rfl⟩

theorem behind_blank (text gap : Bytes) (blank : isBlank gap = true) :
    isBlank (behind text gap) = true := by
  unfold behind
  split
  · rw [isBlank_iff] at blank ⊢
    exact fun b member => blank b ((List.dropWhile_sublist _).subset member)
  · exact blank

theorem stringsClosed_open_gap (text gap : Bytes) (blank : isBlank gap = true)
    (left : stringsClosed text = false) : stringsClosed (text ++ gap) = false := by
  induction text using by_pieces with
  | nothing => cases left
  | comment row rest one_row starts ih =>
      rw [(words_row row rest one_row starts).2] at left
      cases rest with
      | nil => cases left
      | cons b rest =>
          rw [List.cons_append, List.append_assoc, (words_row row _ one_row (by exact starts)).2]
          exact ih left
  | piece b after rest no_comment whole ih =>
      rw [List.cons_append, stringsClosed_cons]
      by_cases invalid : (Piece.first b after).isInvalid = true
      · have mark := isInvalid_first b after invalid
        rw [first_quote b _ mark] at invalid ⊢
        rw [ofString_gap b after gap mark blank invalid]
        rfl
      · rw [Bool.not_eq_true] at invalid
        rw [stringsClosed_cons, invalid, whole, List.drop_left] at left
        have kept := first_kept b after gap (.of_blank blank) no_comment invalid
        have further : (b :: (after ++ gap)).drop (Piece.first b after).raw.length = rest ++ gap := by
          rw [← List.cons_append, whole, List.append_assoc, List.drop_left]
        rw [kept, invalid, further]
        exact ih left

/-- White space at the end of a text is read as nothing. -/
theorem words_trailing (text gap : Bytes) (blank : isBlank gap = true) :
    stringsClosed (text ++ gap) = stringsClosed text ∧
      (stringsClosed text = true → words (text ++ gap) = words text) := by
  obtain ⟨none_there, none_open, _⟩ := words_gap _ [] (behind_blank text gap blank)
  rw [List.append_nil] at none_there none_open
  cases closed : stringsClosed text with
  | true =>
      obtain ⟨own, own_open⟩ := words_append text gap (.of_blank blank) closed
      rw [own, own_open, none_there, none_open]
      exact ⟨rfl, fun _ => List.append_nil _⟩
  | false => exact ⟨stringsClosed_open_gap text gap blank closed, nofun⟩

def netDepth : List Word → Int
  | [] => 0
  | word :: rest => depthChange word.1 + netDepth rest

theorem netDepth_append (own more : List Word) :
    netDepth (own ++ more) = netDepth own + netDepth more := by
  induction own with
  | nil => simp [netDepth]
  | cons word own ih => rw [List.cons_append, netDepth, netDepth, ih, Int.add_assoc]

theorem openBracketDepth_words (text : Bytes) :
    openBracketDepth text = if stringsClosed text then netDepth (words text) else -1 := by
  have sum (tokens : List Token) (depth : Int) :
      tokens.foldl (fun depth token => depth + depthChange token.kind) depth =
        depth + netDepth (tokens.map Token.word) := by
    induction tokens generalizing depth with
    | nil => simp [netDepth]
    | cons token tokens ih =>
        rw [List.foldl_cons, ih, List.map_cons, netDepth, Int.add_assoc]
  unfold openBracketDepth
  cases closed : stringsClosed text with
  | false =>
      obtain ⟨_, offset, scan, _⟩ := scan_open text closed
      dsimp only
      rw [scan]
      rfl
  | true =>
      obtain ⟨tokens, last, scan, own, ends⟩ := scan_closed text closed
      have finish : netDepth [last.word] = 0 := by
        rw [ends]
        rfl
      rw [scan]
      dsimp only
      rw [sum, List.map_append, List.map_singleton, netDepth_append, own, finish]
      simp

/-- Texts with the same words are read alike. -/
theorem literal_words [Json.Dialect] (text again : Bytes)
    (closed : stringsClosed again = stringsClosed text)
    (same : stringsClosed text = true → words again = words text) :
    literal? again = literal? text := by
  have moved : TextMoved 1 text again := by
    refine ⟨closed, fun own => ?_⟩
    rw [same own]
    exact List.forall₂_same.mpr fun word _ => .inl rfl
  have alike := literal_moved Nat.one_pos text again moved
  cases found : literal? text with
  | none =>
      rw [found] at alike
      generalize literal? again = other at alike
      cases alike
      rfl
  | some value =>
      rw [found] at alike
      generalize literal? again = other at alike
      cases alike with
      | some alike => exact congrArg some (alike.same (same (literal_closed text value found)))

theorem literal_trim [Json.Dialect] (text : Bytes) : literal? (trim text) = literal? text := by
  obtain ⟨lead, trail, before, after, whole⟩ := trim_between text
  obtain ⟨own, own_open, _⟩ := words_gap lead (trim text) before
  obtain ⟨closed, same⟩ := words_trailing (lead ++ trim text) trail after
  rw [own_open] at closed same
  rw [own] at same
  have alike := literal_words (trim text) (lead ++ trim text ++ trail) closed same
  rw [← whole] at alike
  exact alike.symm

theorem openBracketDepth_trailing (text gap : Bytes) (blank : isBlank gap = true) :
    openBracketDepth (text ++ gap) = openBracketDepth text := by
  obtain ⟨same_open, same⟩ := words_trailing text gap blank
  rw [openBracketDepth_words, openBracketDepth_words, same_open]
  split
  next closed => rw [same closed]
  next => rfl

theorem openBracketDepth_lead (gap text : Bytes) (blank : isBlank gap = true) :
    openBracketDepth (gap ++ text) = openBracketDepth text := by
  obtain ⟨own, closed, _⟩ := words_gap gap text blank
  rw [openBracketDepth_words, openBracketDepth_words, own, closed]

def leavesOpen (text : Bytes) : Bool := !stringsClosed text || decide (0 < openBracketDepth text)

theorem leavesOpen_lead (gap text : Bytes) (blank : isBlank gap = true) :
    leavesOpen (gap ++ text) = leavesOpen text := by
  obtain ⟨_, closed, _⟩ := words_gap gap text blank
  rw [leavesOpen, leavesOpen, closed, openBracketDepth_lead gap text blank]

theorem leavesOpen_cases {text : Bytes} (left : leavesOpen text = true) :
    stringsClosed text = false ∨ stringsClosed text = true ∧ 0 < netDepth (words text) := by
  rw [leavesOpen, openBracketDepth_words] at left
  cases closed : stringsClosed text with
  | false => exact .inl rfl
  | true =>
      rw [closed] at left
      exact .inr ⟨rfl, by simpa using left⟩

end EndpointPreview.Notation
