import EndpointPreview.Notation.ReturnLiteral
import EndpointPreview.Proofs.Seams

/-!
Texts joined by the end of a row. When the first text leaves no string open, none of its pieces goes
on behind the row end: comments stop there, and nothing else reads over white space. So the tokens
of the second text follow those of the first one, each so much further on, and the bracket depths of
the two texts add up. A statement that is put together row by row is therefore balanced where the
depths of its rows come to zero.
-/

namespace EndpointPreview.Notation

open Text

theorem pieces_row (row rest : Bytes) (one_row : newline ∉ row)
    (starts : ∀ b ∈ rest.head?, b = newline) :
    pieces (byte '#' :: (row ++ rest)) = .gap (byte '#' :: row) :: pieces rest := by
  have row_end : (row ++ rest).takeWhile (· != newline) = row := by
    have none_behind : rest.takeWhile (· != newline) = [] := by
      cases rest with
      | nil => rfl
      | cons b rest =>
          obtain rfl := starts b rfl
          rfl
    rw [List.takeWhile_append_of_pos fun b member => ?_, none_behind, List.append_nil]
    simpa using fun same : b = newline => one_row (same ▸ member)
  have comment : Piece.first (byte '#') (row ++ rest) = .gap (byte '#' :: row) :=
    congrArg (fun own => Piece.gap (byte '#' :: own)) row_end
  rw [pieces_cons, comment, Piece.raw, ← List.cons_append, List.drop_left]

theorem pieces_whole {b : UInt8} {after rest : Bytes}
    (whole : b :: after = (Piece.first b after).raw ++ rest) :
    pieces (b :: after) = Piece.first b after :: pieces rest := by
  rw [pieces_cons, whole, List.drop_left]

/-- The pieces of a text whose strings are closed stay as they are before the end of the row. -/
theorem pieces_joined (text more : Bytes) (closed : stringsClosed text = true) :
    pieces (text ++ newline :: more) = pieces text ++ .gap [newline] :: pieces more := by
  have stop : EndsPiece (newline :: more) := by
    rintro b ⟨⟩
    rfl
  induction text using by_pieces with
  | nothing => exact pieces_cons newline more
  | comment row rest one_row starts ih =>
      rw [(words_row row rest one_row starts).2] at closed
      have starts_again : ∀ b ∈ (rest ++ newline :: more).head?, b = newline := by
        cases rest with
        | nil => exact fun b head => (Option.some.inj head).symm
        | cons c rest => exact starts
      rw [List.cons_append, List.append_assoc, pieces_row row _ one_row starts_again, ih closed,
        pieces_row row rest one_row starts, List.cons_append]
  | piece b after rest no_comment whole ih =>
      have dropped : (b :: after).drop (Piece.first b after).raw.length = rest := by
        rw [whole, List.drop_left]
      rw [stringsClosed_cons, dropped, Bool.and_eq_true, Bool.not_eq_true'] at closed
      have kept := first_kept b after _ stop no_comment closed.1
      have whole_again : b :: (after ++ newline :: more) =
          (Piece.first b (after ++ newline :: more)).raw ++ (rest ++ newline :: more) := by
        rw [kept, ← List.append_assoc, ← whole, List.cons_append]
      rw [List.cons_append, pieces_whole whole_again, kept, ih closed.2, pieces_whole whole,
        List.cons_append]

/-- The written forms of the pieces are the text. -/
theorem pieces_written (text : Bytes) : (pieces text).flatMap Piece.raw = text := by
  induction text using by_pieces with
  | nothing => rfl
  | comment row rest one_row starts ih =>
      rw [pieces_row row rest one_row starts, List.flatMap_cons, ih]
      rfl
  | piece b after rest no_comment whole ih =>
      rw [pieces_whole whole, List.flatMap_cons, ih, ← whole]

def Token.moved (distance : Nat) (token : Token) : Token :=
  { token with offset := token.offset + distance }

theorem lexemesFrom_append (offset : Nat) (parts more : List Piece) :
    lexemesFrom offset (parts ++ more) =
      lexemesFrom offset parts ++ lexemesFrom (offset + (parts.flatMap Piece.raw).length) more := by
  induction parts generalizing offset with
  | nil => rfl
  | cons piece parts ih =>
      rw [List.flatMap_cons, List.length_append, ← Nat.add_assoc, List.cons_append]
      cases piece with
      | gap raw => exact ih _
      | lexeme kind word raw => exact congrArg (_ :: ·) (ih _)

theorem lexemesFrom_moved (distance offset : Nat) (parts : List Piece) :
    lexemesFrom (offset + distance) parts =
      (lexemesFrom offset parts).map (Token.moved distance) := by
  induction parts generalizing offset with
  | nil => rfl
  | cons piece parts ih =>
      have further (raw : Bytes) : lexemesFrom (offset + distance + raw.length) parts =
          (lexemesFrom (offset + raw.length) parts).map (Token.moved distance) := by
        rw [Nat.add_right_comm, ih]
      cases piece with
      | gap raw => exact further raw
      | lexeme kind word raw => exact congrArg (_ :: ·) (further raw)

theorem unterminatedFrom_append (offset : Nat) (parts more : List Piece)
    (closed : parts.all (!·.isInvalid) = true) :
    unterminatedFrom offset (parts ++ more) =
      unterminatedFrom (offset + (parts.flatMap Piece.raw).length) more := by
  induction parts generalizing offset with
  | nil => rfl
  | cons piece parts ih =>
      rw [List.all_cons, Bool.and_eq_true, Bool.not_eq_true'] at closed
      have valid : ¬ piece.isInvalid = true := by rw [closed.1]; exact Bool.false_ne_true
      rw [List.cons_append, unterminatedFrom, if_neg valid, ih _ closed.2, List.flatMap_cons,
        List.length_append, Nat.add_assoc]

theorem unterminatedFrom_moved (distance offset : Nat) (parts : List Piece) :
    unterminatedFrom (offset + distance) parts =
      (unterminatedFrom offset parts).map (· + distance) := by
  induction parts generalizing offset with
  | nil => rfl
  | cons piece parts ih =>
      rw [unterminatedFrom, unterminatedFrom]
      by_cases invalid : piece.isInvalid = true
      · rw [if_pos invalid, if_pos invalid]
        rfl
      · rw [if_neg invalid, if_neg invalid, Nat.add_right_comm, ih]

theorem stringsClosed_scan (text : Bytes) :
    (scanTokens text).openString = none ↔ stringsClosed text = true := by
  cases closed : stringsClosed text with
  | true =>
      obtain ⟨tokens, last, scan, _, _⟩ := scan_closed text closed
      simp [scan]
  | false =>
      obtain ⟨tokens, offset, scan, _⟩ := scan_open text closed
      simp [scan]

def TokenScan.behind (own : List Token) (distance : Nat) (scan : TokenScan) : TokenScan :=
  ⟨own ++ scan.tokens.map (Token.moved distance), scan.openString.map (· + distance)⟩

/-- The scan goes on behind the row end as if the text began there. -/
theorem scan_joined (text more : Bytes) (closed : stringsClosed text = true) :
    scanTokens (text ++ newline :: more) =
      (scanTokens more).behind (lexemesFrom 0 (pieces text)) (text.length + 1) := by
  have tokens : lexemesFrom 0 (pieces (text ++ newline :: more)) =
      lexemesFrom 0 (pieces text) ++
        (lexemesFrom 0 (pieces more)).map (Token.moved (text.length + 1)) := by
    rw [pieces_joined text more closed, lexemesFrom_append, pieces_written, ← lexemesFrom_moved]
    rfl
  have open_string : unterminatedFrom 0 (pieces (text ++ newline :: more)) =
      (unterminatedFrom 0 (pieces more)).map (· + (text.length + 1)) := by
    rw [pieces_joined text more closed, unterminatedFrom_append 0 _ _ closed, pieces_written,
      ← unterminatedFrom_moved]
    rfl
  unfold scanTokens TokenScan.behind
  dsimp only
  rw [tokens, open_string]
  cases unterminatedFrom 0 (pieces more) with
  | some offset => rfl
  | none =>
      have length : (text ++ newline :: more).length = more.length + (text.length + 1) := by
        rw [List.length_append, List.length_cons]
        omega
      simp [length, Token.moved]

theorem stringsClosed_joined (text more : Bytes) (closed : stringsClosed text = true) :
    stringsClosed (text ++ newline :: more) = stringsClosed more := by
  have parts := pieces_joined text more closed
  rw [stringsClosed] at closed
  rw [stringsClosed, parts, List.all_append, closed, Bool.true_and]
  rfl

theorem words_joined (text more : Bytes) (closed : stringsClosed text = true) :
    words (text ++ newline :: more) = words text ++ words more := by
  rw [words, pieces_joined text more closed, List.filterMap_append]
  rfl

/-- Depths add up, as far as no string is left open. -/
theorem openBracketDepth_joined (text more : Bytes) (closed : stringsClosed text = true) :
    openBracketDepth (text ++ newline :: more) =
      if stringsClosed more then openBracketDepth text + openBracketDepth more else -1 := by
  rw [openBracketDepth_words, openBracketDepth_words text, openBracketDepth_words more,
    stringsClosed_joined text more closed, words_joined text more closed, closed, netDepth_append]
  cases stringsClosed more <;> rfl

/-- The tokens of two texts joined by a row end are those of the first without its finish, then
those of the second, which stand further on by the first text and the row end; so does a string
that the second leaves open. Where it leaves none open, the depths of the two add up. -/
theorem scanTokens_joined (text more : Bytes) (closed : (scanTokens text).openString = none) :
    ∃ own, (scanTokens text).tokens = own ++ [⟨.finish, [], text.length⟩] ∧
      (scanTokens (text ++ newline :: more)).tokens =
        own ++ (scanTokens more).tokens.map (Token.moved (text.length + 1)) ∧
      (scanTokens (text ++ newline :: more)).openString =
        (scanTokens more).openString.map (· + (text.length + 1)) ∧
      openBracketDepth (text ++ newline :: more) =
        if (scanTokens more).openString = none then openBracketDepth text + openBracketDepth more
        else -1 := by
  have own_closed := (stringsClosed_scan text).mp closed
  have joined := scan_joined text more own_closed
  refine ⟨lexemesFrom 0 (pieces text), ?own, ?tokens, ?open_string, ?depth⟩
  case own =>
    unfold scanTokens
    dsimp only
    rw [(unterminated_iff 0 (pieces text)).mpr own_closed]
  case tokens =>
    rw [joined]
    rfl
  case open_string =>
    rw [joined]
    rfl
  case depth =>
    rw [openBracketDepth_joined text more own_closed]
    simp only [stringsClosed_scan]

/-- A comment before the row end has a quote and a bracket in it, which the second text does not
see. -/
theorem scanTokens_joined_comment :
    (scanTokens (ascii "[f, # it's [")).openString = none ∧
      (scanTokens (ascii "[f, # it's [" ++ newline :: ascii "'a']")).tokens.map Token.offset =
        [0, 1, 2, 13, 16, 17] ∧
      openBracketDepth (ascii "[f, # it's [" ++ newline :: ascii "'a']") = 0 := by
  have closed : (scanTokens (ascii "[f, # it's [")).openString = none := by decide
  obtain ⟨own, first, tokens, _, depth⟩ :=
    scanTokens_joined (ascii "[f, # it's [") (ascii "'a']") closed
  have own_tokens : own = (scanTokens (ascii "[f, # it's [")).tokens.dropLast := by
    rw [first, List.dropLast_concat]
  refine ⟨closed, ?_, depth.trans (by decide)⟩
  rw [tokens, own_tokens]
  decide

-- How many rows are taken until their depths and the one before them come to zero.
def rowsToBalance (depth : Int) : List Int → Nat
  | [] => 0
  | row :: later => if depth = 0 then 0 else rowsToBalance (depth + row) later + 1

/-- A statement that is read again with every row ends where the depths of its rows, each read on
its own, come to zero. -/
theorem joinUntilBalanced_rows (expression : Bytes) (later : List Bytes)
    (closed : ∀ row ∈ expression :: later, stringsClosed row = true) :
    joinUntilBalanced expression later =
      expression ++ (later.take (rowsToBalance (openBracketDepth expression)
        (later.map openBracketDepth))).flatMap (newline :: ·) := by
  induction later generalizing expression with
  | nil => exact (List.append_nil expression).symm
  | cons row later ih =>
      obtain ⟨own, next, further⟩ := List.forall_mem_cons.mp closed |>.imp_right
        List.forall_mem_cons.mp
      rw [joinUntilBalanced, List.map_cons, rowsToBalance]
      split
      · exact (List.append_nil expression).symm
      · have joined : stringsClosed (expression ++ newline :: row) = true := by
          rw [stringsClosed_joined expression row own, next]
        have depth := openBracketDepth_joined expression row own
        rw [next, if_pos rfl] at depth
        rw [ih _ (List.forall_mem_cons.mpr ⟨joined, further⟩), depth, List.take_succ_cons,
          List.flatMap_cons, List.append_assoc]

end EndpointPreview.Notation
