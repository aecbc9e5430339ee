import EndpointPreview.Proofs.StringBodies
import EndpointPreview.Proofs.TokenPositions

/-!
The tokens of a text as a tiling of it. Each token but the last stands on a span of its own; the
spans follow one another without overlap, and what they leave out is white space and comments, so
every byte of a text is accounted for. A string has its marks at both ends of its span and says
what is written between them; every other token says its span as it is.
-/

namespace EndpointPreview.Notation

open Text

-- The positions from a start up to a stop, the stop not among them.
structure Span where
  start : Nat
  stop : Nat
  deriving DecidableEq, Repr

def Span.Holds (span : Span) (position : Nat) : Prop :=
  span.start ≤ position ∧ position < span.stop

def Span.within (text : Bytes) (span : Span) : Bytes := text.extract span.start span.stop

def Outside (spans : List Span) (position : Nat) : Prop := ∀ span ∈ spans, ¬ span.Holds position

-- A comment that opens outside the spans goes on up to the position at least.
structure CommentFrom (text : Bytes) (spans : List Span) (opening position : Nat) : Prop where
  opens : text[opening]? = some (byte '#')
  outside : Outside spans opening
  before : opening ≤ position
  same_row : ∀ between, opening ≤ between → between ≤ position → text[between]? ≠ some newline

-- The escapes that stand for something else than the byte behind the backslash.
def escapes : List (UInt8 × Bytes) :=
  [(byte 'n', [10]), (byte 't', [9]), (byte 'r', [13]), (byte '0', [0]), (newline, [])]

/-- What is written between the marks of a string, and what it says: a backslash and the byte
behind it are an escape, no other byte starts the closing mark, and only a tripled string goes on
behind the end of a row. -/
inductive Decodes (quote : UInt8) (triple : Bool) : Bytes → Bytes → Prop where
  | nil : Decodes quote triple [] []
  | escape (mark : UInt8) {inner content : Bytes} (more : Decodes quote triple inner content) :
      Decodes quote triple (backslash :: mark :: inner)
        ((escapes.lookup mark).getD [mark] ++ content)
  | byte (b : UInt8) {inner content : Bytes} (straight : b ≠ backslash)
      (inside : ¬ closingMark quote triple <+: b :: (inner ++ closingMark quote triple))
      (same_row : b = newline → triple = true) (more : Decodes quote triple inner content) :
      Decodes quote triple (b :: inner) (b :: content)

-- How a token says its span: as it is, or between the marks of a string.
inductive Reads (text : Bytes) (span : Span) : Token → Prop where
  | plain (kind : TokenKind) (other : kind ≠ .string) :
      Reads text span ⟨kind, span.within text, span.start⟩
  | string (quote : UInt8) (triple : Bool) (inner content : Bytes) (mark : isQuote quote = true)
      (tripled : triple = true ↔
        quote ≠ backtick ∧ [quote, quote, quote] <+: text.drop span.start)
      (written : span.within text =
        closingMark quote triple ++ inner ++ closingMark quote triple)
      (decodes : Decodes quote triple inner content) :
      Reads text span ⟨.string, content, span.start⟩

structure Tiles (text : Bytes) (spans : List Span) (tokens : List Token) : Prop where
  reads : List.Forall₂ (Reads text) spans tokens
  filled : ∀ span ∈ spans, span.start < span.stop ∧ span.stop ≤ text.length
  apart : spans.Pairwise fun first later => first.stop ≤ later.start
  skipped : ∀ position b, text[position]? = some b → Outside spans position →
    isSpace b = true ∨ ∃ opening, CommentFrom text spans opening position
  comments : ∀ opening position, CommentFrom text spans opening position → Outside spans position

/-- The tokens of a text are neither finish nor invalid but for the last one: the finish at the
length of the text, or a string that is left open and takes the rest of the text. -/
inductive Concluded (text : Bytes) : TokenScan → Prop where
  | finished : Concluded text ⟨[⟨.finish, [], text.length⟩], none⟩
  | leftOpen (offset : Nat) :
      Concluded text ⟨[⟨.invalid, text.drop offset, offset⟩], some offset⟩
  | token (first : Token) {tokens : List Token} {openString : Option Nat}
      (valid : first.kind ≠ .finish ∧ first.kind ≠ .invalid)
      (more : Concluded text ⟨tokens, openString⟩) :
      Concluded text ⟨first :: tokens, openString⟩

inductive Piece.Fronts (text : Bytes) : Piece → Prop where
  | space (b : UInt8) (after : Bytes) (whole : text = b :: after) (blank : isSpace b = true) :
      Fronts text (.gap [b])
  | comment (after : Bytes) (whole : text = byte '#' :: after) :
      Fronts text (.gap (byte '#' :: after.takeWhile (· != newline)))
  | plain (kind : TokenKind) (raw : Bytes) (filled : raw ≠ []) (front : raw <+: text)
      (other : kind ≠ .string) (valid : kind ≠ .finish ∧ (kind = .invalid → raw = text)) :
      Fronts text (.plain kind raw)
  | string (quote : UInt8) (triple : Bool) (inner content rest : Bytes)
      (mark : isQuote quote = true)
      (tripled : triple = true ↔ quote ≠ backtick ∧ [quote, quote, quote] <+: text)
      (whole : text = closingMark quote triple ++ inner ++ closingMark quote triple ++ rest)
      (decodes : Decodes quote triple inner content) :
      Fronts text (.lexeme .string content
        (closingMark quote triple ++ inner ++ closingMark quote triple))

theorem lookup_getD (mark key : UInt8) (value default : Bytes) (table : List (UInt8 × Bytes)) :
    (((key, value) :: table).lookup mark).getD default =
      if mark == key then value else (table.lookup mark).getD default := by
  rw [List.lookup_cons]
  cases mark == key <;> rfl

theorem escapeValue_lookup (mark : UInt8) :
    escapeValue mark = (escapes.lookup mark).getD [mark] := by
  simp only [escapes, lookup_getD]
  rfl

/-- A string is read up to its closing mark, and its escapes are resolved. -/
theorem stringBody_decodes (quote : UInt8) (triple : Bool) (text : Bytes) (body : StringBody)
    (found : stringBody? quote triple text = some body) :
    ∃ inner, body.raw = inner ++ closingMark quote triple ∧
      Decodes quote triple inner body.content := by
  fun_induction stringBody? quote triple text generalizing body with
  | case1 => cases found
  | case2 b ends =>
      cases found
      simp only [Bool.and_eq_true, Bool.not_eq_true', beq_iff_eq] at ends
      obtain ⟨rfl, rfl⟩ := ends
      exact ⟨[], rfl, .nil⟩
  | case3 => cases found
  | case4 b next rest escape ih =>
      obtain ⟨later, again, rfl⟩ := Option.map_eq_some_iff.mp found
      obtain ⟨inner, whole, decodes⟩ := ih later again
      refine ⟨b :: next :: inner, congrArg ([b, next] ++ ·) whole, ?_⟩
      rw [beq_iff_eq.mp escape]
      change Decodes quote triple _ (escapeValue next ++ later.content)
      rw [escapeValue_lookup]
      exact .escape next decodes
  | case5 b next rest plain closes =>
      cases found
      exact ⟨[], rfl, .nil⟩
  | case6 => cases found
  | case7 b next rest plain unclosed unbroken ih =>
      obtain ⟨later, again, rfl⟩ := Option.map_eq_some_iff.mp found
      obtain ⟨inner, whole, decodes⟩ := ih later again
      refine ⟨b :: inner, congrArg (b :: ·) whole, .byte b ?_ ?_ ?_ decodes⟩
      · simpa using plain
      · rw [← whole]
        intro inside
        have behind : b :: later.raw <+: b :: next :: rest := by
          rw [stringBody_whole quote triple _ later again]
          exact List.prefix_append (b :: later.raw) later.rest
        exact unclosed (List.isPrefixOf_iff_prefix.mpr (inside.trans behind))
      · rintro rfl
        simpa using unbroken

theorem opensTriple_iff (quote : UInt8) (after : Bytes) :
    opensTriple quote after = true ↔
      quote ≠ backtick ∧ [quote, quote, quote] <+: quote :: after := by
  simp [opensTriple, List.cons_prefix_cons]

theorem ofString_fronts (quote : UInt8) (after : Bytes) (mark : isQuote quote = true) :
    (Piece.ofString quote after).Fronts (quote :: after) := by
  obtain ⟨behind, opening⟩ := opening_front quote after
  unfold Piece.ofString
  dsimp only
  split
  · rename_i body found
    rw [← opening, List.drop_left] at found
    obtain ⟨inner, whole, decodes⟩ := stringBody_decodes _ _ _ body found
    rw [whole, ← List.append_assoc]
    refine .string quote _ inner body.content body.rest mark (opensTriple_iff quote after) ?_ decodes
    rw [← opening, stringBody_whole _ _ _ body found, whole]
    simp
  · exact .plain .invalid _ (List.cons_ne_nil _ _) List.prefix_rfl (by decide)
      ⟨by decide, fun _ => rfl⟩

theorem ofMark_plain (b : UInt8) (after : Bytes) :
    ∃ kind raw, Piece.ofMark b after = .plain kind raw := by
  unfold Piece.ofMark
  cases after with
  | nil => exact ⟨_, _, rfl⟩
  | cons next rest =>
      dsimp only
      split <;> exact ⟨_, _, rfl⟩

theorem ofMark_fronts (b : UInt8) (after : Bytes) :
    (Piece.ofMark b after).Fronts (b :: after) := by
  have known := ofMark_kind b after
  have filled := ofMark_nonempty b after
  have front := ofMark_front b after
  obtain ⟨kind, raw, piece⟩ := ofMark_plain b after
  rw [piece] at known filled front ⊢
  obtain ⟨finish, invalid, string⟩ := known (kind, raw) rfl
  exact .plain kind raw filled front string ⟨finish, fun same => absurd same invalid⟩

/-- What the first piece of a text can be. -/
theorem first_fronts (b : UInt8) (after : Bytes) :
    (Piece.first b after).Fronts (b :: after) := by
  unfold Piece.first
  split_ifs with space comment quote number name
  · exact .space b after rfl space
  · rw [beq_iff_eq.mp comment]
    exact .comment after rfl
  · exact ofString_fronts b after quote
  · exact .plain .number _ (numberText_nonempty b after number) (numberText_front _) (by decide)
      ⟨by decide, nofun⟩
  · exact .plain .identifier _ (List.cons_ne_nil _ _)
      (List.cons_prefix_cons.mpr ⟨rfl, List.takeWhile_prefix _⟩) (by decide) ⟨by decide, nofun⟩
  · exact ofMark_fronts b after

namespace Piece.Fronts

variable {text : Bytes} {piece : Piece}

theorem front (fronts : piece.Fronts text) : piece.raw <+: text := by
  cases fronts with
  | space b after whole blank =>
      rw [whole]
      exact List.prefix_append [b] after
  | comment after whole =>
      rw [whole]
      exact List.cons_prefix_cons.mpr ⟨rfl, List.takeWhile_prefix _⟩
  | plain kind raw filled front other valid => exact front
  | string quote triple inner content rest mark tripled whole decodes =>
      rw [whole]
      exact List.prefix_append _ rest

theorem filled (fronts : piece.Fronts text) : 0 < piece.raw.length := by
  cases fronts with
  | space b after whole blank => exact Nat.zero_lt_one
  | comment after whole => exact Nat.zero_lt_succ _
  | plain kind raw filled front other valid => exact List.length_pos_of_ne_nil filled
  | string quote triple inner content rest mark tripled whole decodes =>
      obtain ⟨more, parts⟩ := closingMark_cons quote triple
      rw [parts]
      exact Nat.zero_lt_succ _

end Piece.Fronts

-- Pieces from a position on, each read where the one before it stops.
inductive Way (text : Bytes) : Nat → List Piece → Prop where
  | done : Way text text.length []
  | piece {position : Nat} {piece : Piece} {parts : List Piece}
      (fronts : piece.Fronts (text.drop position))
      (more : Way text (position + piece.raw.length) parts) : Way text position (piece :: parts)

theorem pieces_way (text rest : Bytes) (position : Nat) (inside : position ≤ text.length)
    (stands : text.drop position = rest) : Way text position (pieces rest) := by
  induction measure : rest.length using Nat.strong_induction_on generalizing rest position with
  | _ size ih =>
      have length := congrArg List.length stands
      rw [List.length_drop] at length
      cases rest with
      | nil =>
          obtain rfl : position = text.length := by
            rw [List.length_nil] at length
            omega
          exact .done
      | cons b after =>
          obtain ⟨rest, whole, dropped, shorter⟩ := first_rest b after
          have total := congrArg List.length whole
          rw [List.length_append, List.length_cons] at total
          rw [List.length_cons] at length measure
          rw [pieces_cons, dropped]
          apply Way.piece (stands ▸ first_fronts b after)
          apply ih rest.length (by omega) rest _ (by omega) _ rfl
          rw [← List.drop_drop, stands, dropped]

def spansFrom (offset : Nat) : List Piece → List Span
  | [] => []
  | .gap raw :: rest => spansFrom (offset + raw.length) rest
  | .lexeme _ _ raw :: rest =>
      ⟨offset, offset + raw.length⟩ :: spansFrom (offset + raw.length) rest

theorem within_front {text raw : Bytes} {position : Nat} (front : raw <+: text.drop position) :
    Span.within text ⟨position, position + raw.length⟩ = raw := by
  obtain ⟨rest, whole⟩ := front
  rw [Span.within, List.extract_eq_take_drop, ← whole, Nat.add_sub_cancel_left, List.take_left]

/-- A byte of a piece, where it stands in the text. -/
theorem getElem?_front {text raw : Bytes} {position place : Nat}
    (front : raw <+: text.drop position) (behind : position ≤ place)
    (before : place < position + raw.length) : text[place]? = raw[place - position]? := by
  obtain ⟨rest, whole⟩ := front
  have inside : place - position < raw.length := by omega
  have extended : (raw ++ rest)[place - position]? = raw[place - position]? :=
    List.getElem?_append_left inside
  rw [← extended, whole, List.getElem?_drop, Nat.add_sub_cancel' behind]

namespace Way

variable {text : Bytes} {position : Nat} {parts : List Piece}

theorem inside (way : Way text position parts) : position ≤ text.length := by
  induction way with
  | done => exact Nat.le_refl _
  | piece fronts more ih => omega

theorem filled (way : Way text position parts) :
    ∀ span ∈ spansFrom position parts,
      position ≤ span.start ∧ span.start < span.stop ∧ span.stop ≤ text.length := by
  induction way with
  | done => exact fun _ member => nomatch member
  | @piece position piece parts fronts more ih =>
      have progress := fronts.filled
      have later (span : Span) (member : span ∈ spansFrom (position + piece.raw.length) parts) :
          position ≤ span.start ∧ span.start < span.stop ∧ span.stop ≤ text.length := by
        have known := ih span member
        omega
      cases piece with
      | gap raw => exact later
      | lexeme kind word raw =>
          refine List.forall_mem_cons.mpr ⟨⟨Nat.le_refl _, ?_, more.inside⟩, later⟩
          exact Nat.lt_add_of_pos_right progress

theorem apart (way : Way text position parts) :
    (spansFrom position parts).Pairwise fun first later => first.stop ≤ later.start := by
  induction way with
  | done => exact .nil
  | @piece position piece parts fronts more ih =>
      cases piece with
      | gap raw => exact ih
      | lexeme kind word raw => exact .cons (fun span member => (more.filled span member).1) ih

theorem reads (way : Way text position parts) :
    List.Forall₂ (Reads text) (spansFrom position parts) (lexemesFrom position parts) := by
  induction way with
  | done => exact .nil
  | @piece position piece parts fronts more ih =>
      have written := within_front fronts.front
      cases fronts with
      | space b after whole blank => exact ih
      | comment after whole => exact ih
      | plain kind raw filled front other valid =>
          have own : Reads text ⟨position, position + raw.length⟩ ⟨kind, _, position⟩ :=
            .plain kind other
          rw [within_front front] at own
          exact .cons own ih
      | string quote triple inner content rest mark tripled whole decodes =>
          exact .cons (.string quote triple inner content mark tripled written decodes) ih

theorem outside_before {place : Nat} (way : Way text position parts) (before : place < position) :
    Outside (spansFrom position parts) place := by
  intro span member holds
  have start := (way.filled span member).1
  exact absurd (Nat.lt_of_le_of_lt holds.1 before) (Nat.not_lt.mpr start)

/-! What lies behind the first piece does not see it. -/

theorem outside_past {place : Nat} (piece : Piece) (past : position + piece.raw.length ≤ place) :
    Outside (spansFrom position (piece :: parts)) place ↔
      Outside (spansFrom (position + piece.raw.length) parts) place := by
  cases piece with
  | gap raw => exact Iff.rfl
  | lexeme kind word raw =>
      have first : ¬ Span.Holds ⟨position, position + raw.length⟩ place :=
        fun holds => Nat.not_lt.mpr past holds.2
      exact List.forall_mem_cons.trans (and_iff_right first)

theorem comment_past {opening place : Nat} (piece : Piece)
    (past : position + piece.raw.length ≤ opening) :
    CommentFrom text (spansFrom position (piece :: parts)) opening place ↔
      CommentFrom text (spansFrom (position + piece.raw.length) parts) opening place := by
  have same : Outside (spansFrom position (piece :: parts)) opening ↔
      Outside (spansFrom (position + piece.raw.length) parts) opening := outside_past piece past
  exact ⟨fun comment => ⟨comment.opens, same.mp comment.outside, comment.before, comment.same_row⟩,
    fun comment => ⟨comment.opens, same.mpr comment.outside, comment.before, comment.same_row⟩⟩

theorem commentRaw_row (after : Bytes) :
    newline ∉ byte '#' :: after.takeWhile (· != newline) := by
  intro line
  rcases List.mem_cons.mp line with mark | inside
  · exact absurd mark (by decide)
  · simpa using List.mem_takeWhile_imp inside

/-- A comment ends before the end of its row or of the text. -/
theorem comment_stops {after : Bytes} {b : UInt8}
    (stands : text.drop position = byte '#' :: after)
    (behind : text[position + (byte '#' :: after.takeWhile (· != newline)).length]? = some b) :
    b = newline := by
  have rest : text.drop (position + (byte '#' :: after.takeWhile (· != newline)).length) =
      after.dropWhile (· != newline) := by
    rw [← List.drop_drop, stands, List.length_cons, List.drop_succ_cons, drop_takeWhile]
  have stop := List.head?_dropWhile_not (· != newline) after
  rw [← rest, List.head?_drop, behind] at stop
  simpa using stop

theorem skipped (way : Way text position parts) (place : Nat) (b : UInt8)
    (behind : position ≤ place) (stands : text[place]? = some b)
    (outside : Outside (spansFrom position parts) place) :
    isSpace b = true ∨
      ∃ opening, position ≤ opening ∧ CommentFrom text (spansFrom position parts) opening place := by
  induction way with
  | done => exact absurd (List.getElem?_eq_some_iff.mp stands).1 (Nat.not_lt.mpr behind)
  | @piece position piece parts fronts more ih =>
      by_cases past : position + piece.raw.length ≤ place
      · obtain space | ⟨opening, later, comment⟩ := ih past ((outside_past piece past).mp outside)
        · exact .inl space
        · exact .inr ⟨opening, Nat.le_trans (Nat.le_add_right _ _) later,
            (comment_past piece later).mpr comment⟩
      · have before : place < position + piece.raw.length := Nat.not_le.mp past
        have front := fronts.front
        have own := getElem?_front front behind before
        rw [stands] at own
        cases fronts with
        | space c after whole blank =>
            obtain rfl : b = c := by
              have only := List.mem_of_getElem? own.symm
              exact List.mem_singleton.mp only
            exact .inl blank
        | comment after whole =>
            -- The whole piece is one comment, which opens where the piece starts.
            have no_line := commentRaw_row after
            refine .inr ⟨position, Nat.le_refl _, ?_, ?_, behind, ?_⟩
            · rw [← List.head?_drop, whole]
              rfl
            · exact more.outside_before (Nat.lt_add_of_pos_right (Nat.zero_lt_succ _))
            · intro between low high line
              have own := getElem?_front front low (Nat.lt_of_le_of_lt high before)
              rw [line] at own
              exact no_line (List.mem_of_getElem? own.symm)
        | plain kind raw filled front other valid =>
            exact absurd ⟨behind, before⟩ (outside _ List.mem_cons_self)
        | string quote triple inner content rest mark tripled whole decodes =>
            exact absurd ⟨behind, before⟩ (outside _ List.mem_cons_self)

theorem comments (way : Way text position parts) (opening place : Nat)
    (behind : position ≤ opening)
    (comment : CommentFrom text (spansFrom position parts) opening place) :
    Outside (spansFrom position parts) place := by
  induction way with
  | done => exact fun _ member => nomatch member
  | @piece position piece parts fronts more ih =>
      by_cases past : position + piece.raw.length ≤ opening
      · have later := ih past ((comment_past piece past).mp comment)
        exact (outside_past piece (Nat.le_trans past comment.before)).mpr later
      · have before : opening < position + piece.raw.length := Nat.not_le.mp past
        have own := getElem?_front fronts.front behind before
        rw [comment.opens] at own
        cases fronts with
        | space c after whole blank =>
            obtain rfl : byte '#' = c := List.mem_singleton.mp (List.mem_of_getElem? own.symm)
            cases blank
        | comment after whole =>
            intro span member holds
            obtain ⟨start, filled, stop⟩ := more.filled span member
            -- The comment has not reached the span, or there is a line end before it.
            have stands := List.getElem?_eq_getElem
              (Nat.lt_of_lt_of_le (Nat.lt_of_le_of_lt start filled) stop)
            refine comment.same_row _ (Nat.le_of_lt before) (Nat.le_trans start holds.1) ?_
            rw [stands, comment_stops whole stands]
        | plain kind raw filled front other valid =>
            exact absurd ⟨behind, before⟩ (comment.outside _ List.mem_cons_self)
        | string quote triple inner content rest mark tripled whole decodes =>
            exact absurd ⟨behind, before⟩ (comment.outside _ List.mem_cons_self)

/-- At the end of the text no piece is left. -/
theorem ended (way : Way text text.length parts) : parts = [] := by
  cases way with
  | done => rfl
  | piece fronts more =>
      have progress := fronts.filled
      have inside := more.inside
      omega

theorem no_finish (way : Way text position parts) :
    ∀ token ∈ lexemesFrom position parts, token.kind ≠ .finish := by
  induction way with
  | done => exact fun _ member => nomatch member
  | @piece position piece parts fronts more ih =>
      cases fronts with
      | space b after whole blank => exact ih
      | comment after whole => exact ih
      | plain kind raw filled front other valid => exact List.forall_mem_cons.mpr ⟨valid.1, ih⟩
      | string quote triple inner content rest mark tripled whole decodes =>
          exact List.forall_mem_cons.mpr ⟨nofun, ih⟩

/-- A valid lexeme stands before the tokens of the pieces behind it. -/
theorem scanPieces_lexeme {kind : TokenKind} {word raw : Bytes} (valid : kind ≠ .invalid) :
    ByPosition.scanPieces text.length position (.lexeme kind word raw :: parts) =
      ⟨⟨kind, word, position⟩ ::
          (ByPosition.scanPieces text.length (position + raw.length) parts).tokens,
        (ByPosition.scanPieces text.length (position + raw.length) parts).openString⟩ := by
  have closed : ¬ (Piece.lexeme kind word raw).isInvalid = true := by
    rwa [ByPosition.lexeme_isInvalid]
  unfold ByPosition.scanPieces
  rw [unterminatedFrom, if_neg closed]
  dsimp only [Piece.raw, lexemesFrom]
  split <;> rfl

theorem concluded (way : Way text position parts) :
    Concluded text (ByPosition.scanPieces text.length position parts) := by
  induction way with
  | done => exact .finished
  | @piece position piece parts fronts more ih =>
      cases fronts with
      | space b after whole blank => exact ih
      | comment after whole => exact ih
      | plain kind raw filled front other valid =>
          by_cases invalid : kind = .invalid
          · subst invalid
            have rest := valid.2 rfl
            have length := congrArg List.length rest
            rw [List.length_drop] at length
            have stop : position + raw.length = text.length := by
              have progress := List.length_pos_of_ne_nil filled
              omega
            have none_left : parts = [] := (show Way text text.length parts from stop ▸ more).ended
            rw [none_left, rest]
            exact .leftOpen position
          · rw [Piece.plain, scanPieces_lexeme invalid]
            exact .token _ ⟨valid.1, invalid⟩ ih
      | string quote triple inner content rest mark tripled whole decodes =>
          have inner_kind : TokenKind.string ≠ .finish ∧ TokenKind.string ≠ .invalid := by decide
          rw [scanPieces_lexeme inner_kind.2]
          exact .token _ inner_kind ih

end Way

theorem lexemes_of_scan {length : Nat} {parts : List Piece}
    (no_finish : ∀ token ∈ lexemesFrom 0 parts, token.kind ≠ .finish) :
    (ByPosition.scanPieces length 0 parts).tokens.filter (·.kind != .finish) =
      lexemesFrom 0 parts := by
  have kept : (lexemesFrom 0 parts).filter (·.kind != .finish) = lexemesFrom 0 parts :=
    List.filter_eq_self.mpr fun token member => by simpa using no_finish token member
  unfold ByPosition.scanPieces
  split
  · exact kept
  · rw [List.filter_append, kept]
    exact List.append_nil _

/-- The one cursor of the scan gives the tokens of a text, and they tile it: each but the finish
has its span, nothing but white space and comments is left out, and the last token is the finish
at the length of the text or a string that is left open. -/
theorem scanTokens_tiles (text : Bytes) :
    ByPosition.scanTokens text = .ok (scanTokens text) ∧
      (∃ spans, Tiles text spans ((scanTokens text).tokens.filter (·.kind != .finish))) ∧
      Concluded text (scanTokens text) := by
  have way : Way text 0 (pieces text) := pieces_way text text 0 (Nat.zero_le _) rfl
  refine ⟨ByPosition.scanTokens_eq text, ⟨spansFrom 0 (pieces text), ?_⟩, way.concluded⟩
  have tokens : (scanTokens text).tokens.filter (·.kind != .finish) = lexemesFrom 0 (pieces text) :=
    lexemes_of_scan way.no_finish
  rw [tokens]
  constructor
  case reads => exact way.reads
  case filled => exact fun span member => (way.filled span member).2
  case apart => exact way.apart
  case skipped =>
    intro place b stands outside
    obtain space | ⟨opening, _, comment⟩ := way.skipped place b (Nat.zero_le _) stands outside
    · exact .inl space
    · exact .inr ⟨opening, comment⟩
  case comments => exact fun opening place => way.comments opening place (Nat.zero_le _)

end EndpointPreview.Notation
