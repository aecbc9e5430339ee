import EndpointPreview.Notation.Literal
import EndpointPreview.Proofs.Pieces

/-!
The words of a text: its tokens without their places. Reading looks at words only.
-/

namespace EndpointPreview.Notation

open Text

abbrev Word := TokenKind × Bytes

def Piece.word? : Piece → Option Word
  | gap _ => none
  | lexeme kind text _ => some (kind, text)

def words (text : Bytes) : List Word := (pieces text).filterMap Piece.word?

def stringsClosed (text : Bytes) : Bool := (pieces text).all (!·.isInvalid)

def Piece.staysInRow : Piece → Bool
  | lexeme .string _ raw => !raw.contains newline
  | _ => true

def stringsInRow (text : Bytes) : Bool := (pieces text).all Piece.staysInRow

theorem ofMark_kind (b : UInt8) (after : Bytes) :
    ∀ word ∈ (Piece.ofMark b after).word?,
      word.1 ≠ .finish ∧ word.1 ≠ .invalid ∧ word.1 ≠ .string := by
  have either {test : Prop} [Decidable test] {first second : TokenKind}
      (one : first ≠ .finish ∧ first ≠ .invalid ∧ first ≠ .string)
      (two : second ≠ .finish ∧ second ≠ .invalid ∧ second ≠ .string) :
      (if test then first else second) ≠ .finish ∧
        (if test then first else second) ≠ .invalid ∧
          (if test then first else second) ≠ .string := by
    split <;> assumption
  have mark : markKind b ≠ .finish ∧ markKind b ≠ .invalid ∧ markKind b ≠ .string := by
    unfold markKind
    repeat' apply either
    all_goals decide
  have pair (next : UInt8) (kind : TokenKind) (paired : pairKind? b next = some kind) :
      kind ≠ .finish ∧ kind ≠ .invalid ∧ kind ≠ .string := by
    unfold pairKind? at paired
    split_ifs at paired <;> cases paired <;> decide
  cases after with
  | nil => simpa [Piece.ofMark, Piece.plain, Piece.word?] using mark
  | cons next after =>
      cases paired : pairKind? b next with
      | none => simpa [Piece.ofMark, Piece.plain, Piece.word?, paired] using mark
      | some kind =>
          simpa [Piece.ofMark, Piece.plain, Piece.word?, paired] using pair next kind paired

theorem first_kind (b : UInt8) (after : Bytes) :
    ∀ word ∈ (Piece.first b after).word?, word.1 ≠ .finish := by
  refine first_cases b after (fun _ => ?space) ?comment (fun _ => ?quote) (fun _ => ?number)
    (fun _ => ?name) ?mark
  case space => rintro word ⟨⟩
  case comment => rintro word ⟨⟩
  case quote =>
    unfold Piece.ofString
    dsimp only
    split <;> rintro word ⟨⟩ ⟨⟩
  case number => rintro word ⟨⟩ ⟨⟩
  case name => rintro word ⟨⟩ ⟨⟩
  case mark => exact fun word member => (ofMark_kind b after word member).1

theorem words_cons (b : UInt8) (after : Bytes) :
    words (b :: after) = (Piece.first b after).word?.toList ++
      words ((b :: after).drop (Piece.first b after).raw.length) := by
  unfold words
  rw [pieces_cons, List.filterMap_cons]
  cases (Piece.first b after).word? <;> rfl

/-- What holds of every word at the front of an end of the text holds of all its words. -/
theorem forall_words {holds : Word → Prop} (text : Bytes)
    (each : ∀ b after, b :: after <:+ text → ∀ word ∈ (Piece.first b after).word?, holds word) :
    ∀ word ∈ words text, holds word := by
  induction measure : text.length using Nat.strong_induction_on generalizing text with
  | _ size ih =>
      cases text with
      | nil =>
          intro word member
          cases member
      | cons b after =>
          obtain ⟨rest, whole, dropped, shorter⟩ := first_rest b after
          rw [words_cons, dropped]
          intro word member
          rcases List.mem_append.mp member with front | later
          · exact each b after List.suffix_rfl word (Option.mem_toList.mp front)
          · have back : rest <:+ b :: after := ⟨_, whole.symm⟩
            refine ih rest.length ?_ rest (fun c more inside => each c more (inside.trans back))
              rfl word later
            rw [← measure]
            exact Nat.lt_succ_of_le shorter

theorem words_kind (text : Bytes) : ∀ word ∈ words text, word.1 ≠ .finish :=
  forall_words text fun b after _ => first_kind b after

theorem stringsClosed_cons (b : UInt8) (after : Bytes) :
    stringsClosed (b :: after) = (!(Piece.first b after).isInvalid &&
      stringsClosed ((b :: after).drop (Piece.first b after).raw.length)) := by
  unfold stringsClosed
  rw [pieces_cons, List.all_cons]

theorem stringsInRow_cons (b : UInt8) (after : Bytes) :
    stringsInRow (b :: after) = ((Piece.first b after).staysInRow &&
      stringsInRow ((b :: after).drop (Piece.first b after).raw.length)) := by
  unfold stringsInRow
  rw [pieces_cons, List.all_cons]

theorem first_space (space : UInt8) (after : Bytes) (blank : isSpace space = true) :
    Piece.first space after = .gap [space] := by
  unfold Piece.first
  rw [if_pos blank]

theorem words_gap (gap text : Bytes) (blank : isBlank gap = true) :
    words (gap ++ text) = words text ∧ stringsClosed (gap ++ text) = stringsClosed text ∧
      stringsInRow (gap ++ text) = stringsInRow text := by
  induction gap with
  | nil => exact ⟨rfl, rfl, rfl⟩
  | cons space gap ih =>
      simp only [isBlank_cons, Bool.and_eq_true] at blank
      rw [List.cons_append, words_cons, stringsClosed_cons, stringsInRow_cons,
        first_space _ _ blank.1]
      exact ih blank.2

theorem words_comment (after : Bytes) :
    words (byte '#' :: after) = words (after.dropWhile (· != newline)) ∧
      stringsClosed (byte '#' :: after) = stringsClosed (after.dropWhile (· != newline)) ∧
      stringsInRow (byte '#' :: after) = stringsInRow (after.dropWhile (· != newline)) := by
  have comment : Piece.first (byte '#') after =
      .gap (byte '#' :: after.takeWhile (· != newline)) := rfl
  rw [words_cons, stringsClosed_cons, stringsInRow_cons, comment]
  simp only [Piece.raw, List.length_cons, List.drop_succ_cons, drop_takeWhile]
  exact ⟨rfl, rfl, rfl⟩

structure Cuts (offset : Nat) (front : Bytes) (tokens : List Token) (rest : Bytes) : Prop where
  tokens : lexemesFrom offset (pieces (front ++ rest)) =
    tokens ++ lexemesFrom (offset + front.length) (pieces rest)
  closed : stringsClosed (front ++ rest) = stringsClosed rest

namespace Cuts

variable {offset : Nat} {b : UInt8} {front back rest : Bytes} {tokens more : List Token}

theorem append (first : Cuts offset front tokens (back ++ rest))
    (second : Cuts (offset + front.length) back more rest) :
    Cuts offset (front ++ back) (tokens ++ more) rest where
  tokens := by
    rw [List.append_assoc, first.tokens, second.tokens, List.append_assoc, List.length_append,
      Nat.add_assoc]
  closed := by rw [List.append_assoc, first.closed, second.closed]

theorem lexeme {kind : TokenKind} {text : Bytes} (valid : kind ≠ .invalid)
    (first : Piece.first b (front ++ rest) = .lexeme kind text (b :: front)) :
    Cuts offset (b :: front) [⟨kind, text, offset⟩] rest where
  tokens := by
    rw [List.cons_append, pieces_cons, first, ← List.cons_append]
    simp [Piece.raw, lexemesFrom]
  closed := by
    have valid : (Piece.lexeme kind text (b :: front)).isInvalid = false := by
      cases kind <;> first | rfl | exact absurd rfl valid
    rw [List.cons_append, stringsClosed_cons, first, valid, ← List.cons_append]
    simp [Piece.raw]

theorem gap (space : UInt8) (blank : isSpace space = true) : Cuts offset [space] [] rest where
  tokens := by
    rw [List.singleton_append, pieces_cons, first_space space rest blank]
    simp [Piece.raw, lexemesFrom]
  closed := (words_gap [space] rest (by simp [isBlank, blank])).2.1

end Cuts

end EndpointPreview.Notation
