import EndpointPreview.Proofs.LiteralReading
import EndpointPreview.Proofs.WholeText

/-!
Words of a text in UTF-8. A string starts and ends with an ASCII mark, and the backslash of an
escape is ASCII too, so the content of a string is of whole characters when the text around it is.
Numbers, names and known marks are plain. Only a character beyond ASCII that stands outside strings
is cut: each of its bytes is a word.
-/

namespace EndpointPreview.Notation

open Text Utf8

theorem escapeValue_plain (mark : UInt8) (low : mark ≤ 0x7F) : Plain (escapeValue mark) := by
  unfold escapeValue
  split_ifs
  all_goals simp [low]

theorem escapeValue_high (mark : UInt8) (high : ¬ mark ≤ 0x7F) : escapeValue mark = [mark] := by
  have other (known : UInt8) (low : known ≤ 0x7F) : ¬ (mark == known) = true := by
    rw [beq_iff_eq]
    rintro rfl
    exact high low
  unfold escapeValue
  rw [if_neg (other _ (by decide)), if_neg (other _ (by decide)), if_neg (other _ (by decide)),
    if_neg (other _ (by decide)), if_neg (other _ (by decide))]

theorem run_content (quote : UInt8) (low : quote ≤ 0x7F) (triple : Bool) (text : Bytes)
    (body : StringBody) (state : Expect) (read : run state text = some .boundary)
    (found : stringBody? quote triple text = some body) :
    run state body.content = some .boundary := by
  have ends (state : Expect) (rest : Bytes) (read : run state (quote :: rest) = some .boundary) :
      run state [] = some .boundary := by
    obtain ⟨next, stepped, _⟩ := run_cons state _ quote rest read
    rw [(at_boundary state next quote low stepped).1]
    rfl
  fun_induction stringBody? quote triple text generalizing body state with
  | case1 => cases found
  | case2 b closes =>
      cases found
      rw [Bool.and_eq_true, beq_iff_eq] at closes
      rw [closes.2] at read
      exact ends state [] read
  | case3 => cases found
  | case4 b next rest escape ih =>
      obtain ⟨inner, later, rfl⟩ := Option.map_eq_some_iff.mp found
      have slash : b ≤ 0x7F := by
        rw [beq_iff_eq.mp escape]
        decide
      obtain ⟨start, first, after⟩ := run_cons state _ b (next :: rest) read
      obtain ⟨rfl, rfl⟩ := at_boundary state start b slash first
      obtain ⟨middle, second, last⟩ := run_cons _ _ next rest after
      change run .boundary (escapeValue next ++ inner.content) = _
      by_cases plain : next ≤ 0x7F
      · obtain ⟨_, rfl⟩ := at_boundary _ middle next plain second
        rw [run_append, run_plain _ (escapeValue_plain next plain)]
        exact ih inner .boundary last later
      · -- A character after a backslash is kept, so its first byte is read as in the text.
        rw [escapeValue_high next plain, List.singleton_append, run, second]
        exact ih inner middle last later
  | case5 b next rest _ closes =>
      cases found
      obtain ⟨after, whole⟩ := List.isPrefixOf_iff_prefix.mp closes
      have front : b = quote := by
        cases triple with
        | false => exact (List.cons.inj whole).1.symm
        | true => exact (List.cons.inj whole).1.symm
      rw [front] at read
      exact ends state _ read
  | case6 => cases found
  | case7 b next rest _ _ _ ih =>
      obtain ⟨inner, later, rfl⟩ := Option.map_eq_some_iff.mp found
      obtain ⟨middle, stepped, last⟩ := run_cons state _ b (next :: rest) read
      change run state (b :: inner.content) = _
      rw [run, stepped]
      exact ih inner middle last later

theorem isQuote_le (b : UInt8) (quote : isQuote b = true) : b ≤ 0x7F := by
  simp only [isQuote, Bool.or_eq_true, beq_iff_eq] at quote
  rcases quote with (rfl | rfl) | rfl <;> decide

theorem closingMark_plain (quote : UInt8) (triple : Bool) (low : quote ≤ 0x7F) :
    Plain (closingMark quote triple) ∧ closingMark quote triple ≠ [] := by
  cases triple with
  | false => simp [closingMark, low]
  | true => simp [closingMark, low]

-- A word is of whole characters, unless it is a byte of a longer character outside strings.
inductive WordText : Word → Prop where
  | whole {word : Word} (valid : isValid word.2 = true) : WordText word
  | fragment (b : UInt8) (high : ¬ b ≤ 0x7F) : WordText (.other, [b])

theorem WordText.plain {word : Word} (plain : Plain word.2) : WordText word :=
  .whole (isValid_plain word.2 plain)

theorem isHexDigit_le (b : UInt8) (digit : isHexDigit b = true) : b ≤ 0x7F := by
  simp only [isHexDigit, Bool.or_eq_true, Bool.and_eq_true, decide_eq_true_eq] at digit
  rcases digit with (decimal | upper) | lower
  · exact Plain.isDigit_le b decimal
  · exact UInt8.le_trans upper.2 (by decide)
  · exact UInt8.le_trans lower.2 (by decide)

theorem isNumberByte_le (b : UInt8) (inside : isNumberByte b = true) : b ≤ 0x7F := by
  simp only [isNumberByte, Bool.or_eq_true, beq_iff_eq] at inside
  rcases inside with digit | rfl
  · exact Plain.isDigit_le b digit
  · decide

theorem takeWhile_plain (inClass : UInt8 → Bool) (low : ∀ b, inClass b = true → b ≤ 0x7F)
    (text : Bytes) : Plain (text.takeWhile inClass) := fun b member =>
  low b (List.mem_takeWhile_imp member)

theorem fractionPart_plain (text : Bytes) : Plain (fractionPart text) := by
  cases text with
  | nil => exact Plain.nil
  | cons b rest =>
      unfold fractionPart
      dsimp only
      split
      · rename_i point
        rw [Plain.cons_iff, beq_iff_eq.mp point]
        exact ⟨by decide, takeWhile_plain _ isNumberByte_le rest⟩
      · exact Plain.nil

theorem exponentPart_plain (text : Bytes) : Plain (exponentPart text) := by
  cases text with
  | nil => exact Plain.nil
  | cons mark rest =>
      have signed (exponent : (mark == byte 'e' || mark == byte 'E') = true) (sign : Bytes)
          (low : Plain sign) :
          Plain (if ((rest.drop sign.length).takeWhile isDigit).isEmpty then []
            else mark :: sign ++ (rest.drop sign.length).takeWhile isDigit) := by
        split
        · exact Plain.nil
        · rw [List.cons_append, Plain.cons_iff, Plain.append_iff]
          refine ⟨?_, low, takeWhile_plain isDigit Plain.isDigit_le _⟩
          simp only [Bool.or_eq_true, beq_iff_eq] at exponent
          rcases exponent with rfl | rfl <;> decide
      unfold exponentPart
      dsimp only
      split
      · rename_i exponent
        apply signed exponent
        split
        · split
          · rename_i sign
            simp only [Bool.or_eq_true, beq_iff_eq] at sign
            rcases sign with rfl | rfl <;> decide
          · exact Plain.nil
        · exact Plain.nil
      · exact Plain.nil

theorem plainNumber_plain (text : Bytes) : Plain (plainNumber text) := by
  unfold plainNumber
  dsimp only
  rw [Plain.append_iff, Plain.append_iff]
  exact ⟨⟨takeWhile_plain _ isNumberByte_le text, fractionPart_plain _⟩, exponentPart_plain _⟩

theorem numberText_plain (text : Bytes) : Plain (numberText text) := by
  unfold numberText
  split
  · split
    · rename_i hexadecimal
      simp only [Bool.and_eq_true, Bool.or_eq_true, beq_iff_eq] at hexadecimal
      obtain ⟨rfl, mark⟩ := hexadecimal
      rw [Plain.cons_iff, Plain.cons_iff]
      refine ⟨by decide, ?_, takeWhile_plain _ isHexDigit_le _⟩
      rcases mark with rfl | rfl <;> decide
    · exact plainNumber_plain _
  · exact plainNumber_plain text

theorem ofString_text (quote : UInt8) (after : Bytes) (quotes : isQuote quote = true)
    (ends : EndsWhole (quote :: after)) :
    ∀ word ∈ (Piece.ofString quote after).word?, WordText word := by
  have low := isQuote_le quote quotes
  obtain ⟨plain, nonempty⟩ := closingMark_plain quote (opensTriple quote after) low
  obtain ⟨rest, whole⟩ := opening_front quote after
  unfold Piece.ofString
  dsimp only
  rw [← whole, List.drop_left]
  rw [← whole] at ends
  have valid := ends.after_plain plain nonempty
  split
  · rename_i body found
    rintro word ⟨rfl⟩
    exact .whole ((isValid_iff _).mpr
      (run_content quote low _ rest body .boundary ((isValid_iff rest).mp valid) found))
  · rintro word ⟨rfl⟩
    refine .whole ?_
    dsimp only
    rw [whole, ← List.singleton_append]
    rw [whole, ← List.singleton_append] at ends
    exact isValid_append [quote] after (isValid_plain _ (by simp [low]))
      (ends.after_plain (by simp [low]) (List.cons_ne_nil _ _))

theorem markKind_high (b : UInt8) (high : ¬ b ≤ 0x7F) : markKind b = .other := by
  have other (known : UInt8) (low : known ≤ 0x7F) : ¬ (b == known) = true := by
    rw [beq_iff_eq]
    rintro rfl
    exact high low
  unfold markKind
  repeat rw [if_neg (other _ (by decide))]

theorem ofMark_text (b : UInt8) (after : Bytes) :
    ∀ word ∈ (Piece.ofMark b after).word?, WordText word := by
  have single : WordText (markKind b, [b]) := by
    by_cases low : b ≤ 0x7F
    · exact .plain (by simp [low])
    · rw [markKind_high b low]
      exact .fragment b low
  cases after with
  | nil =>
      rintro word ⟨rfl⟩
      exact single
  | cons next rest =>
      unfold Piece.ofMark
      dsimp only
      split
      · rename_i kind pair
        rintro word ⟨rfl⟩
        apply WordText.plain
        unfold pairKind? at pair
        split_ifs at pair with assign star
        · simp only [Bool.and_eq_true, beq_iff_eq] at assign
          obtain ⟨rfl, rfl⟩ := assign
          exact (by decide : Plain [byte '=', byte '='])
        · simp only [Bool.and_eq_true, beq_iff_eq] at star
          obtain ⟨rfl, rfl⟩ := star
          exact (by decide : Plain [byte '*', byte '*'])
      · rintro word ⟨rfl⟩
        exact single

theorem first_text (b : UInt8) (after : Bytes) (ends : EndsWhole (b :: after)) :
    ∀ word ∈ (Piece.first b after).word?, WordText word := by
  refine first_cases b after (fun _ => ?space) ?comment (fun quotes => ?quote) (fun _ => ?number)
    (fun start => ?name) ?mark
  case space => rintro word ⟨⟩
  case comment => rintro word ⟨⟩
  case quote => exact ofString_text b after quotes ends
  case number =>
    rintro word ⟨rfl⟩
    exact .plain (numberText_plain _)
  case name =>
    rintro word ⟨rfl⟩
    have low : b ≤ 0x7F := by
      simp only [isWordStart, Bool.or_eq_true, beq_iff_eq] at start
      rcases start with letter | rfl
      · exact Plain.isAlpha_le b letter
      · decide
    exact .plain ((Plain.cons_iff b _).mpr
      ⟨low, takeWhile_plain _ Plain.isWordByte_le after⟩)
  case mark => exact ofMark_text b after

theorem words_text (text : Bytes) (ends : EndsWhole text) : ∀ word ∈ words text, WordText word :=
  forall_words text fun b after back => first_text b after (ends.suffix back)

theorem scanTokens_text (text : Bytes) (ends : EndsWhole text) :
    ∀ token ∈ (scanTokens text).tokens, WordText token.word := by
  have found : ∀ token ∈ lexemesFrom 0 (pieces text), WordText token.word := by
    intro token member
    apply words_text text ends
    rw [words, ← lexemes_words 0]
    exact List.mem_map_of_mem member
  unfold scanTokens
  dsimp only
  split
  · exact found
  · refine List.forall_mem_append.mpr ⟨found, ?_⟩
    rintro token member
    rw [List.mem_singleton.mp member]
    exact .whole rfl

def WholeWord (word : Word) : Prop := word.1 = .string → isValid word.2 = true

theorem WordText.wholeWord {word : Word} (text : WordText word) : WholeWord word := by
  cases text with
  | whole valid => exact fun _ => valid
  | fragment b high => rintro ⟨⟩

def WholeTokens (tokens : TokenRest) : Prop := ∀ token ∈ tokens, WholeWord token.word

theorem scanTokens_whole (text : Bytes) (ends : EndsWhole text) :
    WholeTokens (scanTokens text).tokens := fun token member =>
  (scanTokens_text text ends token member).wholeWord

namespace WholeTokens

variable {tokens : TokenRest}

theorem suffix (whole : WholeTokens tokens) {rest : TokenRest} (back : rest <:+ tokens) :
    WholeTokens rest := fun token member => whole token (back.subset member)

theorem drop (whole : WholeTokens tokens) (count : Nat) : WholeTokens (tokens.drop count) :=
  whole.suffix (List.drop_suffix count tokens)

end WholeTokens

end EndpointPreview.Notation
