import EndpointPreview.Proofs.LiteralDerivations
import EndpointPreview.Proofs.Numerals
import EndpointPreview.StrictFormats

/-!
Whole numbers in their spellings: decimal digits with underscores between some of them, or
hexadecimal digits behind a mark, and a sign before either. A spelling is one number token. Its
magnitude is read before the sign is applied, so the least number of 64 bits has no literal.
-/

namespace EndpointPreview.Notation

open Text

def literalEnds : Bytes := [byte ',', byte ':', byte ']', closeBrace]

-- What stands behind a literal: nothing, or a mark that ends it.
def EndsLiteral (rest : Bytes) : Prop := ∀ b ∈ rest.head?, b ∈ literalEnds

theorem EndsLiteral.outside {rest : Bytes} (ends : EndsLiteral rest) (inClass : UInt8 → Bool)
    (marks : literalEnds.all (!inClass ·) = true) : ∀ b ∈ rest.head?, inClass b = false := by
  intro b head
  simpa using List.all_eq_true.mp marks b (ends b head)

theorem EndsLiteral.no_part {rest : Bytes} (ends : EndsLiteral rest) :
    fractionPart rest = [] ∧ exponentPart rest = [] := by
  cases rest with
  | nil => exact ⟨rfl, rfl⟩
  | cons b rest =>
      have known := ends b rfl
      simp only [literalEnds, List.mem_cons, List.not_mem_nil, or_false] at known
      rcases known with rfl | rfl | rfl | rfl <;> exact ⟨rfl, rfl⟩

inductive Scored : Bytes → Bytes → Prop where
  | last (digit : UInt8) : Scored [digit] [digit]
  | next {digits text : Bytes} (digit : UInt8) (later : Scored digits text) :
      Scored (digit :: digits) (digit :: text)
  | score {digits text : Bytes} (digit : UInt8) (later : Scored digits text) :
      Scored (digit :: digits) (digit :: byte '_' :: text)

inductive SpellsNatural : Bytes → Nat → Prop where
  | decimal {text : Bytes} (n : Nat) (scored : Scored (decimal n) text) : SpellsNatural text n
  | hexadecimal (digits : Bytes) (some_digit : digits ≠ [])
      (all : ∀ b ∈ digits, isHexDigit b = true) :
      SpellsNatural (ascii "0x" ++ digits) (Numeral.ofDigits 16 digits)

inductive SpellsInteger : Bytes → Int → Prop where
  | plain {text : Bytes} {n : Nat} (spelled : SpellsNatural text n) : SpellsInteger text n
  | positive {text : Bytes} {n : Nat} (spelled : SpellsNatural text n) :
      SpellsInteger (byte '+' :: text) n
  | negative {text : Bytes} {n : Nat} (spelled : SpellsNatural text n) :
      SpellsInteger (byte '-' :: text) (-n)

namespace Scored

variable {digits text : Bytes}

theorem plain (some_digit : digits ≠ []) : Scored digits digits := by
  induction digits with
  | nil => exact absurd rfl some_digit
  | cons digit later ih =>
      cases later with
      | nil => exact .last digit
      | cons => exact .next digit (ih (List.cons_ne_nil _ _))

theorem digits_of (scored : Scored digits text) (all : AllDigits digits) :
    text.filter (· != byte '_') = digits := by
  have kept (digit : UInt8) (own : isDigit digit = true) (later : Bytes) :
      (digit :: later).filter (· != byte '_') = digit :: later.filter (· != byte '_') :=
    List.filter_cons_of_pos (by simpa using digit_apart digit (byte '_') own rfl)
  induction scored with
  | last digit => exact kept digit (all digit List.mem_cons_self) []
  | next digit _ ih =>
      obtain ⟨own, others⟩ := List.forall_mem_cons.mp all
      rw [kept digit own, ih others]
  | score digit _ ih =>
      obtain ⟨own, others⟩ := List.forall_mem_cons.mp all
      rw [kept digit own, List.filter_cons_of_neg (by decide), ih others]

/-- A spelling starts with a digit and goes on with bytes of numbers. -/
theorem number_bytes (scored : Scored digits text) (all : AllDigits digits) :
    ∃ first later, text = first :: later ∧ isDigit first = true ∧
      ∀ b ∈ text, isNumberByte b = true := by
  have number (digit : UInt8) (own : isDigit digit = true) : isNumberByte digit = true := by
    rw [isNumberByte, own, Bool.true_or]
  induction scored with
  | last digit =>
      have own := all digit List.mem_cons_self
      exact ⟨digit, [], rfl, own, by simpa using number digit own⟩
  | next digit _ ih =>
      obtain ⟨own, others⟩ := List.forall_mem_cons.mp all
      obtain ⟨_, _, _, _, inside⟩ := ih others
      exact ⟨digit, _, rfl, own, List.forall_mem_cons.mpr ⟨number digit own, inside⟩⟩
  | @score digits text digit _ ih =>
      obtain ⟨own, others⟩ := List.forall_mem_cons.mp all
      obtain ⟨_, _, _, _, inside⟩ := ih others
      have scored : ∀ b ∈ byte '_' :: text, isNumberByte b = true :=
        List.forall_mem_cons.mpr ⟨rfl, inside⟩
      exact ⟨digit, _, rfl, own, List.forall_mem_cons.mpr ⟨number digit own, scored⟩⟩

end Scored

theorem plainNumber_run {text rest : Bytes} (all : ∀ b ∈ text, isNumberByte b = true)
    (ends : EndsLiteral rest) : plainNumber (text ++ rest) = text := by
  have run := (takeWhile_run isNumberByte text rest all (ends.outside _ (by decide))).1
  unfold plainNumber
  simp [run, ends.no_part]

theorem numberText_run {text rest : Bytes} (some_byte : text ≠ [])
    (all : ∀ b ∈ text, isNumberByte b = true) (ends : EndsLiteral rest) :
    numberText (text ++ rest) = text := by
  have plain := plainNumber_run all ends
  let isHexMark (x : UInt8) : Bool := x == byte 'x' || x == byte 'X'
  have no_mark : ∀ x ∈ ((text ++ rest).drop 1).head?, isHexMark x = false := by
    intro x second
    obtain ⟨first, later, rfl⟩ := List.exists_cons_of_ne_nil some_byte
    cases later with
    | nil => exact ends.outside isHexMark (by decide) x second
    | cons other later =>
        cases second
        have number := all x (by simp)
        simp only [isNumberByte, Bool.or_eq_true, beq_iff_eq] at number
        rcases number with digit | rfl
        · exact digit_outside isHexMark (by decide) digit
        · rfl
  unfold numberText
  split
  next first x more whole =>
    rw [whole] at no_mark
    have decimal : (x == byte 'x' || x == byte 'X') = false := no_mark x rfl
    rw [decimal, Bool.and_false, if_neg (by decide), plain]
  next => exact plain

theorem numberText_hexadecimal {digits rest : Bytes} (all : ∀ b ∈ digits, isHexDigit b = true)
    (ends : EndsLiteral rest) :
    numberText (ascii "0x" ++ digits ++ rest) = ascii "0x" ++ digits := by
  have run := (takeWhile_run isHexDigit digits rest all (ends.outside _ (by decide))).1
  have marked : numberText (byte '0' :: byte 'x' :: (digits ++ rest)) =
      byte '0' :: byte 'x' :: (digits ++ rest).takeWhile isHexDigit := rfl
  rw [run] at marked
  exact marked

namespace SpellsNatural

variable {text : Bytes} {n : Nat}

theorem numberText_eq (spelled : SpellsNatural text n) {rest : Bytes} (ends : EndsLiteral rest) :
    numberText (text ++ rest) = text := by
  cases spelled with
  | decimal n scored =>
      obtain ⟨first, later, rfl, _, all⟩ := scored.number_bytes (.decimal n)
      exact numberText_run (List.cons_ne_nil _ _) all ends
  | hexadecimal digits _ all => exact numberText_hexadecimal all ends

theorem starts (spelled : SpellsNatural text n) :
    ∃ first later, text = first :: later ∧ isDigit first = true := by
  cases spelled with
  | decimal n scored =>
      obtain ⟨first, later, whole, digit, _⟩ := scored.number_bytes (.decimal n)
      exact ⟨first, later, whole, digit⟩
  | hexadecimal digits _ _ => exact ⟨byte '0', byte 'x' :: digits, rfl, rfl⟩

theorem cuts (spelled : SpellsNatural text n) (offset : Nat) {rest : Bytes}
    (ends : EndsLiteral rest) : Cuts offset text [⟨.number, text, offset⟩] rest := by
  have number := spelled.numberText_eq ends
  obtain ⟨first, later, rfl, digit⟩ := spelled.starts
  have solid := digit_solid first digit
  have no_comment : (first == byte '#') = false := digit_outside (· == byte '#') (by decide) digit
  have no_quote : isQuote first = false := digit_outside _ (by decide) digit
  have starts : startsNumber (first :: (later ++ rest)) = true := by
    rw [startsNumber, digit, Bool.true_or]
  rw [List.cons_append] at number
  apply Cuts.lexeme (by decide)
  unfold Piece.first
  rw [solid, no_comment, no_quote, starts, number]
  rfl

end SpellsNatural

theorem decimal_number (n : Nat) : isHexLiteral (decimal n) = false ∧
    isFloatLiteral (decimal n) = false := by
  have no_mark (word : Bytes) (mark : UInt8) (inside : mark ∈ word) (other : isDigit mark = false) :
      startsWith word (decimal n) = false := by
    rw [startsWith, Bool.eq_false_iff]
    intro front
    exact not_mem_decimal mark n other ((List.isPrefixOf_iff_prefix.mp front).subset inside)
  have no_hex : isHexLiteral (decimal n) = false := by
    rw [isHexLiteral, no_mark _ (byte 'x') (by decide) rfl, no_mark _ (byte 'X') (by decide) rfl,
      Bool.or_false, Bool.and_false]
  have no_float : isFloatLiteral (decimal n) = false := by
    rw [isFloatLiteral, List.any_eq_false]
    intro b member
    have apart := digit_outside (fun b => b == byte '.' || b == byte 'e' || b == byte 'E')
      (by decide) (AllDigits.decimal n b member)
    exact Bool.eq_false_iff.mp apart
  exact ⟨no_hex, no_float⟩

theorem opposite_natural (n : Nat) (small : (n : Int) < Numeral.limit64) :
    Numeral.opposite64 n = -n := by
  unfold Numeral.limit64 at small
  unfold Numeral.opposite64 Numeral.limit64
  rw [if_neg (by omega)]

theorem hexadecimal_number {digits : Bytes} (some_digit : digits ≠ [])
    (all : ∀ b ∈ digits, isHexDigit b = true) :
    (ascii "0x" ++ digits).filter (· != byte '_') = ascii "0x" ++ digits ∧
      isHexLiteral (ascii "0x" ++ digits) = true := by
  obtain ⟨first, later, rfl⟩ := List.exists_cons_of_ne_nil some_digit
  have marked : ∀ b ∈ ascii "0x", (b != byte '_') = true := by decide +kernel
  refine ⟨List.filter_eq_self.mpr fun b member => ?_, by simp [isHexLiteral, startsWith, ascii]⟩
  rcases List.mem_append.mp member with mark | digit
  · exact marked b mark
  · rw [bne_iff_ne]
    rintro rfl
    cases all _ digit

namespace SpellsNatural

variable {text : Bytes} {n : Nat}

/-- The magnitude must have 63 bits, whatever the sign. -/
theorem value (spelled : SpellsNatural text n) (negative : Bool) :
    numberValue negative text =
      if (n : Int) < Numeral.limit64 then some (.int (if negative then -n else n)) else none := by
  have signed : ((Numeral.fits64 n).map fun m =>
      Json.int (if negative then Numeral.opposite64 m else m)) =
      if (n : Int) < Numeral.limit64 then some (.int (if negative then -n else n)) else none := by
    rw [Numeral.fits64_natural]
    by_cases small : (n : Int) < Numeral.limit64
    · rw [if_pos small, if_pos small, Option.map_some, opposite_natural n small]
    · rw [if_neg small, if_neg small, Option.map_none]
  unfold numberValue
  dsimp only
  cases spelled with
  | decimal n scored =>
      obtain ⟨no_hex, no_float⟩ := decimal_number n
      rw [scored.digits_of (.decimal n), no_hex, no_float, Numeral.int64_decimal]
      exact signed
  | hexadecimal digits some_digit all =>
      obtain ⟨no_score, hexadecimal⟩ := hexadecimal_number some_digit all
      rw [no_score, hexadecimal, if_pos rfl, Numeral.hexInt64_digits digits some_digit all]
      exact signed

end SpellsNatural

theorem literal_number [Json.Dialect] {text : Bytes} {n : Nat} (spelled : SpellsNatural text n) :
    literal? text = numberValue false text := by
  have nothing : EndsLiteral [] := by rintro b ⟨⟩
  rw [(spelled.cuts 0 nothing).literal_eq]
  unfold literalOfTokens readValue
  simp only [List.singleton_append, nextKind_cons, readNumber, ↓reduceIte, nextText_cons]
  cases numberValue false text <;> rfl

theorem literal_signed [Json.Dialect] {text : Bytes} {n : Nat} (spelled : SpellsNatural text n) :
    literal? (byte '+' :: text) = numberValue false text ∧
      literal? (byte '-' :: text) = numberValue true text := by
  have nothing : EndsLiteral [] := by rintro b ⟨⟩
  have number := spelled.cuts 1 nothing
  have sign (b : UInt8) (kind : TokenKind) (valid : kind ≠ .invalid)
      (first : ∀ after, Piece.first b after = .lexeme kind [b] [b]) :
      Cuts 0 (b :: text) [⟨kind, [b], 0⟩, ⟨.number, text, 1⟩] [] :=
    (Cuts.lexeme valid (first _)).append number
  have plus := sign (byte '+') .plus (by decide) fun after => by cases after <;> rfl
  have minus := sign (byte '-') .minus (by decide) fun after => by cases after <;> rfl
  rw [plus.literal_eq, minus.literal_eq]
  unfold literalOfTokens readValue
  simp only [List.cons_append, List.nil_append, nextKind_cons, List.drop_succ_cons, List.drop_zero,
    readNumber, ↓reduceIte, nextText_cons]
  constructor
  · cases numberValue false text <;> rfl
  · cases numberValue true text <;> rfl

/-- Every spelling of a number of 64 bits but the least one is read as that number, and no
spelling of another number is read. -/
theorem literal_integer [Json.Dialect] {text : Bytes} {n : Int} (spelled : SpellsInteger text n) :
    literal? text =
      if -Numeral.limit64 < n ∧ n < Numeral.limit64 then some (.int n) else none := by
  have positive : 0 < Numeral.limit64 := by decide
  cases spelled with
  | @plain text n spelled =>
      rw [literal_number spelled, spelled.value false]
      congr 1
      rw [eq_iff_iff]
      omega
  | @positive text n spelled =>
      rw [(literal_signed spelled).1, spelled.value false]
      congr 1
      rw [eq_iff_iff]
      omega
  | @negative text n spelled =>
      rw [(literal_signed spelled).2, spelled.value true]
      congr 1
      rw [eq_iff_iff]
      omega

section Strict

attribute [local instance] Json.strict

-- One above the least number, the greatest one, and one with an underscore.
theorem literal_integer_ends :
    literal? (ascii "-0x7fffFFFFffffFFFF") = some (.int (-9223372036854775807)) ∧
      literal? (ascii "+9223372036854775807") = some (.int 9223372036854775807) ∧
      literal? (ascii "9223372036854775808") = none ∧ literal? (ascii "1_00") = some (.int 100) := by
  have hexadecimal : SpellsNatural (ascii "0x7fffFFFFffffFFFF") 9223372036854775807 :=
    .hexadecimal (ascii "7fffFFFFffffFFFF") (by decide) (by decide +kernel)
  have greatest : SpellsNatural (ascii "9223372036854775807") 9223372036854775807 :=
    .decimal _ (.plain (decimal_ne_nil _))
  have beyond : SpellsNatural (ascii "9223372036854775808") 9223372036854775808 :=
    .decimal _ (.plain (decimal_ne_nil _))
  have hundred : SpellsNatural (ascii "1_00") 100 :=
    .decimal 100 (.score (byte '1') (.plain (by decide)))
  exact ⟨literal_integer (.negative hexadecimal), literal_integer (.positive greatest),
    literal_integer (.plain beyond), literal_integer (.plain hundred)⟩

-- The magnitude of the least number has 64 bits.
theorem leastInteger_unread :
    SpellsInteger (ascii "-9223372036854775808") (-Numeral.limit64) ∧
    literal? (ascii "-9223372036854775808") = none ∧
    ¬ ∀ (text : Bytes) (n : Int), SpellsInteger text n → literal? text =
      if -Numeral.limit64 ≤ n ∧ n < Numeral.limit64 then some (.int n) else none := by
  have magnitude : SpellsNatural (ascii "9223372036854775808") 9223372036854775808 :=
    .decimal _ (.plain (decimal_ne_nil _))
  have spelled : SpellsInteger (ascii "-9223372036854775808") (-Numeral.limit64) :=
    .negative magnitude
  have unread : literal? (ascii "-9223372036854775808") = none := by
    decide +kernel
  refine ⟨spelled, unread, fun always => ?_⟩
  have read := always _ _ spelled
  rw [unread, if_pos (by decide)] at read
  cases read

end Strict

end EndpointPreview.Notation
