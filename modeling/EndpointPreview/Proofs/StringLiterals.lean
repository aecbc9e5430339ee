import EndpointPreview.Proofs.LiteralDerivations
import EndpointPreview.Proofs.StringBodies
import EndpointPreview.Text.Numeral

/-!
Python's string literals without a prefix, in single or double quotes, plain or tripled, with the
string that Python assigns to them and the one that is read. A literal is a row of parts: the
characters that stand for themselves, the line ends, and the escapes.
-/

namespace EndpointPreview.Notation

open Text

inductive LineEnd where
  | lineFeed
  | carriageReturn
  | both
  deriving DecidableEq

def LineEnd.raw : LineEnd → Bytes
  | lineFeed => [newline]
  | carriageReturn => [Text.carriageReturn]
  | both => [Text.carriageReturn, newline]

def markEscapes : List (UInt8 × UInt8) :=
  [(backslash, backslash), (singleQuote, singleQuote), (doubleQuote, doubleQuote), (byte 'a', 7),
    (byte 'b', 8), (byte 't', 9), (byte 'n', 10), (byte 'v', 11), (byte 'f', 12), (byte 'r', 13)]

def escapeMarks : Bytes :=
  markEscapes.map Prod.fst ++ ascii "01234567xuUN" ++ [newline, carriageReturn]

inductive CodeWidth where
  | two
  | four
  | eight
  deriving DecidableEq

namespace CodeWidth

def letter : CodeWidth → UInt8
  | two => byte 'x'
  | four => byte 'u'
  | eight => byte 'U'

def digits : CodeWidth → Nat
  | two => 2
  | four => 4
  | eight => 8

end CodeWidth

def isNameByte (b : UInt8) : Bool := isAlnum b || b == byte ' ' || b == byte '-'

inductive StringPart where
  | character (c : Char)
  | lineEnd (written : LineEnd)
  | continuation (written : LineEnd)
  | mark (written value : UInt8)
  | octal (digits : Bytes)
  | code (width : CodeWidth) (digits : Bytes)
  | named (name : Bytes)
  | unknown (c : Char)

namespace StringPart

def raw : StringPart → Bytes
  | character c => Utf8.encode c.toNat
  | lineEnd written => written.raw
  | continuation written => backslash :: written.raw
  | mark written _ => [backslash, written]
  | octal digits => backslash :: digits
  | code width digits => backslash :: width.letter :: digits
  | named name => backslash :: byte 'N' :: openBrace :: (name ++ [closeBrace])
  | unknown c => backslash :: Utf8.encode c.toNat

/-- The code points that Python assigns to the part, where `names` finds characters by name. -/
def points (names : Bytes → Nat) : StringPart → List Nat
  | character c => [c.toNat]
  | lineEnd _ => [newline.toNat]
  | continuation _ => []
  | mark _ value => [value.toNat]
  | octal digits => [Numeral.ofDigits 8 digits]
  | code _ digits => [Numeral.ofDigits 16 digits]
  | named name => [names name]
  | unknown c => [backslash.toNat, c.toNat]

def value (names : Bytes → Nat) (part : StringPart) : Bytes :=
  (part.points names).flatMap Utf8.encode

def read : StringPart → Bytes
  | character c => Utf8.encode c.toNat
  | lineEnd written => written.raw
  | continuation .lineFeed => []
  | continuation written => written.raw
  | mark written _ => escapeValue written
  | octal [] => []
  | octal (first :: digits) => escapeValue first ++ digits
  | code width digits => width.letter :: digits
  | named name => byte 'N' :: openBrace :: (name ++ [closeBrace])
  | unknown c => Utf8.encode c.toNat

def Valid (triple : Bool) : StringPart → Prop
  | character c => c.toNat ∉ [0, newline.toNat, carriageReturn.toNat, backslash.toNat]
  | lineEnd _ => triple = true
  | continuation _ => True
  | mark written value => (written, value) ∈ markEscapes
  | octal digits => digits ≠ [] ∧ digits.length ≤ 3 ∧ digits.all Numeral.isOctalDigit = true
  | code width digits => digits.length = width.digits ∧ digits.all isHexDigit = true ∧
      Numeral.ofDigits 16 digits ≤ 0x10FFFF
  | named name => name ≠ [] ∧ name.all isNameByte = true
  | unknown c => c.toNat ∉ 0 :: escapeMarks.map UInt8.toNat

instance (triple : Bool) : (part : StringPart) → Decidable (part.Valid triple)
  | character _ => inferInstanceAs (Decidable (¬ _))
  | lineEnd _ => inferInstanceAs (Decidable (_ = _))
  | continuation _ => inferInstanceAs (Decidable True)
  | mark _ _ => inferInstanceAs (Decidable (_ ∈ _))
  | octal _ => inferInstanceAs (Decidable (_ ∧ _))
  | code _ _ => inferInstanceAs (Decidable (_ ∧ _))
  | named _ => inferInstanceAs (Decidable (_ ∧ _))
  | unknown _ => inferInstanceAs (Decidable (¬ _))

def Ends (quote : UInt8) (triple : Bool) (behind : Bytes) : StringPart → Prop
  | character c => ¬ closingMark quote triple <+: Utf8.encode c.toNat ++ behind
  | lineEnd .carriageReturn => behind.head? ≠ some newline
  | continuation .carriageReturn => behind.head? ≠ some newline
  | octal digits => digits.length < 3 → behind.head?.all (!Numeral.isOctalDigit ·) = true
  | _ => True

instance (quote : UInt8) (triple : Bool) (behind : Bytes) :
    (part : StringPart) → Decidable (part.Ends quote triple behind)
  | character _ => inferInstanceAs (Decidable (¬ _))
  | lineEnd .carriageReturn => inferInstanceAs (Decidable (_ ≠ _))
  | continuation .carriageReturn => inferInstanceAs (Decidable (_ ≠ _))
  | octal _ => inferInstanceAs (Decidable (_ < _ → _))
  | lineEnd .lineFeed | lineEnd .both | continuation .lineFeed | continuation .both
  | mark _ _ | code _ _ | named _ | unknown _ => inferInstanceAs (Decidable True)

end StringPart

-- The parts stand in a string one after the other, and none of them closes it.
inductive StringRow (quote : UInt8) (triple : Bool) : List StringPart → Prop where
  | nil : StringRow quote triple []
  | cons {part : StringPart} {later : List StringPart} (valid : part.Valid triple)
      (ends : part.Ends quote triple (later.flatMap StringPart.raw ++ closingMark quote triple))
      (more : StringRow quote triple later) : StringRow quote triple (part :: later)

instance StringRow.decidable (quote : UInt8) (triple : Bool) :
    (parts : List StringPart) → Decidable (StringRow quote triple parts)
  | [] => .isTrue .nil
  | part :: later =>
      have := StringRow.decidable quote triple later
      decidable_of_iff (part.Valid triple ∧
          part.Ends quote triple (later.flatMap StringPart.raw ++ closingMark quote triple) ∧
          StringRow quote triple later)
        ⟨fun ⟨valid, ends, more⟩ => .cons valid ends more, fun
          | .cons valid ends more => ⟨valid, ends, more⟩⟩

structure StringLiteral where
  quote : UInt8
  triple : Bool
  parts : List StringPart
  quoted : quote = singleQuote ∨ quote = doubleQuote
  row : StringRow quote triple parts

namespace StringLiteral

def text (literal : StringLiteral) : Bytes :=
  closingMark literal.quote literal.triple ++
    (literal.parts.flatMap StringPart.raw ++ closingMark literal.quote literal.triple)

def value (names : Bytes → Nat) (literal : StringLiteral) : Bytes :=
  literal.parts.flatMap (StringPart.value names)

end StringLiteral

def stringMarks : Bytes := [backslash, singleQuote, doubleQuote, newline]

def Solid (text : Bytes) : Prop := ∀ b ∈ text, b ∉ stringMarks

theorem Solid.of_class {text : Bytes} (inClass : UInt8 → Bool)
    (all : text.all inClass = true) (apart : stringMarks.all (!inClass ·) = true) :
    Solid text := by
  intro b member mark
  have outside := List.all_eq_true.mp apart b mark
  rw [List.all_eq_true.mp all b member] at outside
  cases outside

section Passing

variable {quote : UInt8} {triple : Bool} {text behind : Bytes}

theorem quoted_mark (quoted : quote = singleQuote ∨ quote = doubleQuote) :
    isQuote quote = true := by
  rcases quoted with rfl | rfl <;> rfl

theorem Solid.passes (solid : Solid text) (quoted : quote = singleQuote ∨ quote = doubleQuote) :
    Passes quote triple text text behind := by
  induction text with
  | nil => exact .nil behind
  | cons b text ih =>
      obtain ⟨first, others⟩ := List.forall_mem_cons.mp solid
      simp only [stringMarks, List.mem_cons, List.not_mem_nil, or_false, not_or] at first
      have inside : ¬ closingMark quote triple <+: b :: (text ++ behind) := by
        obtain ⟨more, parts⟩ := closingMark_cons quote triple
        rw [parts, List.cons_prefix_cons]
        rintro ⟨rfl, _⟩
        rcases quoted with same | same
        · exact first.2.1 same
        · exact first.2.2.1 same
      have own : Passes quote triple [b] [b] (text ++ behind) :=
        .byte b _ first.1 inside fun same => absurd same first.2.2.2
      exact own.append (ih others)

theorem escapeValue_other {mark : UInt8} (other : mark ∉ ascii "ntr0" ++ [newline]) :
    escapeValue mark = [mark] := by
  have apart : mark ≠ byte 'n' ∧ mark ≠ byte 't' ∧ mark ≠ byte 'r' ∧ mark ≠ byte '0' ∧
      mark ≠ newline := by
    simpa [ascii] using other
  simp only [← beq_eq_false_iff_ne] at apart
  simp only [escapeValue, apart]
  rfl

/-- A character is one byte, or all its bytes are beyond ASCII. -/
theorem encode_bytes (c : Char) :
    ∀ b ∈ Utf8.encode c.toNat, b.toNat = c.toNat ∨ 128 ≤ b.toNat := by
  have small : c.toNat < 0x110000 := by
    rcases c.valid with low | ⟨_, high⟩
    · exact Nat.lt_trans low (by decide)
    · exact high
  intro b member
  unfold Utf8.encode at member
  split_ifs at member <;>
    simp only [List.mem_cons, List.not_mem_nil, or_false] at member <;>
    rcases member with rfl | rfl | rfl | rfl <;>
    simp only [UInt8.toNat_ofNat'] <;>
    omega

/-- The bytes of a character are apart from marks that it is none of. -/
theorem encode_apart (c : Char) {marks : Bytes} (low : marks.all (·.toNat < 128) = true)
    (apart : c.toNat ∉ marks.map UInt8.toNat) : ∀ b ∈ Utf8.encode c.toNat, b ∉ marks := by
  intro b member mark
  rcases encode_bytes c b member with own | high
  · exact apart (own ▸ List.mem_map_of_mem mark)
  · have below : b.toNat < 128 := by simpa using List.all_eq_true.mp low b mark
    exact absurd below (Nat.not_lt.mpr high)

theorem encode_cons (point : Nat) : ∃ b more, Utf8.encode point = b :: more := by
  unfold Utf8.encode
  split_ifs <;> exact ⟨_, _, rfl⟩

/-- An escape that is its mark, with content behind it. -/
theorem passes_marked {mark : UInt8} (other : mark ∉ ascii "ntr0" ++ [newline])
    (quoted : quote = singleQuote ∨ quote = doubleQuote) (solid : Solid text) :
    Passes quote triple (backslash :: mark :: text) (mark :: text) behind :=
  (Passes.escape (escapeValue_other other) (text ++ behind)).append (solid.passes quoted)

/-- A tripled string goes on behind the end of a line. -/
theorem passes_lineEnd (quoted : quote = singleQuote ∨ quote = doubleQuote)
    (tripled : triple = true) (written : LineEnd) :
    Passes quote triple written.raw written.raw behind := by
  have one (b : UInt8) (ends : b = newline ∨ b = carriageReturn) (behind : Bytes) :
      Passes quote triple [b] [b] behind := by
    obtain ⟨more, parts⟩ := closingMark_cons quote triple
    apply Passes.byte b behind
    · rcases ends with rfl | rfl <;> decide
    · rw [parts, List.cons_prefix_cons]
      rintro ⟨rfl, _⟩
      rcases quoted with rfl | rfl <;> rcases ends with same | same <;> cases same
    · exact fun _ => tripled
  cases written with
  | lineFeed => exact one newline (.inl rfl) behind
  | carriageReturn => exact one carriageReturn (.inr rfl) behind
  | both =>
      exact (one carriageReturn (.inr rfl) ([newline] ++ behind)).append
        (one newline (.inl rfl) behind)

namespace StringPart

/-- A quote is content where it does not close the string, and every other character is. -/
theorem passes_character {c : Char} (quoted : quote = singleQuote ∨ quote = doubleQuote)
    (valid : (character c).Valid triple) (ends : (character c).Ends quote triple behind) :
    Passes quote triple (Utf8.encode c.toNat) (Utf8.encode c.toNat) behind := by
  by_cases marked : c.toNat = singleQuote.toNat ∨ c.toNat = doubleQuote.toNat
  · have single : ∃ b, Utf8.encode c.toNat = [b] ∧ b ≠ backslash ∧ b ≠ newline := by
      rcases marked with same | same
      · exact ⟨singleQuote, by rw [same]; rfl, by decide, by decide⟩
      · exact ⟨doubleQuote, by rw [same]; rfl, by decide, by decide⟩
    obtain ⟨b, written, straight, same_row⟩ := single
    simp only [Ends, written] at ends
    rw [written]
    exact .byte b behind straight ends fun same => absurd same same_row
  · have solid : Solid (Utf8.encode c.toNat) := by
      apply encode_apart c (by decide)
      simp only [Valid, List.mem_cons, List.not_mem_nil, or_false, not_or] at valid
      simp only [stringMarks, List.map_cons, List.map_nil, List.mem_cons, List.not_mem_nil,
        or_false, not_or]
      exact ⟨valid.2.2.2, (not_or.mp marked).1, (not_or.mp marked).2, valid.2.1⟩
    exact solid.passes quoted

/-- An escape that is not known loses its backslash. -/
theorem passes_unknown {c : Char} (quoted : quote = singleQuote ∨ quote = doubleQuote)
    (valid : (unknown c).Valid triple) :
    Passes quote triple (backslash :: Utf8.encode c.toNat) (Utf8.encode c.toNat) behind := by
  have apart : ∀ b ∈ Utf8.encode c.toNat, b ∉ escapeMarks :=
    encode_apart c (by decide) fun member => valid (.tail _ member)
  obtain ⟨b, more, written⟩ := encode_cons c.toNat
  rw [written] at apart
  obtain ⟨first, others⟩ := List.forall_mem_cons.mp apart
  have solid : Solid more := fun b member mark =>
    others b member ((by decide : stringMarks ⊆ escapeMarks) mark)
  have other : b ∉ ascii "ntr0" ++ [newline] := fun mark =>
    first ((by decide : ascii "ntr0" ++ [newline] ⊆ escapeMarks) mark)
  rw [written]
  exact passes_marked other quoted solid

theorem passes {part : StringPart} (quoted : quote = singleQuote ∨ quote = doubleQuote)
    (valid : part.Valid triple) (ends : part.Ends quote triple behind)
    (unbroken : part = .continuation .both → triple = true) :
    Passes quote triple part.raw part.read behind := by
  cases part with
  | character c => exact passes_character quoted valid ends
  | lineEnd written => exact passes_lineEnd quoted valid written
  | continuation written =>
      cases written with
      | lineFeed => exact .escape rfl behind
      | carriageReturn => exact .escape rfl behind
      | both =>
          have tripled := unbroken rfl
          have escape : Passes quote triple [backslash, carriageReturn] [carriageReturn]
              ([newline] ++ behind) := .escape rfl _
          exact escape.append (passes_lineEnd quoted tripled .lineFeed)
  | mark written value => exact .escape rfl behind
  | octal digits =>
      obtain ⟨some_digit, _, octal⟩ := valid
      obtain ⟨first, digits, rfl⟩ := List.exists_cons_of_ne_nil some_digit
      have solid : Solid digits :=
        .of_class Numeral.isOctalDigit (Bool.and_eq_true_iff.mp octal).2 (by decide)
      exact (Passes.escape rfl (digits ++ behind)).append (solid.passes quoted)
  | code width digits =>
      have solid : Solid digits := .of_class isHexDigit valid.2.1 (by decide)
      apply passes_marked _ quoted solid
      cases width <;> decide
  | named name =>
      have letters : Solid name := .of_class isNameByte valid.2 (by decide)
      have solid : Solid (openBrace :: (name ++ [closeBrace])) := by
        intro b member
        simp only [List.mem_cons, List.mem_append, List.not_mem_nil, or_false] at member
        rcases member with rfl | inside | rfl
        · decide
        · exact letters b inside
        · decide
      exact passes_marked (by decide) quoted solid
  | unknown c => exact passes_unknown quoted valid

end StringPart

-- The row goes on behind every part, so a plain string has no line ends in it.
def Unbroken (triple : Bool) (parts : List StringPart) : Prop :=
  .continuation .both ∈ parts → triple = true

theorem StringRow.passes {parts : List StringPart} (row : StringRow quote triple parts)
    (quoted : quote = singleQuote ∨ quote = doubleQuote) (unbroken : Unbroken triple parts) :
    Passes quote triple (parts.flatMap StringPart.raw) (parts.flatMap StringPart.read)
      (closingMark quote triple) := by
  induction row with
  | nil => exact .nil _
  | cons valid ends more ih =>
      have first := StringPart.passes quoted valid ends fun same => unbroken (by simp [same])
      exact first.append (ih fun member => unbroken (.tail _ member))

/-- A backslash before a carriage return and a line feed leaves the line feed, which breaks off a
plain string. -/
theorem StringRow.breaks {parts : List StringPart} (row : StringRow quote false parts)
    (quoted : quote = singleQuote ∨ quote = doubleQuote)
    (broken : .continuation .both ∈ parts) :
    stringBody? quote false (parts.flatMap StringPart.raw ++ closingMark quote false) = none := by
  induction row with
  | nil => cases broken
  | @cons part later valid ends more ih =>
      rw [List.flatMap_cons, List.append_assoc]
      by_cases here : part = .continuation .both
      · subst here
        have line : stringBody? quote false
            (newline :: (later.flatMap StringPart.raw ++ closingMark quote false)) = none :=
          stringBody_break quote _ (quoted_mark quoted)
        change stringBody? quote false (backslash :: carriageReturn :: newline :: _) = none
        rw [stringBody_escape]
        exact congrArg _ line
      · have first : Passes quote false part.raw part.read _ :=
          StringPart.passes quoted valid ends fun same => absurd same here
        have behind : .continuation .both ∈ later := by
          cases broken with
          | head => exact absurd rfl here
          | tail _ member => exact member
        unfold Passes at first
        rw [first, ih behind]
        rfl

end Passing

/-- The first byte of a plain string is no quote that opens it. -/
theorem StringRow.starts {quote : UInt8} {part : StringPart} {later : List StringPart}
    (row : StringRow quote false (part :: later))
    (quoted : quote = singleQuote ∨ quote = doubleQuote) :
    ∃ b more, part.raw = b :: more ∧ b ≠ quote := by
  have straight : backslash ≠ quote := by
    rcases quoted with rfl | rfl <;> decide
  cases row with
  | cons valid ends more =>
      cases part with
      | character c =>
          obtain ⟨b, rest, written⟩ := encode_cons c.toNat
          refine ⟨b, rest, written, ?_⟩
          rintro rfl
          apply ends
          rw [written]
          exact List.cons_prefix_cons.mpr ⟨rfl, List.nil_prefix⟩
      | lineEnd written => cases valid
      | _ => exact ⟨backslash, _, rfl, straight⟩

namespace StringLiteral

def read (literal : StringLiteral) : Bytes := literal.parts.flatMap StringPart.read

def after (literal : StringLiteral) : Bytes :=
  (closingMark literal.quote literal.triple).drop 1 ++
    (literal.parts.flatMap StringPart.raw ++ closingMark literal.quote literal.triple)

theorem text_cons (literal : StringLiteral) : literal.text = literal.quote :: literal.after := by
  obtain ⟨more, parts⟩ := closingMark_cons literal.quote literal.triple
  rw [text, after, parts]
  rfl

theorem opens (literal : StringLiteral) :
    opensTriple literal.quote literal.after = literal.triple := by
  obtain ⟨quote, triple, parts, quoted, row⟩ := literal
  cases triple with
  | true =>
      change opensTriple quote ([quote, quote] ++ _) = true
      have mark : quote ≠ backtick := by
        rcases quoted with rfl | rfl <;> decide
      simp [opensTriple, List.isPrefixOf, mark]
  | false =>
      apply opensTriple_other
      cases parts with
      | nil => simp [after, closingMark]
      | cons part later =>
          obtain ⟨b, more, written, other⟩ := row.starts quoted
          simp [after, closingMark, written, other]

theorem first_unbroken (literal : StringLiteral)
    (unbroken : Unbroken literal.triple literal.parts) :
    Piece.first literal.quote literal.after = .lexeme .string literal.read literal.text := by
  have mark := quoted_mark literal.quoted
  have passes := literal.row.passes literal.quoted unbroken
  have opens := literal.opens
  rw [after, ← List.append_nil (closingMark literal.quote literal.triple)] at opens
  rw [← List.append_nil (closingMark literal.quote literal.triple)] at passes
  have string := ofString_passed mark (by simpa using opens) passes
  rw [first_quote _ _ mark]
  simpa [after, text, read] using string

theorem literal_unbroken [Json.Dialect] (literal : StringLiteral)
    (unbroken : Unbroken literal.triple literal.parts) :
    literal? literal.text = some (.str literal.read) := by
  have first := literal.first_unbroken unbroken
  rw [text_cons] at first ⊢
  have cuts : Cuts 0 (literal.quote :: literal.after) [⟨.string, literal.read, 0⟩] [] := by
    apply Cuts.lexeme (by decide)
    rwa [List.append_nil]
  have written : Writes [⟨.string, literal.read, 0⟩] (.value (.str (literal.read ++ []))) :=
    .strings (List.cons_ne_nil _ _) (by simp)
  rw [List.append_nil] at written
  exact cuts.literal written (Nat.zero_le maxNesting)

theorem literal_broken [Json.Dialect] (literal : StringLiteral)
    (broken : ¬ Unbroken literal.triple literal.parts) : literal? literal.text = none := by
  obtain ⟨member, tripled⟩ := Classical.not_imp.mp broken
  have plain : literal.triple = false := by simpa using tripled
  have opens := literal.opens
  have row := literal.row
  rw [plain] at opens row
  have body : stringBody? literal.quote false literal.after = none := by
    rw [after, plain]
    exact row.breaks literal.quoted member
  have first : Piece.first literal.quote literal.after =
      .lexeme .invalid (literal.quote :: literal.after) (literal.quote :: literal.after) := by
    rw [first_quote _ _ (quoted_mark literal.quoted)]
    exact ofString_open opens body
  apply Option.eq_none_iff_forall_ne_some.mpr
  intro value found
  have closed := literal_closed literal.text value found
  rw [text_cons, stringsClosed_cons, first] at closed
  cases closed

end StringLiteral

end EndpointPreview.Notation
