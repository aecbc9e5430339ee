import EndpointPreview.Proofs.JsonNumbers
import EndpointPreview.Proofs.JsonValues
import EndpointPreview.Proofs.StringLiterals
import Mathlib.Algebra.Order.BigOperators.Group.List
import Mathlib.Algebra.Order.Group.Nat
import Mathlib.Data.Bool.AllAny
import EndpointPreview.StrictFormats

/-!
What is read from a string literal against what Python assigns to it. An escape that is not known
loses its backslash, and one that gives a code point keeps its digits, so the literal is read as
Python reads it exactly when every part of it is.
-/

namespace EndpointPreview.Notation

open Text

section Rows

variable {Part : Type} {parts : List Part}

theorem each_of_sum {fewer more : Part → Nat} (bounded : ∀ part ∈ parts, fewer part ≤ more part)
    (total : (parts.map fewer).sum = (parts.map more).sum) :
    ∀ part ∈ parts, fewer part = more part := by
  intro part member
  by_contra different
  have less := List.sum_lt_sum fewer more bounded
    ⟨part, member, Nat.lt_of_le_of_ne (bounded part member) different⟩
  exact Nat.ne_of_lt less total

/-- Two writings of a row with the same text agree in every part, where no part has more of a mark
in the second one, and with as many of it no greater length in the first. -/
theorem each_of_flatMap (mark : UInt8) {first second : Part → Bytes}
    (fewer : ∀ part ∈ parts, (second part).count mark ≤ (first part).count mark)
    (shorter : ∀ part ∈ parts, (second part).count mark = (first part).count mark →
      (first part).length ≤ (second part).length)
    (same : parts.flatMap first = parts.flatMap second) :
    ∀ part ∈ parts, first part = second part := by
  have marks := each_of_sum fewer (by
    have total := congrArg (List.count mark) same
    rw [List.count_flatMap, List.count_flatMap] at total
    exact total.symm)
  have lengths := each_of_sum (fun part member => shorter part member (marks part member)) (by
    have total := congrArg List.length same
    rwa [List.length_flatMap, List.length_flatMap] at total)
  clear fewer shorter marks
  induction parts with
  | nil => exact nofun
  | cons part later ih =>
      obtain ⟨own, others⟩ := List.forall_mem_cons.mp lengths
      rw [List.flatMap_cons, List.flatMap_cons] at same
      obtain ⟨front, rear⟩ := List.append_inj same own
      exact List.forall_mem_cons.mpr ⟨front, ih rear others⟩

end Rows

theorem ofDigits_lt {base : Nat} {digits : Bytes} (inside : ∀ b ∈ digits, digitValue b < base) :
    Numeral.ofDigits base digits < base ^ digits.length := by
  induction digits with
  | nil => exact Nat.one_pos
  | cons first digits ih =>
      obtain ⟨own, others⟩ := List.forall_mem_cons.mp inside
      have rest := ih others
      have whole := Numeral.ofDigits_append base [first] digits
      have single : Numeral.ofDigits base [first] = digitValue first := by
        simp [Numeral.ofDigits]
      have scaled : (digitValue first + 1) * base ^ digits.length ≤ base * base ^ digits.length :=
        Nat.mul_le_mul_right _ own
      rw [List.singleton_append, single] at whole
      rw [whole, List.length_cons, Nat.pow_succ, Nat.mul_comm _ base]
      rw [Nat.succ_mul] at scaled
      omega

theorem mem_octal {b : UInt8} (octal : Numeral.isOctalDigit b = true) : b ∈ ascii "01234567" := by
  have digit : isDigit b = true := by
    simp only [Numeral.isOctalDigit, isDigit, Bool.and_eq_true, decide_eq_true_eq,
      UInt8.le_iff_toNat_le, UInt8.reduceToNat] at octal ⊢
    omega
  have row : (ascii "0123456789").filter Numeral.isOctalDigit = ascii "01234567" := by rfl
  rw [← row]
  exact List.mem_filter.mpr ⟨mem_digits b digit, octal⟩

theorem digitValue_octal {b : UInt8} (octal : Numeral.isOctalDigit b = true) :
    digitValue b < 8 := by
  have checked : (ascii "01234567").all (digitValue · < 8) = true := by decide
  simpa using List.all_eq_true.mp checked b (mem_octal octal)

theorem digitValue_hex {b : UInt8} (hex : isHexDigit b = true) : digitValue b < 16 := by
  simp only [isHexDigit, isDigit, Bool.or_eq_true, Bool.and_eq_true, decide_eq_true_eq,
    UInt8.le_iff_toNat_le, UInt8.reduceToNat] at hex
  simp only [digitValue, isDigit, isLower, Bool.and_eq_true, decide_eq_true_eq,
    UInt8.le_iff_toNat_le, UInt8.reduceToNat]
  split_ifs <;> omega

theorem encode_single {point : Nat} (small : point < 0x80) : (Utf8.encode point).length = 1 := by
  rw [Utf8.encode, if_pos small]
  rfl

theorem encode_short {point : Nat} (small : point < 0x800) : (Utf8.encode point).length ≤ 2 := by
  unfold Utf8.encode
  split_ifs <;> simp

/-- Only the first byte of a character may be an ASCII one. -/
theorem encode_second {point : Nat} {first second : UInt8} {more : Bytes}
    (written : Utf8.encode point = first :: second :: more) : 128 ≤ second.toNat := by
  unfold Utf8.encode at written
  split_ifs at written <;>
    cases written <;>
    simp only [UInt8.toNat_ofNat'] <;>
    omega

namespace StringPart

def alikeMarks : Bytes := [backslash, singleQuote, doubleQuote, byte 't', byte 'n', byte 'r']

def Alike : StringPart → Prop
  | character _ => True
  | lineEnd written => written = .lineFeed
  | continuation written => written = .lineFeed
  | mark written _ => written ∈ alikeMarks
  | octal digits => digits = [byte '0']
  | _ => False

instance : (part : StringPart) → Decidable part.Alike
  | character _ => inferInstanceAs (Decidable True)
  | lineEnd _ | continuation _ => inferInstanceAs (Decidable (_ = _))
  | mark _ _ => inferInstanceAs (Decidable (_ ∈ _))
  | octal _ => inferInstanceAs (Decidable (_ = _))
  | code _ _ | named _ | unknown _ => inferInstanceAs (Decidable False)

inductive Compared (names : Bytes → Nat) (part : StringPart) : Prop where
  | same (alike : part.Alike) (same : part.value names = part.read)
  | kept (differs : ¬ part.Alike) (kept : part.value names = backslash :: part.read)
  -- The part stands for something else, which is no longer than what is read.
  | other (differs : ¬ part.Alike) (other : part.value names ≠ part.read)
      (none_read : backslash ∉ part.read)
      (shorter : (part.value names).length ≤ part.read.length)

variable {names : Bytes → Nat}

theorem compared_lineEnd (written : LineEnd) : Compared names (.lineEnd written) := by
  cases written with
  | lineFeed => exact .same rfl rfl
  | carriageReturn => exact .other nofun nofun nofun (Nat.le_refl 1)
  | both => exact .other nofun nofun nofun (Nat.le_succ 1)

theorem compared_continuation (written : LineEnd) : Compared names (.continuation written) := by
  cases written with
  | lineFeed => exact .same rfl rfl
  | carriageReturn => exact .other nofun nofun nofun (Nat.zero_le 1)
  | both => exact .other nofun nofun nofun (Nat.zero_le 2)

/-- A value that is shorter than what is read is another one. -/
theorem Compared.of_shorter {part : StringPart} (differs : ¬ part.Alike)
    (none_read : backslash ∉ part.read) (shorter : (part.value names).length < part.read.length) :
    Compared names part :=
  .other differs (fun same => Nat.ne_of_lt shorter (congrArg List.length same)) none_read
    (Nat.le_of_lt shorter)

theorem value_point (names : Bytes → Nat) (part : StringPart) {point : Nat}
    (single : part.points names = [point]) : part.value names = Utf8.encode point := by
  rw [value, single, List.flatMap_singleton]

theorem compared_mark {written meaning : UInt8} (known : (written, meaning) ∈ markEscapes) :
    Compared names (.mark written meaning) := by
  have value := value_point names (.mark written meaning) rfl
  have table : ∀ pair ∈ markEscapes,
      (pair.1 ∈ alikeMarks → Utf8.encode pair.2.toNat = escapeValue pair.1) ∧
      (pair.1 ∉ alikeMarks → Utf8.encode pair.2.toNat ≠ escapeValue pair.1 ∧
        backslash ∉ escapeValue pair.1 ∧
        (Utf8.encode pair.2.toNat).length ≤ (escapeValue pair.1).length) :=
    List.all_iff_forall_prop.mp (by decide)
  obtain ⟨alike, other⟩ := table _ known
  by_cases marked : written ∈ alikeMarks
  · exact .same marked (value.trans (alike marked))
  · obtain ⟨differs, none_read, shorter⟩ := other marked
    rw [← value] at differs shorter
    exact .other marked differs none_read shorter

/-- An octal digit other than zero is read as itself. -/
theorem octal_first {digit : UInt8} (octal : Numeral.isOctalDigit digit = true) :
    (digit ≠ byte '0' → Utf8.encode (Numeral.ofDigits 8 [digit]) ≠ escapeValue digit) ∧
    backslash ∉ escapeValue digit ∧ (escapeValue digit).length = 1 := by
  have each : ∀ digit ∈ ascii "01234567",
      (digit ≠ byte '0' → Utf8.encode (Numeral.ofDigits 8 [digit]) ≠ escapeValue digit) ∧
      backslash ∉ escapeValue digit ∧ (escapeValue digit).length = 1 :=
    List.all_iff_forall_prop.mp (by decide)
  exact each digit (mem_octal octal)

theorem compared_octal {digits : Bytes} (some_digit : digits ≠ []) (few : digits.length ≤ 3)
    (all : digits.all Numeral.isOctalDigit = true) : Compared names (.octal digits) := by
  rw [List.all_eq_true] at all
  have value := value_point names (.octal digits) rfl
  have small := ofDigits_lt fun b member => digitValue_octal (all b member)
  obtain ⟨first, others, rfl⟩ := List.exists_cons_of_ne_nil some_digit
  obtain ⟨own, rest⟩ := List.forall_mem_cons.mp all
  obtain ⟨differs, no_backslash, one⟩ := octal_first own
  have none_read : backslash ∉ (octal (first :: others)).read := by
    rw [read, List.mem_append]
    rintro (front | behind)
    · exact no_backslash front
    · exact absurd (rest _ behind) (by decide)
  have length : (octal (first :: others)).read.length = 1 + others.length := by
    rw [read, List.length_append, one]
  -- One digit stands for one byte, two digits for no more than one, three for no more than two.
  cases others with
  | nil =>
      by_cases zero : first = byte '0'
      · subst zero
        exact .same rfl value
      · have point := encode_single (Nat.lt_trans small (by simp))
        refine .other (by simpa [Alike] using zero) ?_ none_read ?_
        · rw [value, read, List.append_nil]
          exact differs zero
        · rw [value, length, point]
          exact Nat.le_refl 1
  | cons second others =>
      have not_alike : ¬ (octal (first :: second :: others)).Alike := by
        simp [Alike]
      apply Compared.of_shorter not_alike none_read
      rw [value, length]
      cases others with
      | nil =>
          rw [encode_single (Nat.lt_trans small (by simp))]
          exact Nat.lt_succ_self 1
      | cons third others =>
          obtain rfl : others = [] := by
            apply List.eq_nil_of_length_eq_zero
            simp only [List.length_cons] at few
            omega
          exact Nat.lt_succ_of_le (encode_short (Nat.lt_trans small (by simp)))

theorem compared_code {width : CodeWidth} {digits : Bytes} (count : digits.length = width.digits)
    (hex : digits.all isHexDigit = true) : Compared names (.code width digits) := by
  rw [List.all_eq_true] at hex
  have value := value_point names (.code width digits) rfl
  have small := ofDigits_lt fun b member => digitValue_hex (hex b member)
  have none_read : backslash ∉ (code width digits).read := by
    rw [read, List.mem_cons]
    rintro (letter | behind)
    · cases width <;> cases letter
    · exact absurd (hex _ behind) (by decide)
  have not_alike : ¬ (code width digits).Alike := id
  apply Compared.of_shorter not_alike none_read
  have most := Json.encode_length (Numeral.ofDigits 16 digits)
  rw [value, read, List.length_cons, count]
  cases width with
  | two =>
      rw [count] at small
      exact Nat.lt_succ_of_le (encode_short (Nat.lt_trans small (by decide)))
  | four => exact Nat.lt_succ_of_le most
  | eight => exact Nat.lt_succ_of_le (Nat.le_trans most (by decide))

theorem compared_named {name : Bytes} (some_byte : name ≠ [])
    (letters : name.all isNameByte = true) : Compared names (.named name) := by
  rw [List.all_eq_true] at letters
  have value := value_point names (.named name) rfl
  have least := List.length_pos_of_ne_nil some_byte
  have most := Json.encode_length (names name)
  have none_read : backslash ∉ (named name).read := by
    simp only [read, List.mem_cons, List.mem_append, List.not_mem_nil, or_false]
    rintro (letter | opening | inside | closing)
    · cases letter
    · cases opening
    · exact absurd (letters _ inside) (by decide)
    · cases closing
  refine .other id ?_ none_read ?_
  · intro same
    exact absurd (encode_second (value.symm.trans same)) (by decide)
  · rw [value]
    simp only [read, List.length_cons, List.length_append]
    omega

theorem compared_unknown (c : Char) : Compared names (.unknown c) := by
  apply Compared.kept id
  simp [value, points, read]
  rfl

theorem Valid.compared {triple : Bool} {part : StringPart} (valid : part.Valid triple) :
    Compared names part := by
  cases part with
  | character c => exact .same trivial (value_point names (.character c) rfl)
  | lineEnd written => exact compared_lineEnd written
  | continuation written => exact compared_continuation written
  | mark written meaning => exact compared_mark valid
  | octal digits => exact compared_octal valid.1 valid.2.1 valid.2.2
  | code width digits => exact compared_code valid.1 valid.2.1
  | named name => exact compared_named valid.1 valid.2
  | unknown c => exact compared_unknown c

section Rows

variable {triple : Bool} {part : StringPart}

theorem backslashes_le (compared : Compared names part) :
    part.read.count backslash ≤ (part.value names).count backslash := by
  cases compared with
  | same alike same => rw [same]
  | kept differs kept =>
      rw [kept, List.count_cons_self]
      exact Nat.le_succ _
  | other differs other none_read shorter =>
      rw [List.count_eq_zero_of_not_mem none_read]
      exact Nat.zero_le _

theorem value_length (compared : Compared names part)
    (same : part.read.count backslash = (part.value names).count backslash) :
    (part.value names).length ≤ part.read.length := by
  cases compared with
  | same alike same => rw [same]
  | kept differs kept =>
      rw [kept, List.count_cons_self] at same
      exact absurd same (Nat.ne_of_lt (Nat.lt_succ_self _))
  | other differs other none_read shorter => exact shorter

theorem value_eq_iff (compared : Compared names part) :
    part.value names = part.read ↔ part.Alike := by
  cases compared with
  | same alike same => exact iff_of_true same alike
  | kept differs kept =>
      apply iff_of_false _ differs
      rw [kept]
      exact List.cons_ne_self _ _
  | other differs other none_read shorter => exact iff_of_false other differs

end Rows

end StringPart

theorem StringRow.valid {quote : UInt8} {triple : Bool} {parts : List StringPart}
    (row : StringRow quote triple parts) : ∀ part ∈ parts, part.Valid triple := by
  induction row with
  | nil => exact nofun
  | cons valid _ _ ih => exact List.forall_mem_cons.mpr ⟨valid, ih⟩

namespace StringLiteral

-- Backslashes are only lost, and with as many of them bytes are only gained, so no part makes up
-- for another one.
theorem value_eq_iff (names : Bytes → Nat) (literal : StringLiteral) :
    literal.value names = literal.read ↔ ∀ part ∈ literal.parts, part.Alike := by
  have compared : ∀ part ∈ literal.parts, StringPart.Compared names part :=
    fun part member => (literal.row.valid part member).compared
  constructor
  · intro same part member
    have each := each_of_flatMap backslash
      (fun part member => StringPart.backslashes_le (compared part member))
      (fun part member => StringPart.value_length (compared part member)) same
    exact (StringPart.value_eq_iff (compared part member)).mp (each part member)
  · intro alike
    apply List.flatMap_congr
    intro part member
    exact (StringPart.value_eq_iff (compared part member)).mpr (alike part member)

/-- A literal has no value exactly when it is plain and a backslash in it stands before a carriage
return and a line feed; it has the one that Python assigns to it exactly when all its parts are
read alike. -/
theorem literal_value [Json.Dialect] (names : Bytes → Nat) (literal : StringLiteral) :
    (literal? literal.text = none ↔
      literal.triple = false ∧ .continuation .both ∈ literal.parts) ∧
    (literal? literal.text = some (.str (literal.value names)) ↔
      ∀ part ∈ literal.parts, part.Alike) := by
  by_cases unbroken : Unbroken literal.triple literal.parts
  · have found := literal.literal_unbroken unbroken
    rw [found, ← literal.value_eq_iff names]
    constructor
    · apply iff_of_false nofun
      rintro ⟨plain, broken⟩
      cases plain.symm.trans (unbroken broken)
    · constructor
      · exact fun same => (Json.str.inj (Option.some.inj same)).symm
      · exact fun same => congrArg (some ∘ Json.str) same.symm
  · have found := literal.literal_broken unbroken
    obtain ⟨broken, tripled⟩ := Classical.not_imp.mp unbroken
    rw [found]
    constructor
    · exact iff_of_true rfl ⟨by simpa using tripled, broken⟩
    · apply iff_of_false nofun
      intro alike
      cases alike _ broken

def tripledLines : StringLiteral where
  quote := singleQuote
  triple := true
  parts := [.character 'i', .character 't', .character (Char.ofNat 39), .character 's',
    .mark (byte 'n') 10, .octal [byte '0'], .character '8', .continuation .lineFeed,
    .lineEnd .lineFeed, .mark backslash backslash]
  quoted := .inl rfl
  row := by decide

def continuedLine : StringLiteral where
  quote := singleQuote
  triple := false
  parts := [.character 'a', .continuation .both]
  quoted := .inl rfl
  row := by decide

section Strict

attribute [local instance] Json.strict

theorem literal_value_lines :
    literal? tripledLines.text = some (.str [105, 116, 39, 115, 10, 0, 56, 10, 92]) ∧
    literal? continuedLine.text = none := by
  have names : Bytes → Nat := fun _ => 0
  have value : tripledLines.value names = [105, 116, 39, 115, 10, 0, 56, 10, 92] := by rfl
  have lines := (literal_value names tripledLines).2.mpr (by decide)
  rw [value] at lines
  exact ⟨lines, (literal_value names continuedLine).1.mpr ⟨rfl, .tail _ (.head _)⟩⟩

def codedLetter : StringLiteral where
  quote := singleQuote
  triple := false
  parts := [.code .two (ascii "41")]
  quoted := .inl rfl
  row := by decide

-- The digits of the code are read as they stand.
theorem codedLetter_misread :
    codedLetter.text = [39, 92, 120, 52, 49, 39] ∧
    literal? codedLetter.text = some (.str (ascii "x41")) ∧
    (∀ names, codedLetter.value names = ascii "A") ∧
    ¬ ∀ (names : Bytes → Nat) (literal : StringLiteral), literal? literal.text = none ∨
      literal? literal.text = some (.str (literal.value names)) := by
  have text : codedLetter.text = [39, 92, 120, 52, 49, 39] := by rfl
  have value (names : Bytes → Nat) : codedLetter.value names = ascii "A" := by rfl
  have read : literal? codedLetter.text = some (.str (ascii "x41")) :=
    codedLetter.literal_unbroken nofun
  refine ⟨text, read, value, fun always => ?_⟩
  rcases always (fun _ => 0) codedLetter with refused | alike
  · rw [read] at refused
    cases refused
  · rw [read, value] at alike
    have same := Json.str.inj (Option.some.inj alike)
    exact absurd same (by decide)

end Strict

end StringLiteral

end EndpointPreview.Notation
