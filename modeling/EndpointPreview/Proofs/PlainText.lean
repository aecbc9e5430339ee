import EndpointPreview.Json.Writer
import EndpointPreview.Preview.Clock

/-!
Plain texts: those in ASCII, which are whole characters wherever they are cut. The texts of
numbers and of times are plain, and the digits of a number are read back as the number.
-/

namespace EndpointPreview.Text

def Plain (text : Bytes) : Prop := ∀ b ∈ text, b ≤ 0x7F

instance (text : Bytes) : Decidable (Plain text) := List.decidableBAll _ text

namespace Plain

@[simp] theorem nil : Plain [] := fun _ member => absurd member List.not_mem_nil

@[simp] theorem cons_iff (b : UInt8) (rest : Bytes) : Plain (b :: rest) ↔ b ≤ 0x7F ∧ Plain rest :=
  List.forall_mem_cons

@[simp] theorem append_iff (left right : Bytes) :
    Plain (left ++ right) ↔ Plain left ∧ Plain right := List.forall_mem_append

@[simp] theorem replicate (count : Nat) (b : UInt8) (low : b ≤ 0x7F) :
    Plain (List.replicate count b) := by
  intro other member
  rw [List.eq_of_mem_replicate member]
  exact low

theorem isDigit_le (b : UInt8) (digit : isDigit b = true) : b ≤ 0x7F := by
  simp only [isDigit, Bool.and_eq_true, decide_eq_true_eq] at digit
  exact UInt8.le_trans digit.2 (by decide)

theorem isSpace_le (b : UInt8) (space : isSpace b = true) : b ≤ 0x7F := by
  simp only [isSpace, Bool.or_eq_true, beq_iff_eq, Bool.and_eq_true, decide_eq_true_eq] at space
  rcases space with rfl | inside
  · decide
  · exact UInt8.le_trans inside.2 (by decide)

theorem isAlpha_le (b : UInt8) (letter : isAlpha b = true) : b ≤ 0x7F := by
  simp only [isAlpha, isUpper, isLower, Bool.or_eq_true, Bool.and_eq_true,
    decide_eq_true_eq] at letter
  rcases letter with upper | lower
  · exact UInt8.le_trans upper.2 (by decide)
  · exact UInt8.le_trans lower.2 (by decide)

theorem isWordByte_le (b : UInt8) (word : isWordByte b = true) : b ≤ 0x7F := by
  simp only [isWordByte, isAlnum, Bool.or_eq_true, beq_iff_eq] at word
  rcases word with (letter | digit) | rfl
  · exact isAlpha_le b letter
  · exact isDigit_le b digit
  · decide

end Plain

theorem decimal_eq (n : Nat) : decimal n = (Nat.toDigits 10 n).map byte := by
  unfold decimal ascii
  rw [String.toList_ofList]

theorem decimal_ne_nil (n : Nat) : decimal n ≠ [] := by
  rw [decimal_eq]
  intro empty
  exact Nat.toDigits_ne_nil (List.map_eq_nil_iff.mp empty)

theorem digit_bounds (c : Char) (digit : c.isDigit = true) : 48 ≤ c.toNat ∧ c.toNat ≤ 57 := by
  simp only [Char.isDigit, Bool.and_eq_true, decide_eq_true_eq] at digit
  exact ⟨digit.1, digit.2⟩

theorem byte_digit (c : Char) (digit : c.isDigit = true) :
    (byte c).toNat = c.toNat ∧ isDigit (byte c) = true := by
  obtain ⟨low, high⟩ := digit_bounds c digit
  have same : (byte c).toNat = c.toNat := by
    rw [UInt8.toNat_ofNat']
    omega
  refine ⟨same, ?_⟩
  simp only [isDigit, Bool.and_eq_true, decide_eq_true_eq, UInt8.le_iff_toNat_le, same]
  exact ⟨low, high⟩

theorem isDigit_of_mem_decimal (n : Nat) (b : UInt8) (member : b ∈ decimal n) :
    isDigit b = true := by
  rw [decimal_eq] at member
  obtain ⟨c, inside, rfl⟩ := List.mem_map.mp member
  exact (byte_digit c (Nat.isDigit_of_mem_toDigits (by decide) (by decide) inside)).2

theorem decimal_value (n : Nat) :
    (decimal n).foldl (fun value b => value * 10 + digitValue b) 0 = n := by
  have each (digits : List Char) (start : Nat) (all : ∀ c ∈ digits, c.isDigit = true) :
      (digits.map byte).foldl (fun value b => value * 10 + digitValue b) start =
        Nat.ofDigitChars 10 digits start := by
    induction digits generalizing start with
    | nil => rfl
    | cons c digits ih =>
        obtain ⟨same, digit⟩ := byte_digit c (all c List.mem_cons_self)
        have value : digitValue (byte c) = c.toNat - '0'.toNat := by
          rw [digitValue, if_pos digit, same]
          rfl
        rw [List.map_cons, List.foldl_cons, ih _ fun other inside =>
          all other (List.mem_cons_of_mem _ inside), value, Nat.mul_comm]
        rfl
  rw [decimal_eq, each _ 0 fun c inside =>
    Nat.isDigit_of_mem_toDigits (by decide) (by decide) inside]
  exact Nat.ofDigitChars_ten_toDigits

theorem length_decimal (n : Nat) : (decimal n).length ≤ 5 ↔ n < 100000 := by
  rw [decimal_eq, List.length_map]
  exact Nat.length_toDigits_le_iff (by decide) (by decide)

namespace Plain

theorem decimal (n : Nat) : Plain (Text.decimal n) := fun b member =>
  isDigit_le b (isDigit_of_mem_decimal n b member)

theorem signedDecimal (n : Int) : Plain (Text.signedDecimal n) := by
  unfold Text.signedDecimal
  split
  · exact (cons_iff _ _).mpr ⟨by decide, decimal _⟩
  · exact decimal _

end Plain
end EndpointPreview.Text

namespace EndpointPreview.Json

open Text

-- Digits, and the other bytes of numbers and of null.
def NumberBytes (text : Bytes) : Prop := ∀ b ∈ text, isDigit b = true ∨ b ∈ ascii "+-.elnu"

instance (text : Bytes) : Decidable (NumberBytes text) := List.decidableBAll _ text

theorem NumberBytes.append {left right : Bytes} (first : NumberBytes left)
    (second : NumberBytes right) : NumberBytes (left ++ right) :=
  List.forall_mem_append.mpr ⟨first, second⟩

theorem NumberBytes.cons {b : UInt8} {rest : Bytes} (mark : b ∈ ascii "+-.elnu")
    (bytes : NumberBytes rest) : NumberBytes (b :: rest) :=
  List.forall_mem_cons.mpr ⟨.inr mark, bytes⟩

theorem NumberBytes.decimal (n : Nat) : NumberBytes (decimal n) := fun b member =>
  .inl (isDigit_of_mem_decimal n b member)

theorem NumberBytes.zeros (count : Nat) : NumberBytes (List.replicate count (byte '0')) := by
  intro b member
  rw [List.eq_of_mem_replicate member]
  exact .inl rfl

theorem NumberBytes.signedDecimal (n : Int) : NumberBytes (signedDecimal n) := by
  unfold Text.signedDecimal
  split
  · exact .cons (by decide) (.decimal _)
  · exact .decimal _

theorem NumberBytes.digitBytes (digits : List (Fin 10)) : NumberBytes (digitBytes digits) := by
  intro b member
  obtain ⟨d, _, rfl⟩ := List.mem_map.mp member
  have digit : ∀ d : Fin 10, isDigit (UInt8.ofNat (48 + d.val)) = true := by decide
  exact .inl (digit d)

theorem NumberBytes.exponentText (layout : FloatLayout) (exponent : Int) :
    NumberBytes (exponentText layout exponent) := by
  have sign : (if exponent < 0 then byte '-' else byte '+') ∈ ascii "+-.elnu" := by
    split <;> decide
  have digits : NumberBytes (padLeft layout.exponentDigits (Text.decimal exponent.natAbs)) :=
    .append (.zeros _) (.decimal _)
  exact .cons (by decide) (.cons sign digits)

theorem NumberBytes.digitsText (layout : FloatLayout) (number : Decimal.Digits) :
    NumberBytes (digitsText layout number) := by
  have all := NumberBytes.digitBytes number.digits
  have front (count : Nat) : NumberBytes ((Json.digitBytes number.digits).take count) :=
    fun b member => all b (List.mem_of_mem_take member)
  have back (count : Nat) : NumberBytes ((Json.digitBytes number.digits).drop count) :=
    fun b member => all b (List.mem_of_mem_drop member)
  have pointed (count : Nat) :
      NumberBytes (byte '.' :: (Json.digitBytes number.digits).drop count) :=
    .cons (by decide) (back count)
  have whole : NumberBytes (ascii ".0") := by decide
  have fraction : NumberBytes (ascii "0.") := by decide
  have part : NumberBytes (if (Json.digitBytes number.digits).length ≤ 1 then []
      else byte '.' :: (Json.digitBytes number.digits).drop 1) := by
    split
    · exact fun b member => absurd member List.not_mem_nil
    · exact pointed 1
  unfold Json.digitsText
  dsimp only
  split
  · split
    · exact .append (.append all (.zeros _)) whole
    · exact .append (front _) (pointed _)
  · split
    · exact .append (.append fraction (.zeros _)) all
    · exact .append (.append (front 1) part) (.exponentText layout _)

theorem floatText_bytes [Dialect] (bits : UInt64) : NumberBytes (floatText bits) := by
  have sign : NumberBytes (if Decimal.isNegative bits then [byte '-'] else []) := by
    split <;> decide
  have digits : NumberBytes (magnitudeText floatLayout (Decimal.magnitude bits)) := by
    unfold magnitudeText
    split
    · decide
    · exact .digitsText _ _
  unfold floatText
  split
  · decide
  · exact .append sign digits

theorem NumberBytes.plain {text : Bytes} (bytes : NumberBytes text) : Plain text := by
  intro b member
  rcases bytes b member with digit | mark
  · exact Plain.isDigit_le b digit
  · have low : Plain (ascii "+-.elnu") := by decide
    exact low b mark

end EndpointPreview.Json

namespace EndpointPreview.Preview

open Text

theorem padded_plain (width n : Nat) : Plain (padded width n) :=
  (Plain.append_iff _ _).mpr ⟨.replicate _ _ (by decide), .decimal _⟩

theorem timestamp_plain (time : Millis) : Plain (timestamp time) := by
  have marks : Plain (ascii "-") ∧ Plain (ascii "T") ∧ Plain (ascii ":") ∧ Plain (ascii ".") ∧
      Plain (ascii "Z") := by decide
  simp [timestamp, padded_plain, marks]

end EndpointPreview.Preview
