import Mathlib.Data.List.TakeWhile
import EndpointPreview.Json.Reader
import EndpointPreview.Json.Writer
import EndpointPreview.Proofs.Doubles
import EndpointPreview.Proofs.Numerals
import EndpointPreview.StrictFormats

/-!
Numbers in JSON text. A whole number of 64 bits is read back from its digits, and the text of
every double is the text of a number, in each of its layouts. What follows a number in a document
ends it.
-/

namespace EndpointPreview.Text

theorem digits_head (n : Nat) (positive : 0 < n) :
    ∃ first rest, decimal n = first :: rest ∧ first ≠ byte '0' := by
  rw [decimal_eq]
  induction n using Nat.strongRecOn with
  | ind n ih =>
      rcases Nat.lt_or_ge n 10 with small | large
      · rw [Nat.toDigits_of_lt_base small]
        have digit : ∀ n < 10, 0 < n → byte (Nat.digitChar n) ≠ byte '0' := by decide
        exact ⟨byte n.digitChar, [], rfl, digit n small positive⟩
      · have smaller : n / 10 < n := Nat.div_lt_self positive (by decide)
        obtain ⟨first, rest, whole, nonzero⟩ := ih (n / 10) smaller (by omega)
        rw [Nat.toDigits_of_base_le (by decide) large, List.map_append, whole]
        exact ⟨first, _, rfl, nonzero⟩

end EndpointPreview.Text

namespace EndpointPreview.Numeral

open Text

theorem ofDigits_append (base : Nat) (left right : Bytes) :
    ofDigits base (left ++ right) = ofDigits base left * base ^ right.length + ofDigits base right := by
  have each (start : Nat) : right.foldl (fun value b => value * base + digitValue b) start =
      start * base ^ right.length + ofDigits base right := by
    unfold ofDigits
    induction right generalizing start with
    | nil => simp
    | cons b right ih =>
        rw [List.foldl_cons, ih, List.foldl_cons, ih (0 * base + digitValue b), List.length_cons,
          Nat.pow_succ]
        ring
  unfold ofDigits
  rw [List.foldl_append, each]
  rfl

theorem ofDigits_zeros (base count : Nat) : ofDigits base (List.replicate count (byte '0')) = 0 := by
  induction count with
  | zero => rfl
  | succ count ih =>
      rw [List.replicate_succ', ofDigits_append, ih]
      simp [ofDigits, digitValue, isDigit, byte]

end EndpointPreview.Numeral

namespace EndpointPreview.Json

open Text Numeral

/-- A number in a document is followed by nothing or by one of the marks of its containers. -/
def EndsNumber (rest : Bytes) : Prop :=
  ∀ b ∈ rest.head?, b = byte ',' ∨ b = byte ']' ∨ b = closeBrace

theorem EndsNumber.digits {rest : Bytes} (ends : EndsNumber rest) : EndsDigits rest := by
  intro b first
  rcases ends b first with rfl | rfl | rfl <;> rfl

theorem fraction_none (rest : Bytes) (ends : ∀ b ∈ rest.head?, b ≠ byte '.') :
    fraction? rest = some ([], rest) := by
  cases rest with
  | nil => rfl
  | cons b rest => rw [fraction?, if_neg (by simpa using ends b rfl)]

theorem EndsNumber.point {rest : Bytes} (ends : EndsNumber rest) : ∀ b ∈ rest.head?, b ≠ byte '.' := by
  intro b first
  rcases ends b first with rfl | rfl | rfl <;> decide

theorem exponent_none (rest : Bytes) (ends : EndsNumber rest) :
    exponent? rest = some (none, rest) := by
  cases rest with
  | nil => rfl
  | cons b rest => rcases ends b rfl with rfl | rfl | rfl <;> rfl

def sign (negative : Bool) : Bytes := if negative then [byte '-'] else []

def fractionText (part : Bytes) : Bytes := if part = [] then [] else byte '.' :: part

def exponentMark : Option (Bool × Bytes) → Bytes
  | none => []
  | some (negative, digits) => byte 'e' :: (if negative then byte '-' else byte '+') :: digits

def exponentValue (exponent : Option (Bool × Bytes)) : Option Int :=
  exponent.map fun written => applySign written.1 (ofDigits 10 written.2)

theorem isWhole_head (first : UInt8) (rest : Bytes) (nonzero : first ≠ byte '0') :
    isWhole (first :: rest) = true := by
  cases rest with
  | nil => rfl
  | cons second rest => simpa [isWhole] using nonzero

theorem isWhole_decimal (n : Nat) : isWhole (decimal n) = true := by
  rcases Nat.eq_zero_or_pos n with rfl | positive
  · rfl
  · obtain ⟨first, rest, whole, nonzero⟩ := digits_head n positive
    rw [whole]
    exact isWhole_head first rest nonzero

theorem fraction_fractionText (part rest : Bytes) (digits : AllDigits part)
    (ends : EndsDigits rest) (point : part = [] → ∀ b ∈ rest.head?, b ≠ byte '.') :
    fraction? (fractionText part ++ rest) = some (part, rest) := by
  unfold fractionText
  split
  · rename_i empty
    rw [empty]
    exact fraction_none rest (point empty)
  · rename_i written
    obtain ⟨front, back⟩ := takeWhile_digits part rest digits ends
    rw [List.cons_append, fraction?, if_pos (by simp), front, back]
    simp [written]

theorem exponent_exponentMark (exponent : Option (Bool × Bytes)) (rest : Bytes)
    (written : ∀ mark ∈ exponent, mark.2 ≠ [] ∧ AllDigits mark.2) (ends : EndsNumber rest) :
    exponent? (exponentMark exponent ++ rest) = some (exponentValue exponent, rest) := by
  cases exponent with
  | none => exact exponent_none rest ends
  | some mark =>
      obtain ⟨negative, digits⟩ := mark
      obtain ⟨nonempty, all⟩ := written _ rfl
      obtain ⟨front, back⟩ := takeWhile_digits digits rest all ends.digits
      have signed : takeSign ((if negative then byte '-' else byte '+') :: (digits ++ rest)) =
          (negative, digits ++ rest) := by cases negative <;> rfl
      have mark : isDecimalMark (byte 'e') = true := rfl
      simp only [exponentMark, List.cons_append, exponent?]
      rw [if_pos mark, signed]
      dsimp only
      rw [front, back, if_neg (by simpa using nonempty)]
      rfl

-- The parts are those of a number: digits, of which none is needless.
structure IsNumber (whole part : Bytes) (exponent : Option (Bool × Bytes)) : Prop where
  single : isWhole whole = true
  wholeDigits : AllDigits whole
  partDigits : AllDigits part
  written : ∀ mark ∈ exponent, mark.2 ≠ [] ∧ AllDigits mark.2

section Parts

variable (negative : Bool) (whole part rest : Bytes) (exponent : Option (Bool × Bytes))

theorem exponentMark_head (ends : EndsNumber rest) :
    ∀ b ∈ (exponentMark exponent ++ rest).head?, isDigit b = false ∧ b ≠ byte '.' := by
  cases exponent with
  | none => exact fun b first => ⟨ends.digits b first, ends.point b first⟩
  | some mark =>
      rintro b ⟨⟩
      decide

/-- A number is read from its parts, with what follows it. -/
theorem number_parts (isNumber : IsNumber whole part exponent) (ends : EndsNumber rest) :
    takeNumber (sign negative ++ (whole ++ (fractionText part ++ (exponentMark exponent ++ rest)))) =
      (number negative whole part (exponentValue exponent)).map (·, rest) := by
  obtain ⟨single, wholeDigits, partDigits, written⟩ := isNumber
  let after := exponentMark exponent ++ rest
  have head := exponentMark_head rest exponent ends
  have stops : EndsDigits (fractionText part ++ after) := by
    unfold fractionText
    split
    · exact fun b first => (head b first).1
    · rintro b ⟨⟩
      rfl
  obtain ⟨front, back⟩ := takeWhile_digits whole (fractionText part ++ after) wholeDigits stops
  have signed : ((sign negative ++ (whole ++ (fractionText part ++ after))).head? ==
      some (byte '-')) = negative := by
    cases negative with
    | true => rfl
    | false =>
        cases whole with
        | nil => cases single
        | cons first whole =>
            have digit := wholeDigits first List.mem_cons_self
            have other : first ≠ byte '-' := digit_apart first _ digit rfl
            simpa [sign] using other
  have body : (if negative then (sign negative ++ (whole ++ (fractionText part ++ after))).drop 1
      else sign negative ++ (whole ++ (fractionText part ++ after))) =
      whole ++ (fractionText part ++ after) := by cases negative <;> rfl
  have fraction := fraction_fractionText part after partDigits (fun b first => (head b first).1)
    (fun _ b first => (head b first).2)
  have mark := exponent_exponentMark exponent rest written ends
  unfold takeNumber
  dsimp only
  rw [signed, body, front, back, single, fraction]
  dsimp only
  rw [mark]
  rfl

end Parts

theorem integer_fits (n : Int) (low : -limit64 ≤ n) (high : n < 2 * limit64) :
    integer? (decide (n < 0)) n.natAbs = some (.int n) := by
  unfold integer?
  rcases lt_or_ge n 0 with negative | positive
  · rw [decide_eq_true negative, if_pos rfl, if_pos (by omega)]
    congr 2
    omega
  · rw [decide_eq_false (by omega), if_neg (by simp), if_pos (by omega)]
    congr 2
    omega

/-- A whole number of 64 bits is read back. -/
theorem number_signedDecimal (n : Int) (rest : Bytes) (low : -limit64 ≤ n) (high : n < 2 * limit64)
    (ends : EndsNumber rest) : takeNumber (signedDecimal n ++ rest) = .ok (.int n, rest) := by
  have isNumber : IsNumber (decimal n.natAbs) [] none :=
    ⟨isWhole_decimal _, .decimal _, by rintro b ⟨⟩, by rintro mark ⟨⟩⟩
  have parts := number_parts (decide (n < 0)) (decimal n.natAbs) [] rest none isNumber ends
  have text : signedDecimal n ++ rest = sign (decide (n < 0)) ++ (decimal n.natAbs ++ rest) := by
    unfold signedDecimal sign
    split <;> simp_all
  have value : number (decide (n < 0)) (decimal n.natAbs) [] none = .ok (.int n) := by
    unfold number
    simp only [List.append_nil, ofDigits_decimal, List.isEmpty_nil, Option.isNone_none,
      Bool.and_self, ↓reduceIte, integer_fits n low high, Option.elim_some]
  have whole : exponentValue none = none := rfl
  rw [whole, value] at parts
  rw [text]
  exact parts

theorem digitBytes_digitList (n : Nat) : digitBytes (Decimal.digitList n) = decimal n := by
  rw [decimal_eq]
  unfold digitBytes Decimal.digitList
  rw [List.map_map]
  refine List.map_congr_left fun c member => ?_
  obtain ⟨low, high⟩ := digit_bounds c (Nat.isDigit_of_mem_toDigits (by decide) (by decide) member)
  have same : 48 + (c.toNat - 48) % 10 = c.toNat := by omega
  change UInt8.ofNat (48 + (c.toNat - 48) % 10) = UInt8.ofNat c.toNat
  rw [same]

/-- Zeros at the end of the digits are the only ones that are dropped. -/
theorem digitBytes_stripped (n : Nat) : ∃ zeros,
    decimal n = digitBytes ((Decimal.digitList n).reverse.dropWhile (· == 0)).reverse ++
      List.replicate zeros (byte '0') ∧
    (Decimal.digitList n).length =
      ((Decimal.digitList n).reverse.dropWhile (· == 0)).reverse.length + zeros := by
  let ends := (Decimal.digitList n).reverse.takeWhile (· == 0)
  have zeros : ends = List.replicate ends.length 0 :=
    List.eq_replicate_length.mpr fun d member =>
      beq_iff_eq.mp (List.mem_takeWhile_imp (p := (· == 0)) member)
  have split : Decimal.digitList n =
      ((Decimal.digitList n).reverse.dropWhile (· == 0)).reverse ++ List.replicate ends.length 0 := by
    rw [← List.reverse_replicate, ← zeros, ← List.reverse_append, List.takeWhile_append_dropWhile,
      List.reverse_reverse]
  refine ⟨ends.length, ?_, ?_⟩
  · rw [← digitBytes_digitList]
    conv_lhs => rw [split]
    unfold digitBytes
    rw [List.map_append, List.map_replicate]
    rfl
  · conv_lhs => rw [split]
    simp

theorem digit_byte : ∀ d : Fin 10, isDigit (UInt8.ofNat (48 + d.val)) = true ∧
    digitValue (UInt8.ofNat (48 + d.val)) = d.val ∧
    (UInt8.ofNat (48 + d.val) = byte '0' → d = 0) := by decide

theorem digitBytes_digits (digits : List (Fin 10)) : AllDigits (digitBytes digits) := by
  intro b member
  obtain ⟨d, _, rfl⟩ := List.mem_map.mp member
  exact (digit_byte d).1

theorem ofDigits_digitBytes (number : Decimal.Digits) :
    ofDigits 10 (digitBytes number.digits) = number.whole := by
  unfold ofDigits digitBytes Decimal.Digits.whole
  rw [List.foldl_map]
  refine List.foldl_ext _ _ 0 fun n d _ => ?_
  rw [(digit_byte d).2.1, Nat.mul_comm]

/-- The shortest digits of a double read back. -/
theorem shortest_spells (magnitude : Nat) (nonzero : 0 < magnitude)
    (finite : magnitude < Decimal.infinity) : (Decimal.shortest magnitude).Spells magnitude := by
  obtain ⟨m, e, positive, reads, made⟩ := Decimal.shortest_reads magnitude nonzero finite
  obtain ⟨zeros, whole, count⟩ := digitBytes_stripped m
  rw [made]
  generalize ((Decimal.digitList m).reverse.dropWhile (· == 0)).reverse = digits at whole count ⊢
  refine ⟨?_, (Decimal.readsBack_eq _ _ _).mpr ?_⟩
  · obtain ⟨first, rest, written, other⟩ := digits_head m positive
    cases digits with
    | nil =>
        rw [written, digitBytes, List.map_nil, List.nil_append] at whole
        have member : first ∈ List.replicate zeros (byte '0') := whole ▸ List.mem_cons_self
        exact absurd (List.eq_of_mem_replicate member) other
    | cons d more =>
        refine ⟨d, more, rfl, ?_⟩
        rintro rfl
        rw [written] at whole
        exact other (List.cons.inj whole).1
  · have place : e + ((Decimal.digitList m).length : Int) - digits.length = zeros + e := by
      rw [count]
      push_cast
      ring
    generalize e + ((Decimal.digitList m).length : Int) = point at place ⊢
    have value := ofDigits_decimal m
    rw [whole, ofDigits_append, ofDigits_zeros, List.length_replicate, Nat.add_zero,
      ofDigits_digitBytes ⟨digits, point⟩] at value
    rw [← reads]
    refine Decimal.nearest_congr _ _ _ _ (Decimal.scaled_pos _ 10 _ (by decide))
      (Decimal.scaled_pos _ 10 _ (by decide)) ?_
    have own : Decimal.ratio (Decimal.scaled m 10 e) = m * ((10 : Nat) : ℚ) ^ e :=
      Decimal.scaled_ratio m 10 e
    rw [own, Decimal.scaled_ratio, ← value, place, zpow_add₀ (by norm_num), zpow_natCast]
    push_cast
    ring

section Strict

attribute [local instance] strict

instance strict_lawful : LawfulDialect where
  spells := shortest_spells

end Strict

structure IsSignificand (digits : Bytes) : Prop where
  all : AllDigits digits
  head : ∃ first rest, digits = first :: rest ∧ first ≠ byte '0'

def valueAt (digits : Bytes) (point : Int) : ℚ :=
  ofDigits 10 digits * (10 : ℚ) ^ (point - digits.length)

/-- Digits that read back stand for a number that rounds to the double. -/
theorem spelled_value {number : Decimal.Digits} {magnitude : Nat} (spells : number.Spells magnitude) :
    IsSignificand (digitBytes number.digits) ∧
      ∃ num den, 0 < den ∧ Decimal.nearest num den = magnitude ∧
        Decimal.ratio (num, den) = valueAt (digitBytes number.digits) number.point := by
  obtain ⟨first, rest, written, nonzero⟩ := spells.head
  let fraction := Decimal.scaled number.whole 10 (number.point - number.digits.length)
  refine ⟨⟨digitBytes_digits _, _, digitBytes rest, by rw [written]; rfl,
    fun zero => nonzero ((digit_byte first).2.2 zero)⟩, fraction.1, fraction.2,
    Decimal.scaled_pos _ 10 _ (by decide), (Decimal.readsBack_eq _ _ _).mp spells.reads, ?_⟩
  have own : Decimal.ratio (fraction.1, fraction.2) =
      number.whole * ((10 : Nat) : ℚ) ^ (number.point - number.digits.length) :=
    Decimal.scaled_ratio _ 10 _
  rw [own, valueAt, ofDigits_digitBytes, digitBytes, List.length_map]
  rfl

/-- The text is that of a number with a point or an exponent, and stands for the value. -/
def WritesFloat (value : ℚ) (text : Bytes) : Prop :=
  ∃ whole part exponent, text = whole ++ (fractionText part ++ exponentMark exponent) ∧
    IsNumber whole part exponent ∧ (part ≠ [] ∨ exponent ≠ none) ∧
    ofDigits 10 (whole ++ part) * (10 : ℚ) ^ ((exponentValue exponent).getD 0 - part.length) = value

section Layouts

variable (layout : FloatLayout) (digits : Bytes) (point : Int) (isSignificand : IsSignificand digits)
include isSignificand

theorem writes_padded (right : digits.length ≤ point.toNat) (positive : 0 < point) :
    WritesFloat (valueAt digits point)
      (digits ++ List.replicate (point.toNat - digits.length) (byte '0') ++ ascii ".0") := by
  obtain ⟨all, first, rest, whole, nonzero⟩ := isSignificand
  generalize zeros_eq : point.toNat - digits.length = zeros
  have zeros_digits : AllDigits (List.replicate zeros (byte '0')) := by
    intro b member
    rw [List.eq_of_mem_replicate member]
    rfl
  have point_eq : point - digits.length = zeros := by omega
  refine ⟨digits ++ List.replicate zeros (byte '0'), [byte '0'], none, ?_, ⟨?_, ?_, ?_, ?_⟩, ?_, ?_⟩
  · simp [fractionText, exponentMark, ascii]
  · rw [whole, List.cons_append]
    exact isWhole_head first _ nonzero
  · exact List.forall_mem_append.mpr ⟨all, zeros_digits⟩
  · intro b member
    rw [List.mem_singleton.mp member]
    rfl
  · rintro mark ⟨⟩
  · exact .inl (List.cons_ne_nil _ _)
  · have last : [byte '0'] = List.replicate 1 (byte '0') := rfl
    unfold valueAt
    rw [last, ofDigits_append, ofDigits_append, ofDigits_zeros, ofDigits_zeros, point_eq]
    simp [exponentValue]

theorem writes_split (low : 0 < point) (inside : ¬ digits.length ≤ point.toNat) :
    WritesFloat (valueAt digits point)
      (digits.take point.toNat ++ byte '.' :: digits.drop point.toNat) := by
  obtain ⟨all, first, rest, whole, nonzero⟩ := isSignificand
  have later : digits.drop point.toNat ≠ [] := by
    rw [Ne, List.drop_eq_nil_iff]
    exact inside
  refine ⟨digits.take point.toNat, digits.drop point.toNat, none, ?_, ⟨?_, ?_, ?_, ?_⟩,
    .inl later, ?_⟩
  · simp [fractionText, later, exponentMark]
  · obtain ⟨count, more⟩ : ∃ count, point.toNat = count + 1 := ⟨point.toNat - 1, by omega⟩
    rw [more, whole, List.take_succ_cons]
    exact isWhole_head first _ nonzero
  · exact fun b member => all b (List.mem_of_mem_take member)
  · exact fun b member => all b (List.mem_of_mem_drop member)
  · rintro mark ⟨⟩
  · unfold valueAt
    rw [List.take_append_drop, List.length_drop]
    congr 2
    simp only [exponentValue, Option.map_none, Option.getD_none]
    omega

theorem writes_small (left : point ≤ 0) :
    WritesFloat (valueAt digits point)
      (ascii "0." ++ List.replicate point.natAbs (byte '0') ++ digits) := by
  obtain ⟨all, first, rest, whole, nonzero⟩ := isSignificand
  have solid : List.replicate point.natAbs (byte '0') ++ digits ≠ [] := by simp [whole]
  refine ⟨[byte '0'], List.replicate point.natAbs (byte '0') ++ digits, none, ?_, ⟨rfl, ?_, ?_, ?_⟩,
    .inl solid, ?_⟩
  · rw [fractionText, if_neg solid]
    simp [exponentMark, ascii]
  · intro b member
    rw [List.mem_singleton.mp member]
    rfl
  · refine List.forall_mem_append.mpr ⟨fun b member => ?_, all⟩
    rw [List.eq_of_mem_replicate member]
    rfl
  · rintro mark ⟨⟩
  · have first : [byte '0'] = List.replicate 1 (byte '0') := rfl
    unfold valueAt
    rw [first, ofDigits_append, ofDigits_append, ofDigits_zeros, ofDigits_zeros, List.length_append,
      List.length_replicate]
    simp only [exponentValue, Option.map_none, Option.getD_none, Nat.zero_mul, Nat.zero_add]
    congr 2
    omega

theorem writes_exponent :
    WritesFloat (valueAt digits point)
      (digits.take 1 ++ (if digits.length ≤ 1 then [] else byte '.' :: digits.drop 1) ++
        exponentText layout (point - 1)) := by
  obtain ⟨all, first, rest, whole, nonzero⟩ := isSignificand
  subst whole
  let power := padLeft layout.exponentDigits (decimal (point - 1).natAbs)
  have powerDigits : AllDigits power := by
    refine List.forall_mem_append.mpr ⟨fun b member => ?_, AllDigits.decimal _⟩
    rw [List.eq_of_mem_replicate member]
    rfl
  have powerValue : ofDigits 10 power = (point - 1).natAbs := by
    change ofDigits 10 (List.replicate _ _ ++ _) = _
    rw [ofDigits_append, ofDigits_zeros, ofDigits_decimal, Nat.zero_mul, Nat.zero_add]
  have powerSolid : power ≠ [] := by simp [power, padLeft, decimal_ne_nil]
  refine ⟨[first], rest, some (decide (point - 1 < 0), power), ?_, ⟨rfl, ?_, ?_, ?_⟩,
    .inr (by simp), ?_⟩
  · cases rest with
    | nil => simp [fractionText, exponentMark, exponentText, power]
    | cons second rest => simp [fractionText, exponentMark, exponentText, power]
  · intro b member
    rw [List.mem_singleton.mp member]
    exact all first List.mem_cons_self
  · exact fun b member => all b (List.mem_cons_of_mem first member)
  · rintro mark ⟨⟩
    exact ⟨powerSolid, powerDigits⟩
  · have scale : applySign (decide (point - 1 < 0)) (ofDigits 10 power) = point - 1 := by
      rw [powerValue, applySign]
      rcases lt_or_ge (point - 1) 0 with negative | positive
      · rw [decide_eq_true negative, if_pos rfl]
        omega
      · rw [decide_eq_false (by omega), if_neg (by simp)]
        omega
    unfold valueAt exponentValue
    rw [Option.map_some, Option.getD_some, scale, List.singleton_append]
    congr 2
    rw [List.length_cons]
    push_cast
    ring

end Layouts

theorem writes_digitsText (layout : FloatLayout) (number : Decimal.Digits)
    (isSignificand : IsSignificand (digitBytes number.digits)) :
    WritesFloat (valueAt (digitBytes number.digits) number.point) (digitsText layout number) := by
  unfold digitsText
  dsimp only
  split
  · rename_i plain
    split
    · rename_i right
      exact writes_padded _ _ isSignificand right plain.1
    · rename_i inside
      exact writes_split _ _ isSignificand plain.1 inside
  · split
    · rename_i small
      exact writes_small _ _ isSignificand small.2
    · exact writes_exponent layout _ _ isSignificand

/-- A number with a point or an exponent, within the doubles, is read as a double. -/
theorem number_writes (negative : Bool) (value : ℚ) (text rest : Bytes) (writes : WritesFloat value text)
    (fits : ∃ num den, 0 < den ∧ Decimal.nearest num den < Decimal.infinity ∧
      Decimal.ratio (num, den) = value) (ends : EndsNumber rest) :
    ∃ bits, takeNumber (sign negative ++ (text ++ rest)) = .ok (.float bits, rest) := by
  obtain ⟨whole, part, exponent, rfl, isNumber, floating, same⟩ := writes
  obtain ⟨num, den, positive, finite, value_eq⟩ := fits
  have parts := number_parts negative whole part rest exponent isNumber ends
  have rounded := Decimal.roundDecimal_fits _ _ num den positive (value_eq.trans same.symm) finite
  have float : number negative whole part (exponentValue exponent) = roundedFloat negative
      (Decimal.roundDecimal (ofDigits 10 (whole ++ part))
        ((exponentValue exponent).getD 0 - part.length)) := by
    unfold number
    dsimp only
    rw [if_neg]
    rcases floating with pointed | scaled
    · simp [pointed]
    · simp [exponentValue, scaled]
  rw [float] at parts
  simp only [List.append_assoc]
  rw [parts]
  cases outcome : Decimal.roundDecimal (ofDigits 10 (whole ++ part))
      ((exponentValue exponent).getD 0 - part.length) with
  | finite magnitude => exact ⟨_, rfl⟩
  | underflow magnitude => exact ⟨_, rfl⟩
  | overflow => exact absurd outcome rounded

theorem writes_zero : WritesFloat 0 (ascii "0.0") := by
  refine ⟨[byte '0'], [byte '0'], none, rfl, ⟨rfl, ?_, ?_, by rintro mark ⟨⟩⟩, .inl (by simp), ?_⟩
  · rintro b member
    rw [List.mem_singleton.mp member]
    rfl
  · rintro b member
    rw [List.mem_singleton.mp member]
    rfl
  · have zeros : ofDigits 10 ([byte '0'] ++ [byte '0']) = 0 := rfl
    rw [zeros]
    simp

/-- The text of a finite double is read as a double. -/
theorem number_floatText [Dialect] [LawfulDialect] (bits : UInt64) (rest : Bytes)
    (finite : Decimal.magnitude bits < Decimal.infinity) (ends : EndsNumber rest) :
    ∃ again, takeNumber (floatText bits ++ rest) = .ok (.float again, rest) := by
  have text : floatText bits ++ rest = sign (Decimal.isNegative bits) ++
      (magnitudeText floatLayout (Decimal.magnitude bits) ++ rest) := by
    unfold floatText
    rw [if_neg (Nat.not_le.mpr finite), List.append_assoc]
    rfl
  rw [text]
  unfold magnitudeText
  split
  · have fits : ∃ num den, 0 < den ∧ Decimal.nearest num den < Decimal.infinity ∧
        Decimal.ratio (num, den) = 0 := ⟨0, 1, Nat.one_pos, by decide, by simp [Decimal.ratio]⟩
    exact number_writes _ 0 _ rest writes_zero fits ends
  · rename_i nonzero
    have spells := LawfulDialect.spells _ (Nat.pos_of_ne_zero nonzero) finite
    obtain ⟨isSignificand, num, den, positive, reads, value⟩ := spelled_value spells
    have writes := writes_digitsText floatLayout _ isSignificand
    exact number_writes _ _ _ rest writes ⟨num, den, positive, reads.symm ▸ finite, value⟩ ends

end EndpointPreview.Json
