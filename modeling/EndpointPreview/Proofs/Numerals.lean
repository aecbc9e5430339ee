import EndpointPreview.Proofs.PlainText
import EndpointPreview.Text.Numeral

/-!
Digits at the front of a text. They are read as far as they go, a digit is neither a sign nor
white space, and a number of 32 bits is read back from its decimal digits.
-/

namespace EndpointPreview.Text

theorem digit_apart (b other : UInt8) (digit : isDigit b = true) (letter : isDigit other = false) :
    b ≠ other := by
  rintro rfl
  cases digit.symm.trans letter

theorem digit_solid (b : UInt8) (digit : isDigit b = true) : isSpace b = false := by
  simp only [isDigit, isSpace, Bool.and_eq_true, Bool.or_eq_false_iff, Bool.and_eq_false_iff,
    decide_eq_true_eq, decide_eq_false_iff_not, beq_eq_false_iff_ne, ne_eq,
    UInt8.le_iff_toNat_le, ← UInt8.toNat_inj, UInt8.reduceToNat] at digit ⊢
  omega

theorem mem_digits (b : UInt8) (digit : isDigit b = true) : b ∈ ascii "0123456789" := by
  simp only [isDigit, Bool.and_eq_true, decide_eq_true_eq, UInt8.le_iff_toNat_le,
    UInt8.reduceToNat] at digit
  have known : b = UInt8.ofNat (48 + (b.toNat - 48)) := by
    rw [Nat.add_sub_cancel' digit.1, UInt8.ofNat_toNat]
  have row : ascii "0123456789" = (List.range 10).map fun d => UInt8.ofNat (48 + d) := by rfl
  rw [row, known]
  exact List.mem_map_of_mem (List.mem_range.mpr (by omega))

/-- No digit is in the class. -/
theorem digit_outside (inClass : UInt8 → Bool)
    (apart : (ascii "0123456789").all (!inClass ·) = true) {b : UInt8} (digit : isDigit b = true) :
    inClass b = false := by
  simpa using List.all_eq_true.mp apart b (mem_digits b digit)

def AllDigits (text : Bytes) : Prop := ∀ b ∈ text, isDigit b = true

theorem AllDigits.decimal (n : Nat) : AllDigits (decimal n) := isDigit_of_mem_decimal n

theorem not_mem_decimal (mark : UInt8) (n : Nat) (other : isDigit mark = false) :
    mark ∉ decimal n := fun member =>
  digit_apart mark mark (AllDigits.decimal n mark member) other rfl

def EndsDigits (rest : Bytes) : Prop := ∀ b ∈ rest.head?, isDigit b = false

theorem takeWhile_run (inClass : UInt8 → Bool) (run rest : Bytes)
    (all : ∀ b ∈ run, inClass b = true) (ends : ∀ b ∈ rest.head?, inClass b = false) :
    (run ++ rest).takeWhile inClass = run ∧ (run ++ rest).dropWhile inClass = rest := by
  rw [List.takeWhile_append_of_pos all, List.dropWhile_append_of_pos all]
  cases rest with
  | nil => exact ⟨List.append_nil run, rfl⟩
  | cons b rest =>
      have stops : ¬ inClass b = true := by simp [ends b rfl]
      rw [List.takeWhile_cons_of_neg stops, List.dropWhile_cons_of_neg stops]
      exact ⟨List.append_nil run, rfl⟩

theorem takeWhile_digits (digits rest : Bytes) (all : AllDigits digits) (ends : EndsDigits rest) :
    (digits ++ rest).takeWhile isDigit = digits ∧ (digits ++ rest).dropWhile isDigit = rest :=
  takeWhile_run isDigit digits rest all ends

end EndpointPreview.Text

namespace EndpointPreview.Numeral

open Text

theorem takeSign_digits (digits : Bytes) (all : AllDigits digits) :
    takeSign digits = (false, digits) := by
  cases digits with
  | nil => rfl
  | cons first rest =>
      have digit := all first List.mem_cons_self
      have minus : first ≠ byte '-' := digit_apart first _ digit rfl
      have plus : first ≠ byte '+' := digit_apart first _ digit rfl
      rw [takeSign, if_neg (by simpa using minus), if_neg (by simpa using plus)]

theorem ofDigits_decimal (n : Nat) : ofDigits 10 (decimal n) = n := decimal_value n

theorem signed_decimal (gap : Bytes) (blank : isBlank gap = true) (n : Nat) :
    signed? 10 isDigit (gap ++ decimal n) = some (n : Int) := by
  have solid : ∀ b ∈ (decimal n).head?, isSpace b = false := by
    intro b head
    exact digit_solid b (AllDigits.decimal n b (List.mem_of_mem_head? head))
  have started := (takeWhile_run isSpace gap (decimal n) (List.all_eq_true.mp blank) solid).2
  have whole := (takeWhile_digits (decimal n) [] (.decimal n) (by rintro b ⟨⟩)).1
  rw [List.append_nil] at whole
  unfold signed?
  rw [started, takeSign_digits (decimal n) (.decimal n)]
  simp [whole, decimal_ne_nil, ofDigits_decimal, applySign]

/-- A number of 32 bits is read back from its digits, behind a space. -/
theorem int32_decimal (n : Nat) (small : n < 2147483648) :
    int32? (32 :: decimal n) = some (n : Int) := by
  have signed : signed? 10 isDigit (32 :: decimal n) = some (n : Int) :=
    signed_decimal [32] rfl n
  have fits : fits32 (n : Int) = some (n : Int) := by
    unfold fits32 within limit32
    rw [if_pos (by omega)]
  unfold int32?
  rw [signed]
  exact fits

theorem fits64_natural (n : Nat) :
    fits64 (n : Int) = if (n : Int) < limit64 then some (n : Int) else none := by
  unfold fits64 within limit64
  congr 1
  rw [eq_iff_iff]
  omega

/-- A number is read back from its digits if it has 64 bits. -/
theorem int64_decimal (n : Nat) : int64? (decimal n) = fits64 (n : Int) := by
  have signed : signed? 10 isDigit (decimal n) = some (n : Int) := signed_decimal [] rfl n
  unfold int64?
  rw [signed]
  rfl

/-- The same for hexadecimal digits behind their mark. -/
theorem hexInt64_digits (digits : Bytes) (some_digit : digits ≠ [])
    (all : ∀ b ∈ digits, isHexDigit b = true) :
    hexInt64? (ascii "0x" ++ digits) = fits64 (ofDigits 16 digits : Int) := by
  obtain ⟨first, later, rfl⟩ := List.exists_cons_of_ne_nil some_digit
  have hexadecimal := all first List.mem_cons_self
  have behind : dropHexMark (byte '0' :: byte 'x' :: first :: later) = first :: later := by
    simp [dropHexMark, hexadecimal]
  have whole := (takeWhile_run isHexDigit (first :: later) [] all (by rintro b ⟨⟩)).1
  rw [List.append_nil] at whole
  have signed : signed? 16 isHexDigit (byte '0' :: byte 'x' :: first :: later) =
      some (ofDigits 16 (first :: later) : Int) := by
    have started : takeSign ((byte '0' :: byte 'x' :: first :: later).dropWhile isSpace) =
        (false, byte '0' :: byte 'x' :: first :: later) := rfl
    unfold signed?
    rw [started]
    dsimp only
    rw [if_pos (beq_self_eq_true 16), behind, whole]
    rfl
  unfold hexInt64?
  exact congrArg (Option.bind · fits64) signed

end EndpointPreview.Numeral
