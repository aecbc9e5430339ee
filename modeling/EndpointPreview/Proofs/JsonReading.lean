import EndpointPreview.Proofs.JsonNumbers
import EndpointPreview.Proofs.JsonValues

/-!
Values are read back from their JSON text. Strings, keys and whole numbers of 64 bits come back as
they are, a finite double as a double, one that is not finite as null, and an object as the table
of its members; this holds of every value that has a text, in front of whatever a document goes on
with.
-/

namespace EndpointPreview.Json

open Text

-- The escapes of control bytes, which are all there are.
theorem hexDigits_control : ∀ n < 32,
    [byte '0', byte '0', hexDigit (n / 16), hexDigit (n % 16)].all isHexDigit = true ∧
    Numeral.ofDigits 16 [byte '0', byte '0', hexDigit (n / 16), hexDigit (n % 16)] = n ∧
    isLowSurrogate n = false ∧ isHighSurrogate n = false ∧ Utf8.encode n = [UInt8.ofNat n] := by
  decide

theorem escapedPoint_control (b : UInt8) (rest : Bytes) (control : b < 0x20) :
    escapedPoint? (byte '0' :: byte '0' :: hexDigit (b.toNat / 16) :: hexDigit (b.toNat % 16) :: rest) =
      some (b.toNat, rest) ∧ Utf8.encode b.toNat = [b] := by
  have small : b.toNat < 32 := UInt8.lt_iff_toNat_lt.mp control
  obtain ⟨hex, value, low, high, encoded⟩ := hexDigits_control b.toNat small
  rw [UInt8.ofNat_toNat] at encoded
  have read : hex4? (byte '0' :: byte '0' :: hexDigit (b.toNat / 16) :: hexDigit (b.toNat % 16) ::
      rest) = some (b.toNat, rest) := by
    unfold hex4?
    dsimp only
    rw [hex, if_pos rfl, value]
  refine ⟨?_, encoded⟩
  unfold escapedPoint?
  rw [read]
  dsimp only
  rw [low, high]
  rfl

/-- One byte of a string is read from its escaped form. -/
theorem stringRest_escapeByte (made : Bytes) (steps : Nat) (b : UInt8) (rest : Bytes) :
    stringRest? made (steps + 1) (escapeByte b ++ rest) = stringRest? (b :: made) steps rest := by
  unfold escapeByte
  split
  · rename_i mark
    have cases : b = doubleQuote ∨ b = backslash := by simpa using mark
    rcases cases with rfl | rfl <;> rfl
  split
  · rename_i _ own
    rw [beq_iff_eq.mp own]
    rfl
  split
  · rename_i _ _ own
    rw [beq_iff_eq.mp own]
    rfl
  split
  · rename_i _ _ _ own
    rw [beq_iff_eq.mp own]
    rfl
  split
  · rename_i _ _ _ _ own
    rw [beq_iff_eq.mp own]
    rfl
  split
  · rename_i _ _ _ _ _ own
    rw [beq_iff_eq.mp own]
    rfl
  split
  · rename_i control
    obtain ⟨point, encoded⟩ := escapedPoint_control b rest control
    have opens : (backslash == doubleQuote) = false := rfl
    have printable : ¬ backslash < 0x20 := by decide
    simp only [List.cons_append, List.nil_append, stringRest?, opens, Bool.false_eq_true, ↓reduceIte,
      if_neg printable, beq_self_eq_true, point, encoded, List.reverse_singleton]
  · rename_i mark _ _ _ _ _ printable
    simp only [Bool.or_eq_true, not_or, Bool.not_eq_true] at mark
    simp only [List.singleton_append, stringRest?, mark, Bool.false_eq_true, ↓reduceIte,
      if_neg printable]

theorem stringRest_escaped (content made rest : Bytes) (steps : Nat) (enough : content.length < steps) :
    stringRest? made steps (content.flatMap escapeByte ++ doubleQuote :: rest) =
      some (made.reverse ++ content, rest) := by
  induction content generalizing made steps with
  | nil =>
      obtain ⟨steps, rfl⟩ : ∃ more, steps = more + 1 := ⟨steps - 1, by omega⟩
      simp [stringRest?]
  | cons b content ih =>
      obtain ⟨steps, rfl⟩ : ∃ more, steps = more + 1 := ⟨steps - 1, by omega⟩
      have further : content.length < steps := by
        rw [List.length_cons] at enough
        omega
      rw [List.flatMap_cons, List.append_assoc, stringRest_escapeByte, ih (b :: made) steps further]
      simp

theorem escapeByte_solid (b : UInt8) : 0 < (escapeByte b).length := by
  unfold escapeByte
  repeat' split
  all_goals simp

theorem length_escaped (content : Bytes) : content.length ≤ (content.flatMap escapeByte).length := by
  induction content with
  | nil => exact Nat.le_refl _
  | cons b content ih =>
      have solid := escapeByte_solid b
      rw [List.flatMap_cons, List.length_append, List.length_cons]
      omega

/-- A string of whole characters is read back. -/
theorem string_quoted (content rest : Bytes) (valid : Utf8.isValid content = true) :
    string? (quoted content ++ rest) = some (content, rest) := by
  have split : quoted content ++ rest =
      doubleQuote :: (content.flatMap escapeByte ++ doubleQuote :: rest) := by simp [quoted]
  have enough : content.length < (content.flatMap escapeByte ++ doubleQuote :: rest).length := by
    have least := length_escaped content
    rw [List.length_append, List.length_cons]
    omega
  rw [split, string?, if_pos (beq_self_eq_true _), stringRest_escaped content [] rest _ enough]
  simp [valid]

theorem takeString_quoted (content rest : Bytes) (valid : Utf8.isValid content = true) :
    takeString (quoted content ++ rest) = .ok (content, rest) := by
  rw [takeString, string_quoted content rest valid]
  rfl

mutual

def ReadsAs : Json → Json → Prop
  | .float _, read => read = .null ∨ ∃ bits, read = .float bits
  | .arr items, read => ∃ others, read = .arr others ∧ ItemsReadAs items others
  | .obj members, read => ∃ others, read = object others ∧ MembersReadAs members others
  | value, read => read = value

def ItemsReadAs : List Json → List Json → Prop
  | [], others => others = []
  | item :: rest, others =>
      ∃ first later, others = first :: later ∧ ReadsAs item first ∧ ItemsReadAs rest later

def MembersReadAs : Members → Members → Prop
  | [], others => others = []
  | (key, value) :: rest, others =>
      ∃ first later, others = (key, first) :: later ∧ ReadsAs value first ∧ MembersReadAs rest later

end

/-- A byte that a value can start with: no white space, not the end of a container and not the
first byte of a byte order mark. -/
def Opens (b : UInt8) : Prop :=
  isJsonSpace b = false ∧ b ≠ byte ']' ∧ b ≠ closeBrace ∧ b ≠ 0xEF

instance (b : UInt8) : Decidable (Opens b) := inferInstanceAs (Decidable (_ ∧ _))

theorem skipSpace_solid (b : UInt8) (rest : Bytes) (solid : isJsonSpace b = false) :
    skipSpace (b :: rest) = b :: rest :=
  List.dropWhile_cons_of_neg (by simp [solid])

/-- A number starts with a minus or a digit. -/
theorem number_head (text : Bytes) (read : Json × Bytes) (found : takeNumber text = .ok read) :
    ∃ b rest, text = b :: rest ∧ (b = byte '-' ∨ isDigit b = true) := by
  cases text with
  | nil => cases found
  | cons b rest =>
      refine ⟨b, rest, rfl, ?_⟩
      by_contra other
      rw [not_or, Bool.not_eq_true] at other
      have sign : ((b :: rest).head? == some (byte '-')) = false := by simpa using other.1
      have none_read : (b :: rest).takeWhile isDigit = [] :=
        List.takeWhile_cons_of_neg (by simp [other.2])
      have empty : isWhole [] = false := rfl
      unfold takeNumber at found
      dsimp only at found
      rw [sign] at found
      simp only [Bool.false_eq_true, ↓reduceIte, none_read, empty, Bool.not_false] at found
      cases found

theorem digit_opens (b : UInt8) (head : b = byte '-' ∨ isDigit b = true) : Opens b := by
  rcases head with rfl | digit
  · decide
  · refine ⟨?_, digit_apart b _ digit rfl, digit_apart b _ digit rfl, digit_apart b _ digit rfl⟩
    have space := digit_apart b 32 digit rfl
    have tab := digit_apart b 9 digit rfl
    have feed := digit_apart b 10 digit rfl
    have back := digit_apart b 13 digit rfl
    simp [isJsonSpace, space, tab, feed, back]

/-- Where a number stands the value is that number. -/
theorem value_number (depth : Nat) (text : Bytes) (read : Json × Bytes)
    (found : takeNumber text = .ok read) : takeValue depth text = .ok read := by
  obtain ⟨b, rest, rfl, head⟩ := number_head text read found
  have apart (mark : UInt8) (minus : mark ≠ byte '-') (letter : isDigit mark = false) :
      (b == mark) = false := by
    rw [beq_eq_false_iff_ne]
    rcases head with rfl | digit
    · exact minus.symm
    · exact digit_apart b mark digit letter
  unfold takeValue
  rw [apart doubleQuote (by decide) rfl, apart (byte '[') (by decide) rfl,
    apart openBrace (by decide) rfl, apart (byte 't') (by decide) rfl,
    apart (byte 'f') (by decide) rfl, apart (byte 'n') (by decide) rfl]
  exact found

theorem value_string (depth : Nat) (content rest : Bytes) (valid : Utf8.isValid content = true) :
    takeValue depth (quoted content ++ rest) = .ok (.str content, rest) := by
  have own : takeValue depth (quoted content ++ rest) =
      (takeString (quoted content ++ rest)).map fun read => (.str read.1, read.2) := by
    unfold takeValue
    rfl
  rw [own, takeString_quoted content rest valid]
  rfl

section Containers

variable (inner : Nat) (text later : Bytes) (first : UInt8) (skipped : skipSpace text = first :: later)
include skipped

theorem value_array (more : first ≠ byte ']') : takeValue (inner + 1) (byte '[' :: text) =
    (takeItems (takeValue inner) text.length (first :: later)).map fun (items, after) =>
      (.arr items, after) := by
  have letter : (byte '[' == doubleQuote) = false := rfl
  have opens : (byte '[' == byte '[') = true := rfl
  have closes : (first == byte ']') = false := beq_eq_false_iff_ne.mpr more
  unfold takeValue
  rw [letter, opens, skipped]
  simp only [Bool.false_eq_true, ↓reduceIte, closes]

theorem value_object (more : first ≠ closeBrace) : takeValue (inner + 1) (openBrace :: text) =
    (takeMembers (takeValue inner) text.length (first :: later)).map fun (members, after) =>
      (object members, after) := by
  have letter : (openBrace == doubleQuote) = false := rfl
  have bracket : (openBrace == byte '[') = false := rfl
  have opens : (openBrace == openBrace) = true := rfl
  have closes : (first == closeBrace) = false := beq_eq_false_iff_ne.mpr more
  unfold takeValue
  rw [letter, bracket, opens, skipped]
  simp only [Bool.false_eq_true, ↓reduceIte, closes]

end Containers

-- What is found among the members is found among those that were read, whatever table they enter.
theorem find_reads (key : Bytes) (members others table known : Members)
    (same : MembersReadAs members others)
    (before : ∀ value, member? key table = some value →
      ∃ read, member? key known = some read ∧ ReadsAs value read) :
    ∀ value, member? key (Table.setAll precedes members table) = some value →
      ∃ read, member? key (Table.setAll precedes others known) = some read ∧ ReadsAs value read := by
  induction members generalizing others table known with
  | nil =>
      rw [show others = [] from same]
      exact before
  | cons member members ih =>
      obtain ⟨own, value⟩ := member
      obtain ⟨read, later, rfl, alike, further⟩ := same
      refine ih later _ _ further fun other found => ?_
      by_cases this : key = own
      · subst this
        unfold member? at found ⊢
        rw [Table.find?_set precedes_orders] at found ⊢
        cases found
        exact ⟨read, rfl, alike⟩
      · unfold member? at found ⊢
        rw [Table.find?_set_other precedes_orders own key _ _ this] at found ⊢
        exact before other found

def Printed (text : Bytes) : Prop := ∀ b ∈ text, 0x20 ≤ b

instance (text : Bytes) : Decidable (Printed text) := List.decidableBAll _ text

theorem Printed.append {left right : Bytes} (first : Printed left) (second : Printed right) :
    Printed (left ++ right) := List.forall_mem_append.mpr ⟨first, second⟩

theorem Printed.cons {b : UInt8} {rest : Bytes} (mark : 0x20 ≤ b) (printed : Printed rest) :
    Printed (b :: rest) := List.forall_mem_cons.mpr ⟨mark, printed⟩

theorem Printed.nil : Printed [] := fun _ member => absurd member List.not_mem_nil

theorem NumberBytes.printed {text : Bytes} (bytes : NumberBytes text) : Printed text := by
  intro b member
  rcases bytes b member with digit | mark
  · exact UInt8.le_trans (by decide) (of_decide_eq_true (Bool.and_eq_true_iff.mp digit).1)
  · have high : Printed (ascii "+-.elnu") := by decide
    exact high b mark

-- The digits of a control byte's escape are letters and digits.
theorem hexDigit_printed : ∀ n < 16, 0x20 ≤ hexDigit n := by decide

theorem escapeByte_printed (b : UInt8) : Printed (escapeByte b) := by
  unfold escapeByte
  split
  · rename_i mark
    have cases : b = doubleQuote ∨ b = backslash := by simpa using mark
    rcases cases with rfl | rfl <;> exact .cons (by decide) (.cons (by decide) .nil)
  iterate 5
    split
    · exact .cons (by decide) (.cons (by decide) .nil)
  split
  · rename_i control
    have small : b.toNat < 32 := UInt8.lt_iff_toNat_lt.mp control
    exact .cons (by decide) (.cons (by decide) (.cons (by decide) (.cons (by decide)
      (.cons (hexDigit_printed _ (by omega)) (.cons (hexDigit_printed _ (by omega)) .nil)))))
  · rename_i printable
    exact .cons (UInt8.not_lt.mp printable) .nil

theorem quoted_printed (content : Bytes) : Printed (quoted content) := by
  refine .cons (by decide) (.append (fun c member => ?_) (.cons (by decide) .nil))
  obtain ⟨b, _, inside⟩ := List.mem_flatMap.mp member
  exact escapeByte_printed b c inside

theorem digitsText_solid (layout : FloatLayout) (number : Decimal.Digits) :
    digitsText layout number ≠ [] := by
  unfold digitsText
  dsimp only
  repeat' split
  all_goals simp [ascii, exponentText]

variable [Dialect]

theorem floatText_infinite (bits : UInt64) (infinite : Decimal.infinity ≤ Decimal.magnitude bits) :
    floatText bits = ascii "null" := if_pos infinite

theorem floatText_solid (bits : UInt64) : floatText bits ≠ [] := by
  unfold floatText magnitudeText
  repeat' split
  all_goals simp [ascii, digitsText_solid]

/-- No value has an empty text. -/
theorem render_solid (value : Json) : render value ≠ [] := by
  cases value with
  | null => exact List.cons_ne_nil _ _
  | bool value => cases value <;> exact List.cons_ne_nil _ _
  | int n =>
      change signedDecimal n ≠ []
      unfold signedDecimal
      split
      · exact List.cons_ne_nil _ _
      · exact decimal_ne_nil _
  | float bits => exact floatText_solid bits
  | str text => exact List.cons_ne_nil _ _
  | arr items => exact List.cons_ne_nil _ _
  | obj members => exact List.cons_ne_nil _ _

/-- The text of a value starts with a byte that opens one. -/
theorem render_opens [LawfulDialect] (value : Json) (fits : value.WholesFit) :
    ∃ b rest, render value = b :: rest ∧ Opens b := by
  have ends : EndsNumber [] := by rintro b ⟨⟩
  have number (text : Bytes) (read : Json × Bytes) (found : takeNumber (text ++ []) = .ok read) :
      ∃ b rest, text = b :: rest ∧ Opens b := by
    rw [List.append_nil] at found
    obtain ⟨b, rest, whole, head⟩ := number_head text read found
    exact ⟨b, rest, whole, digit_opens b head⟩
  have letter (b : UInt8) (opens : Opens b) (rest : Bytes) :
      ∃ first later, b :: rest = first :: later ∧ Opens first := ⟨b, rest, rfl, opens⟩
  cases value with
  | null => exact letter (byte 'n') (by decide) _
  | bool value => cases value with
    | true => exact letter (byte 't') (by decide) _
    | false => exact letter (byte 'f') (by decide) _
  | int n => exact number _ _ (number_signedDecimal n [] fits.1 fits.2 ends)
  | float bits =>
      rcases Nat.lt_or_ge (Decimal.magnitude bits) Decimal.infinity with finite | infinite
      · obtain ⟨again, found⟩ := number_floatText bits [] finite ends
        exact number _ _ found
      · change ∃ b rest, floatText bits = b :: rest ∧ Opens b
        rw [floatText_infinite bits infinite]
        exact letter (byte 'n') (by decide) _
  | str text => exact letter doubleQuote (by decide) _
  | arr items => exact letter (byte '[') (by decide) _
  | obj members => exact letter openBrace (by decide) _

theorem skipSpace_render [LawfulDialect] (value : Json) (rest : Bytes) (fits : value.WholesFit) :
    skipSpace (render value ++ rest) = render value ++ rest := by
  obtain ⟨b, later, opening, solid⟩ := render_opens value fits
  rw [opening]
  exact skipSpace_solid b _ solid.1

theorem render_items (item next : Json) (rest : List Json) :
    renderItems (item :: next :: rest) = render item ++ byte ',' :: renderItems (next :: rest) := rfl

theorem render_members (key : Bytes) (value : Json) (next : Bytes × Json) (rest : Members) :
    renderMembers ((key, value) :: next :: rest) =
      quoted key ++ byte ':' :: render value ++ byte ',' :: renderMembers (next :: rest) := rfl

theorem renderItems_opens [LawfulDialect] (item : Json) (items : List Json)
    (fits : item.WholesFit) : ∃ b rest, renderItems (item :: items) = b :: rest ∧ Opens b := by
  obtain ⟨b, rest, whole, opens⟩ := render_opens item fits
  cases items with
  | nil => exact ⟨b, rest, whole, opens⟩
  | cons next items => exact ⟨b, _, by rw [render_items, whole, List.cons_append], opens⟩

theorem renderMembers_opens (key : Bytes) (value : Json) (members : Members) :
    ∃ rest, renderMembers ((key, value) :: members) = doubleQuote :: rest := by
  cases members with
  | nil => exact ⟨_, rfl⟩
  | cons next members => exact ⟨_, rfl⟩

-- The text of the value is read, whatever a document goes on with.
def Readable (depth : Nat) (value : Json) : Prop := ∀ rest, EndsNumber rest →
  ∃ read, takeValue depth (render value ++ rest) = .ok (read, rest) ∧ ReadsAs value read

theorem length_items (items : List Json) :
    items.length ≤ (renderItems items).length + 1 ∧
      ∀ item ∈ items, (render item).length ≤ (renderItems items).length := by
  induction items with
  | nil => exact ⟨Nat.zero_le _, by simp⟩
  | cons item items ih =>
      cases items with
      | nil =>
          refine ⟨Nat.le_add_left _ _, fun other member => ?_⟩
          rw [List.mem_singleton.mp member]
          exact Nat.le_refl _
      | cons next items =>
          obtain ⟨count, inside⟩ := ih
          simp only [render_items, List.length_append, List.length_cons] at count ⊢
          refine ⟨by omega, fun other member => ?_⟩
          rcases List.mem_cons.mp member with rfl | later
          · omega
          · exact (inside other later).trans (by omega)

theorem length_members (members : Members) :
    members.length ≤ (renderMembers members).length + 1 ∧
      ∀ member ∈ members, (render member.2).length ≤ (renderMembers members).length := by
  induction members with
  | nil => exact ⟨Nat.zero_le _, by simp⟩
  | cons own members ih =>
      obtain ⟨key, value⟩ := own
      cases members with
      | nil =>
          have whole : renderMembers [(key, value)] = quoted key ++ byte ':' :: render value := rfl
          refine ⟨Nat.le_add_left _ _, fun other member => ?_⟩
          simp only [List.mem_singleton.mp member, whole, List.length_append, List.length_cons]
          omega
      | cons next members =>
          obtain ⟨count, inside⟩ := ih
          simp only [render_members, List.length_append, List.length_cons] at count ⊢
          refine ⟨by omega, fun other member => ?_⟩
          rcases List.mem_cons.mp member with rfl | later
          · dsimp only
            omega
          · exact (inside other later).trans (by omega)

section Reading

variable [LawfulDialect] (inner : Nat)

theorem items_render (item : Json) (items : List Json) (steps : Nat) (rest : Bytes)
    (each : ∀ other ∈ item :: items, Readable inner other ∧ other.WholesFit)
    (enough : (item :: items).length ≤ steps) :
    ∃ others, takeItems (takeValue inner) steps (renderItems (item :: items) ++ byte ']' :: rest) =
      .ok (others, rest) ∧ ItemsReadAs (item :: items) others := by
  induction items generalizing item steps with
  | nil =>
      obtain ⟨reads, fits⟩ := each item List.mem_cons_self
      obtain ⟨steps, rfl⟩ : ∃ more, steps = more + 1 := ⟨steps - 1, by simp at enough; omega⟩
      have ends : EndsNumber (byte ']' :: rest) := by
        rintro b ⟨⟩
        exact .inr (.inl rfl)
      obtain ⟨read, found, same⟩ := reads _ ends
      refine ⟨[read], ?_, read, [], rfl, same, rfl⟩
      change takeItems (takeValue inner) (steps + 1) (render item ++ byte ']' :: rest) = _
      unfold takeItems
      rw [skipSpace_render item _ fits, found]
      rfl
  | cons next items ih =>
      obtain ⟨reads, fits⟩ := each item List.mem_cons_self
      obtain ⟨steps, rfl⟩ : ∃ more, steps = more + 1 := ⟨steps - 1, by simp at enough; omega⟩
      have ends : EndsNumber (byte ',' :: (renderItems (next :: items) ++ byte ']' :: rest)) := by
        rintro b ⟨⟩
        exact .inl rfl
      obtain ⟨read, found, same⟩ := reads _ ends
      obtain ⟨others, further, alike⟩ := ih next steps
        (fun other member => each other (List.mem_cons_of_mem item member))
        (by simpa using enough)
      refine ⟨read :: others, ?_, read, others, rfl, same, alike⟩
      have comma : skipSpace (byte ',' :: (renderItems (next :: items) ++ byte ']' :: rest)) =
          byte ',' :: (renderItems (next :: items) ++ byte ']' :: rest) :=
        skipSpace_solid (byte ',') _ rfl
      have other : (byte ',' == byte ']') = false := rfl
      rw [render_items, List.append_assoc, List.cons_append]
      unfold takeItems
      rw [skipSpace_render item _ fits, found]
      dsimp only [bind, Except.bind]
      rw [comma]
      dsimp only
      rw [other, further]
      rfl

-- A member up to the mark that follows it.
theorem member_render (key : Bytes) (value : Json) (steps : Nat) (rest : Bytes)
    (valid : Utf8.isValid key = true) (reads : Readable inner value) (fits : value.WholesFit)
    (ends : EndsNumber rest) :
    ∃ read, ReadsAs value read ∧
      takeMembers (takeValue inner) (steps + 1) (quoted key ++ byte ':' :: (render value ++ rest)) =
        match skipSpace rest with
        | [] => .error .malformed
        | b :: later =>
            if b == closeBrace then .ok ([(key, read)], later)
            else if b == byte ',' then
              (takeMembers (takeValue inner) steps later).map fun (more, after) =>
                ((key, read) :: more, after)
            else .error .malformed := by
  obtain ⟨read, found, same⟩ := reads rest ends
  have named : skipSpace (quoted key ++ byte ':' :: (render value ++ rest)) =
      quoted key ++ byte ':' :: (render value ++ rest) := skipSpace_solid doubleQuote _ rfl
  have colon : skipSpace (byte ':' :: (render value ++ rest)) = byte ':' :: (render value ++ rest) :=
    skipSpace_solid (byte ':') _ rfl
  have marked : (byte ':' != byte ':') = false := rfl
  refine ⟨read, same, ?_⟩
  rw [takeMembers, named, takeString_quoted key _ valid]
  dsimp only [bind, Except.bind]
  rw [colon]
  dsimp only
  rw [marked, if_neg (by simp), skipSpace_render value _ fits, found]
  dsimp only
  cases skipSpace rest with
  | nil => rfl
  | cons b later =>
      dsimp only
      cases b == closeBrace with
      | true => rfl
      | false =>
          cases b == byte ',' with
          | true => cases takeMembers (takeValue inner) steps later <;> rfl
          | false => rfl

theorem members_render (key : Bytes) (value : Json) (members : Members) (steps : Nat) (rest : Bytes)
    (each : ∀ other ∈ (key, value) :: members,
      Utf8.isValid other.1 = true ∧ Readable inner other.2 ∧ other.2.WholesFit)
    (enough : ((key, value) :: members).length ≤ steps) :
    ∃ others, takeMembers (takeValue inner) steps
        (renderMembers ((key, value) :: members) ++ closeBrace :: rest) = .ok (others, rest) ∧
      MembersReadAs ((key, value) :: members) others := by
  induction members generalizing key value steps with
  | nil =>
      obtain ⟨valid, reads, fits⟩ := each _ List.mem_cons_self
      obtain ⟨steps, rfl⟩ : ∃ more, steps = more + 1 := ⟨steps - 1, by simp at enough; omega⟩
      have ends : EndsNumber (closeBrace :: rest) := by
        rintro b ⟨⟩
        exact .inr (.inr rfl)
      obtain ⟨read, same, found⟩ := member_render inner key value steps _ valid reads fits ends
      have brace : skipSpace (closeBrace :: rest) = closeBrace :: rest := skipSpace_solid _ _ rfl
      rw [brace] at found
      have whole : renderMembers [(key, value)] ++ closeBrace :: rest =
          quoted key ++ byte ':' :: (render value ++ closeBrace :: rest) := by
        change quoted key ++ byte ':' :: render value ++ closeBrace :: rest = _
        simp
      exact ⟨[(key, read)], by rw [whole, found]; rfl, read, [], rfl, same, rfl⟩
  | cons next members ih =>
      obtain ⟨nextKey, nextValue⟩ := next
      obtain ⟨valid, reads, fits⟩ := each _ List.mem_cons_self
      obtain ⟨steps, rfl⟩ : ∃ more, steps = more + 1 := ⟨steps - 1, by simp at enough; omega⟩
      let later := renderMembers ((nextKey, nextValue) :: members) ++ closeBrace :: rest
      have ends : EndsNumber (byte ',' :: later) := by
        rintro b ⟨⟩
        exact .inl rfl
      obtain ⟨read, same, found⟩ := member_render inner key value steps _ valid reads fits ends
      obtain ⟨others, further, alike⟩ := ih nextKey nextValue steps
        (fun other member => each other (List.mem_cons_of_mem _ member))
        (by simpa using enough)
      have comma : skipSpace (byte ',' :: later) = byte ',' :: later := skipSpace_solid _ _ rfl
      have other : (byte ',' == closeBrace) = false := rfl
      have same_mark : (byte ',' == byte ',') = true := rfl
      rw [comma] at found
      dsimp only at found
      rw [other, same_mark, further] at found
      have whole : renderMembers ((key, value) :: (nextKey, nextValue) :: members) ++
          closeBrace :: rest = quoted key ++ byte ':' :: (render value ++ byte ',' :: later) := by
        simp [render_members, later]
      exact ⟨(key, read) :: others, by rw [whole, found]; rfl, read, others, rfl, same, alike⟩

theorem array_readable (items : List Json)
    (each : ∀ item ∈ items, Readable inner item ∧ item.WholesFit) :
    Readable (inner + 1) (.arr items) := by
  intro rest ends
  have split : render (.arr items) ++ rest = byte '[' :: (renderItems items ++ byte ']' :: rest) := by
    simp [render]
  rw [split]
  cases items with
  | nil => exact ⟨.arr [], rfl, [], rfl, rfl⟩
  | cons item items =>
      have many := (length_items (item :: items)).1
      have enough : (item :: items).length ≤
          (renderItems (item :: items) ++ byte ']' :: rest).length := by
        simp only [List.length_append, List.length_cons] at many ⊢
        omega
      obtain ⟨others, read, same⟩ := items_render inner item items _ rest each enough
      obtain ⟨first, later, opening, solid⟩ :=
        renderItems_opens item items (each item List.mem_cons_self).2
      have whole : renderItems (item :: items) ++ byte ']' :: rest =
          first :: (later ++ byte ']' :: rest) := by rw [opening, List.cons_append]
      have skipped := skipSpace_solid first (later ++ byte ']' :: rest) solid.1
      rw [← whole] at skipped
      rw [value_array inner _ _ first (skipped.trans whole) solid.2.1, ← whole, read]
      exact ⟨.arr others, rfl, others, rfl, same⟩

theorem object_readable (members : Members)
    (each : ∀ entry ∈ members,
      Utf8.isValid entry.1 = true ∧ Readable inner entry.2 ∧ entry.2.WholesFit) :
    Readable (inner + 1) (.obj members) := by
  intro rest ends
  have split : render (.obj members) ++ rest =
      openBrace :: (renderMembers members ++ closeBrace :: rest) := by simp [render]
  rw [split]
  cases members with
  | nil => exact ⟨.obj [], rfl, [], rfl, rfl⟩
  | cons member members =>
      obtain ⟨key, value⟩ := member
      have many := (length_members ((key, value) :: members)).1
      have enough : ((key, value) :: members).length ≤
          (renderMembers ((key, value) :: members) ++ closeBrace :: rest).length := by
        simp only [List.length_append, List.length_cons] at many ⊢
        omega
      obtain ⟨others, read, same⟩ := members_render inner key value members _ rest each enough
      obtain ⟨later, opening⟩ := renderMembers_opens key value members
      have whole : renderMembers ((key, value) :: members) ++ closeBrace :: rest =
          doubleQuote :: (later ++ closeBrace :: rest) := by rw [opening, List.cons_append]
      have skipped := skipSpace_solid doubleQuote (later ++ closeBrace :: rest) rfl
      rw [← whole] at skipped
      rw [value_object inner _ _ doubleQuote (skipped.trans whole) (by decide), ← whole, read]
      exact ⟨object others, rfl, others, rfl, same⟩

end Reading

-- The induction goes over the levels: a container is read when all in it is, one level deeper.
theorem value_render [LawfulDialect] (value : Json) (depth : Nat) (text : value.isText = true)
    (fits : value.WholesFit) (deep : (render value).length ≤ depth) : Readable depth value := by
  induction depth generalizing value with
  | zero =>
      obtain ⟨b, rest, opening, _⟩ := render_opens value fits
      rw [opening, List.length_cons] at deep
      omega
  | succ inner ih =>
      intro rest ends
      cases value with
      | null => exact ⟨.null, rfl, rfl⟩
      | bool value =>
          cases value with
          | true => exact ⟨.bool true, rfl, rfl⟩
          | false => exact ⟨.bool false, rfl, rfl⟩
      | int n =>
          exact ⟨.int n, value_number _ _ _ (number_signedDecimal n rest fits.1 fits.2 ends), rfl⟩
      | float bits =>
          change ∃ read, takeValue _ (floatText bits ++ rest) = .ok (read, rest) ∧ _
          rcases Nat.lt_or_ge (Decimal.magnitude bits) Decimal.infinity with finite | infinite
          · obtain ⟨again, found⟩ := number_floatText bits rest finite ends
            exact ⟨.float again, value_number _ _ _ found, .inr ⟨again, rfl⟩⟩
          · rw [floatText_infinite bits infinite]
            exact ⟨.null, rfl, .inl rfl⟩
      | str content => exact ⟨.str content, value_string _ content rest text, rfl⟩
      | arr items =>
          have count : (render (.arr items)).length = (renderItems items).length + 2 := by
            simp [render]
          refine array_readable inner items (fun item member => ?_) rest ends
          have bound := (length_items items).2 item member
          have itemFits := (itemsHold_iff _ _ _).mp fits item member
          exact ⟨ih item ((areText_iff _).mp text item member) itemFits (by omega), itemFits⟩
      | obj members =>
          have count : (render (.obj members)).length = (renderMembers members).length + 2 := by
            simp [render]
          refine object_readable inner members (fun entry member => ?_) rest ends
          have bound := (length_members members).2 entry member
          have valueFits := ((membersHold_iff _ _ _).mp fits entry member).2
          obtain ⟨keyText, valueText⟩ := (membersAreText_iff _).mp text entry member
          exact ⟨keyText, ih entry.2 valueText valueFits (by omega), valueFits⟩

mutual

/-- The text of a value has no control characters. -/
theorem render_printed : ∀ value : Json, Printed (render value)
  | .null => show Printed (ascii "null") by decide
  | .bool true => show Printed (ascii "true") by decide
  | .bool false => show Printed (ascii "false") by decide
  | .int n => (NumberBytes.signedDecimal n).printed
  | .float bits => (floatText_bytes bits).printed
  | .str content => quoted_printed content
  | .arr items => .append (.cons (by decide) (renderItems_printed items)) (.cons (by decide) .nil)
  | .obj members =>
      .append (.cons (by decide) (renderMembers_printed members)) (.cons (by decide) .nil)

theorem renderItems_printed : ∀ items : List Json, Printed (renderItems items)
  | [] => .nil
  | [item] => render_printed item
  | item :: next :: rest =>
      .append (render_printed item) (.cons (by decide) (renderItems_printed (next :: rest)))

theorem renderMembers_printed : ∀ members : Members, Printed (renderMembers members)
  | [] => .nil
  | [(key, value)] => .append (quoted_printed key) (.cons (by decide) (render_printed value))
  | (key, value) :: next :: rest =>
      .append (.append (quoted_printed key) (.cons (by decide) (render_printed value)))
        (.cons (by decide) (renderMembers_printed (next :: rest)))

end

/-- A document without a byte order mark and a zero byte is read as a whole. -/
theorem read_whole (text : Bytes) (unmarked : text.head? ≠ some 0xEF) (zeroless : 0 ∉ text) :
    read text = readWhole text := by
  have bare : startsWith byteOrderMark text = false := by
    cases text with
    | nil => rfl
    | cons b rest =>
        have other : (0xEF == b) = false :=
          beq_eq_false_iff_ne.mpr fun same => unmarked (congrArg some same.symm)
        simp [startsWith, byteOrderMark, List.isPrefixOf, other]
  have whole : beforeZero text = text :=
    List.takeWhile_eq_self_iff.mpr fun b member =>
      bne_iff_ne.mpr fun zero => zeroless (zero ▸ member)
  rw [read, withoutMark, bare, Bool.and_false, if_neg Bool.false_ne_true, beforeEnd, whole, ite_self]

/-- A value with a text is read back from it. -/
theorem read_render [LawfulDialect] (value : Json) (text : value.isText = true)
    (fits : value.WholesFit) : ∃ read, Json.read (render value) = .ok read ∧ ReadsAs value read := by
  obtain ⟨again, found, same⟩ := value_render value (render value).length text fits
    (Nat.le_refl _) [] (by rintro b ⟨⟩)
  have skipped := skipSpace_render value [] fits
  rw [List.append_nil] at found skipped
  obtain ⟨b, rest, opening, opens⟩ := render_opens value fits
  have unmarked : (render value).head? ≠ some 0xEF := by
    rw [opening]
    exact fun mark => opens.2.2.2 (Option.some.inj mark)
  refine ⟨again, ?_, same⟩
  have zeroless : 0 ∉ render value := fun zero => absurd (render_printed value 0 zero) (by decide)
  rw [read_whole _ unmarked zeroless, readWhole, skipped, found]
  rfl

/-- An object is read back with its members. -/
theorem read_object [LawfulDialect] (assignments : Members)
    (text : (object assignments).isText = true) (fits : (object assignments).WholesFit) :
    ∃ table, read (render (object assignments)) = .ok (.obj table) ∧
      ∀ key value, member? key (Table.ofList precedes assignments) = some value →
        ∃ read, member? key table = some read ∧ ReadsAs value read := by
  obtain ⟨_, found, others, rfl, same⟩ := read_render (object assignments) text fits
  refine ⟨Table.ofList precedes others, found, fun key value own => ?_⟩
  have none_before : ∀ value, member? key [] = some value →
      ∃ read, member? key [] = some read ∧ ReadsAs value read := by
    rintro value ⟨⟩
  refine find_reads key _ others [] [] same none_before value ?_
  rwa [show Table.setAll precedes (Table.ofList precedes assignments) [] =
    Table.ofList precedes assignments from Table.ofList_ofList precedes_orders assignments]

end EndpointPreview.Json
