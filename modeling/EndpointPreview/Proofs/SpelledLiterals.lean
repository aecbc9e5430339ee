import EndpointPreview.Json.Writer
import EndpointPreview.Proofs.ExactValues
import EndpointPreview.Proofs.JsonNumbers
import EndpointPreview.Proofs.StringBodies
import EndpointPreview.Proofs.WholeNumbers
import EndpointPreview.StrictFormats

/-!
Values written as literals are read back. The spelling of a value is cut into tokens that derive
the value in the grammar of literals, and its brackets nest as deep as the value does.
-/

namespace EndpointPreview.Json

open Text

def spelledByte (b : UInt8) : Bytes :=
  if b == newline then [backslash, byte 'n']
  else if b == backslash || b == singleQuote then [backslash, b]
  else [b]

def spelledText (text : Bytes) : Bytes :=
  singleQuote :: (text.flatMap spelledByte ++ [singleQuote])

mutual
def spelling [Dialect] : Json → Bytes
  | .null => ascii "None"
  | .bool true => ascii "True"
  | .bool false => ascii "False"
  | .int n => signedDecimal n
  | .float bits => floatText bits
  | .str text => spelledText text
  | .arr items => byte '[' :: (joinWith (ascii ", ") (itemSpellings items) ++ [byte ']'])
  | .obj members =>
      openBrace :: (joinWith (ascii ", ") (memberSpellings members) ++ [closeBrace])

def itemSpellings [Dialect] : List Json → List Bytes
  | [] => []
  | item :: rest => spelling item :: itemSpellings rest

def memberSpellings [Dialect] : Members → List Bytes
  | [] => []
  | (key, value) :: rest =>
      (spelledText key ++ (ascii ": " ++ spelling value)) :: memberSpellings rest
end

def memberSpelling [Dialect] (member : Bytes × Json) : Bytes :=
  spelledText member.1 ++ (ascii ": " ++ spelling member.2)

theorem itemSpellings_map [Dialect] (items : List Json) :
    itemSpellings items = items.map spelling := by
  induction items with
  | nil => rfl
  | cons item rest ih => exact congrArg _ ih

theorem memberSpellings_map [Dialect] (members : Members) :
    memberSpellings members = members.map memberSpelling := by
  induction members with
  | nil => rfl
  | cons member rest ih => exact congrArg _ ih

example [Dialect] : spelling (.arr [.str (ascii "a"), .int (-1)]) = ascii "['a', -1]" := by rfl

mutual
def levels : Json → Nat
  | .arr items => itemsLevels items + 1
  | .obj members => membersLevels members + 1
  | _ => 0

def itemsLevels : List Json → Nat
  | [] => 0
  | item :: rest => max (levels item) (itemsLevels rest)

def membersLevels : Members → Nat
  | [] => 0
  | (_, value) :: rest => max (levels value) (membersLevels rest)
end

theorem levels_item {item : Json} {items : List Json} (member : item ∈ items) :
    levels item ≤ itemsLevels items := by
  induction items with
  | nil => cases member
  | cons first rest ih =>
      rw [itemsLevels]
      cases member with
      | head => exact Nat.le_max_left _ _
      | tail _ later => exact Nat.le_trans (ih later) (Nat.le_max_right _ _)

theorem levels_member {entry : Bytes × Json} {members : Members} (member : entry ∈ members) :
    levels entry.2 ≤ membersLevels members := by
  induction members with
  | nil => cases member
  | cons first rest ih =>
      rw [membersLevels]
      cases member with
      | head => exact Nat.le_max_left _ _
      | tail _ later => exact Nat.le_trans (ih later) (Nat.le_max_right _ _)

end EndpointPreview.Json

namespace EndpointPreview.Notation

open Text Json

def literalMarks : Bytes := byte '[' :: openBrace :: literalEnds

/-- The text has tokens that write the phrase, whatever stands behind it. -/
def Spells [Json.Dialect] (text : Bytes) (phrase : Phrase) (levels : Nat) : Prop :=
  ∀ offset rest, EndsLiteral rest →
    ∃ tokens, Cuts offset text tokens rest ∧ Writes tokens phrase ∧ nesting tokens ≤ levels

theorem spells_name [Json.Dialect] {b : UInt8} {word : Bytes} {value : Json}
    (first : ∀ after, Piece.first b after = .plain .identifier (b :: after.takeWhile isWordByte))
    (all : word.all isWordByte = true) (named : nameValue (b :: word) = some value) :
    Spells (b :: word) (.value value) 0 := by
  intro offset rest ends
  have run := (takeWhile_run isWordByte word rest (List.all_eq_true.mp all)
    (ends.outside _ (by decide))).1
  have piece : Piece.first b (word ++ rest) = .lexeme .identifier (b :: word) (b :: word) := by
    rw [first, run, Piece.plain]
  exact ⟨_, .lexeme (by decide) piece, .named rfl named, Nat.le_refl 0⟩

theorem spells_int [Json.Dialect] {n : Int} (small : n.natAbs < 0x8000000000000000) :
    Spells (signedDecimal n) (.value (.int n)) 0 := by
  intro offset rest ends
  have digits : SpellsNatural (decimal n.natAbs) n.natAbs := .decimal _ (.plain (decimal_ne_nil _))
  have inside : (n.natAbs : Int) < Numeral.limit64 := by
    unfold Numeral.limit64
    omega
  have value (negative : Bool) := (digits.value negative).trans (if_pos inside)
  unfold signedDecimal
  by_cases negative : n < 0
  · have value := value true
    have own : -(n.natAbs : Int) = n := by omega
    rw [if_pos rfl, own] at value
    have sign :
        Cuts offset [byte '-'] [⟨.minus, [byte '-'], offset⟩] (decimal n.natAbs ++ rest) := by
      apply Cuts.lexeme (by decide)
      cases decimal n.natAbs ++ rest <;> rfl
    rw [if_pos negative]
    exact ⟨_, sign.append (digits.cuts _ ends), .negative rfl rfl value, Nat.le_refl 0⟩
  · have value := value false
    have own : (n.natAbs : Int) = n := by omega
    rw [if_neg Bool.false_ne_true, own] at value
    rw [if_neg negative]
    exact ⟨_, digits.cuts _ ends, .number rfl value, Nat.le_refl 0⟩

theorem passes_spelled (text rest : Bytes) :
    Passes singleQuote false (text.flatMap spelledByte) text (singleQuote :: rest) := by
  have parts : Passes singleQuote false (text.flatMap spelledByte) (text.flatMap fun b => [b])
      (singleQuote :: rest) := by
    apply Passes.row
    intro before b after _
    unfold spelledByte
    split_ifs with breaks escaped
    · rw [beq_iff_eq] at breaks
      subst breaks
      exact .escape rfl _
    · rw [Bool.or_eq_true, beq_iff_eq, beq_iff_eq] at escaped
      rcases escaped with rfl | rfl <;> exact .escape rfl _
    · simp only [Bool.or_eq_true, beq_iff_eq, not_or] at breaks escaped
      apply Passes.byte b _ escaped.1
      · simpa [closingMark] using Ne.symm escaped.2
      · exact fun same => absurd same breaks
  rwa [List.flatMap_singleton'] at parts

-- An empty string is no opening of a tripled one: a mark other than a quote stands behind it.
theorem spelled_not_triple (text : Bytes) {rest : Bytes} (ends : EndsLiteral rest) :
    opensTriple singleQuote (text.flatMap spelledByte ++ singleQuote :: rest) = false := by
  apply opensTriple_other
  cases text with
  | nil =>
      cases rest with
      | nil => decide
      | cons b rest =>
          have other : (b == singleQuote) = false :=
            ends.outside (· == singleQuote) (by decide) b rfl
          simpa using other
  | cons b text =>
      rw [List.flatMap_cons]
      unfold spelledByte
      split_ifs with breaks escaped
      · simp [backslash, singleQuote]
      · simp [backslash, singleQuote]
      · simp only [Bool.or_eq_true, beq_iff_eq, not_or] at escaped
        simp [escaped.2]

theorem cuts_text (text : Bytes) (offset : Nat) {rest : Bytes} (ends : EndsLiteral rest) :
    Cuts offset (spelledText text) [⟨.string, text, offset⟩] rest := by
  apply Cuts.lexeme (by decide)
  rw [first_quote _ _ rfl, List.append_assoc]
  exact ofString_passed rfl (spelled_not_triple text ends) (passes_spelled text rest)

theorem cuts_mark {b : UInt8} (single : b ∈ literalMarks) (offset : Nat)
    (rest : Bytes) : Cuts offset [b] [⟨markKind b, [b], offset⟩] rest := by
  simp only [literalMarks, literalEnds, List.mem_cons, List.not_mem_nil, or_false] at single
  rcases single with rfl | rfl | rfl | rfl | rfl | rfl
  all_goals
    apply Cuts.lexeme (by decide)
    cases rest <;> rfl

theorem Spells.mono [Json.Dialect] {text : Bytes} {phrase : Phrase} {levels more : Nat}
    (spells : Spells text phrase levels) (fewer : levels ≤ more) : Spells text phrase more := by
  intro offset rest ends
  obtain ⟨tokens, cuts, written, fits⟩ := spells offset rest ends
  exact ⟨tokens, cuts, written, Nat.le_trans fits fewer⟩

/-- Two parts with a comma or a colon, and a space, between them. -/
theorem Spells.separated [Json.Dialect] {b : UInt8} (separator : b = byte ',' ∨ b = byte ':')
    {front back : Bytes} {phrase further whole : Phrase} {levels : Nat}
    (first : Spells front phrase levels) (second : Spells back further levels)
    (write : ∀ {before after mark}, Writes before phrase → mark.kind = markKind b →
      Writes after further → Writes (before ++ mark :: after) whole) :
    Spells (front ++ [b, 32] ++ back) whole levels := by
  have single : b ∈ literalEnds ∧ Flat ⟨markKind b, [b], 0⟩ := by
    rcases separator with rfl | rfl <;> exact ⟨by decide, rfl, rfl⟩
  intro offset rest ends
  have mark_ends : EndsLiteral ([b, 32] ++ (back ++ rest)) := by
    rintro c ⟨⟩
    exact single.1
  obtain ⟨before, cuts, written, fits⟩ := first offset ([b, 32] ++ (back ++ rest)) mark_ends
  obtain ⟨after, cuts_after, written_after, fits_after⟩ :=
    second (offset + (front ++ [b, 32]).length) rest ends
  let mark : Token := ⟨markKind b, [b], offset + front.length⟩
  have flat : Flat mark := single.2
  have separate : Cuts (offset + front.length) [b, 32] [mark] (back ++ rest) :=
    (cuts_mark (.tail _ (.tail _ single.1)) _ ([32] ++ (back ++ rest))).append (.gap 32 rfl)
  have row := (cuts.append separate).append cuts_after
  have deep := (written.balanced.separated flat written_after.balanced).2
  rw [List.append_assoc before, List.singleton_append] at row
  exact ⟨before ++ mark :: after, row, write written rfl written_after, by omega⟩

/-- Parts with commas between them spell the row of what they spell. -/
theorem spells_row [Json.Dialect] {Part : Type} {write : Part → Bytes} {single : Part → Phrase}
    {row : List Part → Phrase} {levels : Nat}
    (last : ∀ {tokens part}, Writes tokens (single part) → Writes tokens (row [part]))
    (more : ∀ {front later mark part parts}, Writes front (single part) → mark.kind = .comma →
      Writes later (row parts) → Writes (front ++ mark :: later) (row (part :: parts)))
    {parts : List Part} (some_part : parts ≠ [])
    (each : ∀ part ∈ parts, Spells (write part) (single part) levels) :
    Spells (joinWith (ascii ", ") (parts.map write)) (row parts) levels := by
  induction parts with
  | nil => exact absurd rfl some_part
  | cons part later ih =>
      obtain ⟨own, others⟩ := List.forall_mem_cons.mp each
      cases later with
      | nil =>
          intro offset rest ends
          obtain ⟨tokens, cuts, written, fits⟩ := own offset rest ends
          exact ⟨tokens, cuts, last written, fits⟩
      | cons next later => exact own.separated (.inl rfl) (ih (List.cons_ne_nil _ _) others) more

theorem spells_text [Json.Dialect] (text : Bytes) :
    Spells (spelledText text) (.value (.str text)) 0 := by
  intro offset rest ends
  have written : Writes [⟨.string, text, offset⟩] (.value (.str (text ++ []))) :=
    .strings (List.cons_ne_nil _ _) (by simp)
  rw [List.append_nil] at written
  exact ⟨_, cuts_text text offset ends, written, Nat.le_refl 0⟩

theorem spells_member [Json.Dialect] {member : Bytes × Json} {levels : Nat}
    (value : Spells (spelling member.2) (.value member.2) levels) :
    Spells (memberSpelling member) (.entry member) levels := by
  have key := (spells_text member.1).mono (Nat.zero_le levels)
  have entry := key.separated (.inr rfl) value fun written colon assigned =>
    Writes.entry written rfl colon assigned
  rwa [List.append_assoc] at entry

theorem Cuts.enclosed {offset : Nat} {inner rest : Bytes} {tokens : List Token} {first last : UInt8}
    (opens : first = byte '[' ∨ first = openBrace) (closes : last = byte ']' ∨ last = closeBrace)
    (inside : Cuts (offset + 1) inner tokens (last :: rest)) :
    Cuts offset (first :: (inner ++ [last]))
      (⟨markKind first, [first], offset⟩ ::
        (tokens ++ [⟨markKind last, [last], offset + 1 + inner.length⟩])) rest := by
  have left : first ∈ literalMarks := by
    rcases opens with rfl | rfl <;> decide
  have right : last ∈ literalMarks := by
    rcases closes with rfl | rfl <;> decide
  have back := inside.append (cuts_mark right _ rest)
  exact (cuts_mark left offset (inner ++ [last] ++ rest)).append back

theorem spells_array [Json.Dialect] {items : List Json}
    (each : ∀ item ∈ items, Spells (spelling item) (.value item) item.levels) :
    Spells (spelling (.arr items)) (.value (.arr items)) (levels (.arr items)) := by
  intro offset rest ends
  rw [spelling, itemSpellings_map, levels]
  cases items with
  | nil =>
      have nothing : Cuts (offset + 1) [] [] (byte ']' :: rest) := ⟨rfl, rfl⟩
      exact ⟨_, nothing.enclosed (.inl rfl) (.inl rfl), .emptyList rfl rfl, Nat.le_refl 1⟩
  | cons item items =>
      have row := spells_row .lastItem .moreItems (List.cons_ne_nil item items) fun part member =>
        (each part member).mono (levels_item member)
      have closing : EndsLiteral (byte ']' :: rest) := by
        rintro b ⟨⟩
        decide
      obtain ⟨tokens, cuts, written, fits⟩ := row (offset + 1) (byte ']' :: rest) closing
      have cut := cuts.enclosed (.inl rfl) (.inl rfl)
      refine ⟨_, cut, .list rfl written .nothing rfl, ?_⟩
      apply Nat.le_trans _ (Nat.succ_le_succ fits)
      exact Nat.le_of_eq (written.balanced.bracketed (.square rfl rfl)).2

theorem spells_object [Json.Dialect] {members : Members} (sorted : Table.Sorted precedes members)
    (each : ∀ member ∈ members, Spells (spelling member.2) (.value member.2) member.2.levels) :
    Spells (spelling (.obj members)) (.value (.obj members)) (levels (.obj members)) := by
  intro offset rest ends
  rw [spelling, memberSpellings_map, levels]
  cases members with
  | nil =>
      have nothing : Cuts (offset + 1) [] [] (closeBrace :: rest) := ⟨rfl, rfl⟩
      exact ⟨_, nothing.enclosed (.inr rfl) (.inr rfl), .emptyDictionary rfl rfl, Nat.le_refl 1⟩
  | cons member members =>
      have row := spells_row .lastEntry .moreEntries (List.cons_ne_nil member members)
        fun part found => spells_member ((each part found).mono (levels_member found))
      have closing : EndsLiteral (closeBrace :: rest) := by
        rintro b ⟨⟩
        decide
      obtain ⟨tokens, cuts, written, fits⟩ := row (offset + 1) (closeBrace :: rest) closing
      have cut := cuts.enclosed (.inr rfl) (.inr rfl)
      rw [← object_sorted _ sorted]
      refine ⟨_, cut, .dictionary rfl written .nothing rfl, ?_⟩
      apply Nat.le_trans _ (Nat.succ_le_succ fits)
      exact Nat.le_of_eq (written.balanced.bracketed (.curly rfl rfl)).2

def InLiteralRange (n : Int) : Prop := n.natAbs ≤ 2 ^ 63 - 1

instance (n : Int) : Decidable (InLiteralRange n) := inferInstanceAs (Decidable (_ ≤ _))

theorem spells_value [Json.Dialect] {value : Json} (known : Exact InLiteralRange value) :
    Spells (spelling value) (.value value) value.levels := by
  induction known with
  | null => exact spells_name (fun _ => rfl) rfl rfl
  | bool value =>
      cases value with
      | true => exact spells_name (fun _ => rfl) rfl rfl
      | false => exact spells_name (fun _ => rfl) rfl rfl
  | int n inside => exact spells_int (Nat.lt_of_le_pred (by decide) inside)
  | str text => exact spells_text text
  | arr items _ ih => exact spells_array ih
  | obj members sorted _ ih => exact spells_object sorted ih

/-- A value without floats, with whole numbers that have 63 bits and no more levels than
containers may nest, is read back from its spelling. -/
theorem literal_spelling [Json.Dialect] (value : Json) (known : Exact InLiteralRange value)
    (shallow : value.levels ≤ maxNesting) : literal? (spelling value) = some value := by
  have nothing : EndsLiteral [] := by rintro b ⟨⟩
  obtain ⟨tokens, cuts, written, fits⟩ := spells_value known 0 [] nothing
  exact cuts.literal written (Nat.le_trans fits shallow)

section Strict

attribute [local instance] Json.strict

-- An object with marks of strings in its key and in a text, and with the least number.
theorem literal_spelling_mixed :
    literal? (spelling (.obj [(ascii "it's", .arr [.int (-9223372036854775807),
        .str [0, 35, 92, 10, 39, 255]]), (ascii "k", .arr [.bool false, .null, .obj []])])) =
      some (.obj [(ascii "it's", .arr [.int (-9223372036854775807),
        .str [0, 35, 92, 10, 39, 255]]), (ascii "k", .arr [.bool false, .null, .obj []])]) := by
  have first : Exact InLiteralRange
      (.arr [.int (-9223372036854775807), .str [0, 35, 92, 10, 39, 255]]) := by
    apply Exact.arr
    simp only [List.forall_mem_cons]
    exact ⟨.int _ (by decide), .str _, nofun⟩
  have second : Exact InLiteralRange (.arr [.bool false, .null, .obj []]) := by
    apply Exact.arr
    simp only [List.forall_mem_cons]
    exact ⟨.bool false, .null, .obj [] .nil nofun, nofun⟩
  apply literal_spelling
  · apply Exact.obj _ (by decide)
    simp only [List.forall_mem_cons]
    exact ⟨first, second, nofun⟩
  · decide

end Strict

end EndpointPreview.Notation
