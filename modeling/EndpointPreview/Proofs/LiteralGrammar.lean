import EndpointPreview.Proofs.LiteralCursors

/-!
The grammar of literals, as derivations over rows of tokens. What a row writes is read from it,
whatever follows, when its brackets nest no deeper than the reader goes.
-/

namespace EndpointPreview.Notation

open Text

inductive Phrase where
  | value (value : Json)
  | items (items : List Json)
  | entry (entry : Bytes × Json)
  | entries (members : Json.Members)

inductive Trailing : List Token → Prop where
  | nothing : Trailing []
  | comma {mark : Token} (kind : mark.kind = .comma) : Trailing [mark]

inductive Writes [Json.Dialect] : List Token → Phrase → Prop where
  | strings {tokens : List Token} (some_token : tokens ≠ [])
      (all : ∀ token ∈ tokens, token.kind = .string) :
      Writes tokens (.value (.str (tokens.flatMap Token.text)))
  | number {token : Token} {value : Json} (number : token.kind = .number)
      (converts : numberValue false token.text = some value) : Writes [token] (.value value)
  | negative {sign token : Token} {value : Json} (minus : sign.kind = .minus)
      (number : token.kind = .number) (converts : numberValue true token.text = some value) :
      Writes [sign, token] (.value value)
  | positive {sign token : Token} {value : Json} (plus : sign.kind = .plus)
      (number : token.kind = .number) (converts : numberValue false token.text = some value) :
      Writes [sign, token] (.value value)
  | trueName {token : Token} (word : token.kind = .identifier) (text : token.text = ascii "True") :
      Writes [token] (.value (.bool true))
  | falseName {token : Token} (word : token.kind = .identifier)
      (text : token.text = ascii "False") :
      Writes [token] (.value (.bool false))
  | noneName {token : Token} (word : token.kind = .identifier) (text : token.text = ascii "None") :
      Writes [token] (.value .null)
  | emptyList {first last : Token} (opens : first.kind = .leftBracket)
      (closes : last.kind = .rightBracket) : Writes [first, last] (.value (.arr []))
  | list {first last : Token} {inner trail : List Token} {items : List Json}
      (opens : first.kind = .leftBracket) (written : Writes inner (.items items))
      (trailing : Trailing trail) (closes : last.kind = .rightBracket) :
      Writes (first :: (inner ++ (trail ++ [last]))) (.value (.arr items))
  | emptyTuple {first last : Token} (opens : first.kind = .leftParen)
      (closes : last.kind = .rightParen) : Writes [first, last] (.value (.arr []))
  | grouped {first last : Token} {inner : List Token} {value : Json}
      (opens : first.kind = .leftParen) (written : Writes inner (.value value))
      (closes : last.kind = .rightParen) : Writes (first :: (inner ++ [last])) (.value value)
  | tuple {first last : Token} {inner trail : List Token} {items : List Json}
      (opens : first.kind = .leftParen) (written : Writes inner (.items items))
      (trailing : Trailing trail) (comma : trail ≠ [] ∨ 2 ≤ items.length)
      (closes : last.kind = .rightParen) :
      Writes (first :: (inner ++ (trail ++ [last]))) (.value (.arr items))
  | emptyDictionary {first last : Token} (opens : first.kind = .leftBrace)
      (closes : last.kind = .rightBrace) : Writes [first, last] (.value (.obj []))
  | dictionary {first last : Token} {inner trail : List Token} {members : Json.Members}
      (opens : first.kind = .leftBrace) (written : Writes inner (.entries members))
      (trailing : Trailing trail) (closes : last.kind = .rightBrace) :
      Writes (first :: (inner ++ (trail ++ [last]))) (.value (.object members))
  | lastItem {inner : List Token} {value : Json} (item : Writes inner (.value value)) :
      Writes inner (.items [value])
  | moreItems {front later : List Token} {mark : Token} {value : Json} {items : List Json}
      (item : Writes front (.value value)) (comma : mark.kind = .comma)
      (more : Writes later (.items items)) :
      Writes (front ++ mark :: later) (.items (value :: items))
  | entry {front back : List Token} {mark : Token} {key value : Json} {name : Bytes}
      (written : Writes front (.value key)) (named : keyText key = some name)
      (colon : mark.kind = .colon) (assigned : Writes back (.value value)) :
      Writes (front ++ mark :: back) (.entry (name, value))
  | lastEntry {inner : List Token} {member : Bytes × Json} (entry : Writes inner (.entry member)) :
      Writes inner (.entries [member])
  | moreEntries {front later : List Token} {mark : Token} {member : Bytes × Json}
      {members : Json.Members} (entry : Writes front (.entry member)) (comma : mark.kind = .comma)
      (more : Writes later (.entries members)) :
      Writes (front ++ mark :: later) (.entries (member :: members))

def levelBehind (level : Nat) (token : Token) : Nat :=
  if token.kind.opens then level + 1 else if token.kind.closes then level - 1 else level

def highest (level : Nat) : List Token → Nat
  | [] => level
  | token :: rest => max level (highest (levelBehind level token) rest)

def nesting (tokens : List Token) : Nat := highest 0 tokens

theorem le_highest (level : Nat) (tokens : List Token) : level ≤ highest level tokens := by
  cases tokens with
  | nil => exact Nat.le_refl level
  | cons token rest => exact Nat.le_max_left _ _

def Flat (token : Token) : Prop := token.kind.opens = false ∧ token.kind.closes = false

theorem Flat.of_kind {token : Token} {kind : TokenKind} (own : token.kind = kind)
    (flat : kind.opens = false ∧ kind.closes = false) : Flat token := by
  rw [Flat, own]
  exact flat

structure Encloses (first last : Token) : Prop where
  opens : first.kind.opens = true
  closes : last.kind.closes = true
  one_way : last.kind.opens = false

namespace Encloses

variable {first last : Token}

theorem square (opens : first.kind = .leftBracket) (closes : last.kind = .rightBracket) :
    Encloses first last := by
  constructor <;> simp [opens, closes, TokenKind.opens, TokenKind.closes]

theorem round (opens : first.kind = .leftParen) (closes : last.kind = .rightParen) :
    Encloses first last := by
  constructor <;> simp [opens, closes, TokenKind.opens, TokenKind.closes]

theorem curly (opens : first.kind = .leftBrace) (closes : last.kind = .rightBrace) :
    Encloses first last := by
  constructor <;> simp [opens, closes, TokenKind.opens, TokenKind.closes]

end Encloses

def Balanced (tokens : List Token) : Prop :=
  ∀ level rest, highest level (tokens ++ rest) = max (level + nesting tokens) (highest level rest)

namespace Balanced

theorem nil : Balanced [] := by
  intro level rest
  have least := le_highest level rest
  simp [nesting, highest, least]

/-- Tokens that are no brackets leave every level as it was. -/
theorem plain {tokens : List Token}
    (plain : ∀ token ∈ tokens, Flat token) :
    Balanced tokens ∧ nesting tokens = 0 := by
  induction tokens with
  | nil => exact ⟨nil, rfl⟩
  | cons token later ih =>
      obtain ⟨⟨opens, closes⟩, others⟩ := List.forall_mem_cons.mp plain
      obtain ⟨balanced, flat⟩ := ih others
      have kept (level : Nat) : levelBehind level token = level := by
        simp [levelBehind, opens, closes]
      have own : nesting (token :: later) = 0 := by
        simpa [nesting, highest, kept] using flat
      refine ⟨fun level rest => ?_, own⟩
      have least := le_highest level rest
      have further := balanced level rest
      rw [flat] at further
      simp [highest, kept, own, further, least]

theorem append {front back : List Token} (balanced : Balanced front) (also : Balanced back) :
    Balanced (front ++ back) ∧ nesting (front ++ back) = max (nesting front) (nesting back) := by
  have own : nesting (front ++ back) = max (nesting front) (nesting back) := by
    have whole := balanced 0 back
    simpa [nesting] using whole
  refine ⟨fun level rest => ?_, own⟩
  rw [List.append_assoc, balanced, also, own]
  omega

theorem bracketed {first last : Token} {inner : List Token} (balanced : Balanced inner)
    (encloses : Encloses first last) :
    Balanced (first :: (inner ++ [last])) ∧
      nesting (first :: (inner ++ [last])) = nesting inner + 1 := by
  have up (level : Nat) : levelBehind level first = level + 1 := by
    simp [levelBehind, encloses.opens]
  have down (level : Nat) : levelBehind (level + 1) last = level := by
    simp [levelBehind, encloses.closes, encloses.one_way]
  have whole (level : Nat) (rest : List Token) :
      highest level (first :: (inner ++ [last]) ++ rest) =
        max (level + (nesting inner + 1)) (highest level rest) := by
    have least := le_highest level rest
    have inside := balanced (level + 1) (last :: rest)
    simp only [List.cons_append, List.append_assoc, List.nil_append, highest, up, down] at inside ⊢
    omega
  have own : nesting (first :: (inner ++ [last])) = nesting inner + 1 := by
    have alone := whole 0 []
    simpa [nesting, highest] using alone
  exact ⟨fun level rest => own ▸ whole level rest, own⟩

end Balanced

theorem Trailing.balanced {trail : List Token} (trailing : Trailing trail) :
    Balanced trail ∧ nesting trail = 0 := by
  apply Balanced.plain
  cases trailing with
  | nothing => simp
  | comma kind => simpa using Flat.of_kind kind ⟨rfl, rfl⟩

theorem Balanced.separated {front back : List Token} {mark : Token} (balanced : Balanced front)
    (flat : Flat mark) (also : Balanced back) :
    Balanced (front ++ mark :: back) ∧
      nesting (front ++ mark :: back) = max (nesting front) (nesting back) := by
  have middle : Balanced [mark] ∧ nesting [mark] = 0 :=
    Balanced.plain (by simpa using flat)
  have behind := middle.1.append also
  have whole := balanced.append behind.1
  rw [behind.2, middle.2, Nat.zero_max] at whole
  exact whole

theorem Balanced.contained {first last : Token} {inner trail : List Token}
    (balanced : Balanced inner) (trailing : Trailing trail) (encloses : Encloses first last) :
    Balanced (first :: (inner ++ (trail ++ [last]))) ∧
      nesting (first :: (inner ++ (trail ++ [last]))) = nesting inner + 1 := by
  have inside := balanced.append trailing.balanced.1
  have whole := inside.1.bracketed encloses
  rw [inside.2, trailing.balanced.2, Nat.max_zero, List.append_assoc] at whole
  exact whole

theorem Writes.balanced [Json.Dialect] {tokens : List Token} {phrase : Phrase}
    (writes : Writes tokens phrase) : Balanced tokens := by
  induction writes with
  | strings some_token all =>
      exact (Balanced.plain fun token member => .of_kind (all token member) ⟨rfl, rfl⟩).1
  | number kind _ | trueName kind _ | falseName kind _ | noneName kind _ =>
      exact (Balanced.plain (by simpa using Flat.of_kind kind ⟨rfl, rfl⟩)).1
  | negative sign number _ | positive sign number _ =>
      have both := And.intro (Flat.of_kind sign ⟨rfl, rfl⟩) (Flat.of_kind number ⟨rfl, rfl⟩)
      exact (Balanced.plain (by simpa using both)).1
  | emptyList opens closes => exact (Balanced.nil.bracketed (.square opens closes)).1
  | emptyTuple opens closes => exact (Balanced.nil.bracketed (.round opens closes)).1
  | emptyDictionary opens closes => exact (Balanced.nil.bracketed (.curly opens closes)).1
  | grouped opens _ closes ih => exact (ih.bracketed (.round opens closes)).1
  | list opens _ trailing closes ih => exact (ih.contained trailing (.square opens closes)).1
  | tuple opens _ trailing _ closes ih => exact (ih.contained trailing (.round opens closes)).1
  | dictionary opens _ trailing closes ih => exact (ih.contained trailing (.curly opens closes)).1
  | lastItem _ ih | lastEntry _ ih => exact ih
  | moreItems _ mark _ ih later | moreEntries _ mark _ ih later | entry _ _ mark _ ih later =>
      exact (ih.separated (.of_kind mark ⟨rfl, rfl⟩) later).1

/-- What is written starts with no closing bracket. -/
theorem Writes.starts [Json.Dialect] {tokens : List Token} {phrase : Phrase}
    (writes : Writes tokens phrase) :
    ∃ first later, tokens = first :: later ∧ first.kind.closes = false := by
  induction writes with
  | @strings tokens some_token all =>
      obtain ⟨first, later, rfl⟩ := List.exists_cons_of_ne_nil some_token
      exact ⟨first, later, rfl, by rw [all first List.mem_cons_self]; rfl⟩
  | number kind _ | negative kind _ _ | positive kind _ _
  | trueName kind _ | falseName kind _ | noneName kind _
  | emptyList kind _ | list kind _ _ _
  | emptyTuple kind _ | grouped kind _ _ | tuple kind _ _ _ _
  | emptyDictionary kind _ | dictionary kind _ _ _ => exact ⟨_, _, rfl, by rw [kind]; rfl⟩
  | lastItem _ ih | lastEntry _ ih => exact ih
  | moreItems _ _ _ ih _ | entry _ _ _ _ ih _ | moreEntries _ _ _ ih _ =>
      obtain ⟨first, later, rfl, starts⟩ := ih
      exact ⟨first, _, rfl, starts⟩

theorem Writes.not_closing [Json.Dialect] {tokens : List Token} {phrase : Phrase}
    (writes : Writes tokens phrase) (rest : TokenRest) {close : TokenKind}
    (closing : close.closes = true) :
    nextKind (tokens ++ rest) ≠ close := by
  obtain ⟨first, later, rfl, starts⟩ := writes.starts
  rintro rfl
  rw [List.cons_append, nextKind] at closing
  rw [starts] at closing
  cases closing

section Steps

variable (steps : Nat) {read : ValueReader} {close : TokenKind} {depth : Nat} {tokens rest : TokenRest}
  {first last mark : Token} {value : Json} {member : Bytes × Json}

theorem nextKind_cons : nextKind (first :: rest) = first.kind := rfl

theorem nextText_cons : nextText (first :: rest) = first.text := rfl

theorem readItems_none (closes : last.kind = close) :
    readItems read close (steps + 1) (last :: rest) = some ⟨[], false, rest⟩ := by
  simp [readItems, nextKind_cons, closes]

theorem readItems_last (starts : nextKind tokens ≠ close)
    (item : read tokens = some (value, last :: rest)) (closes : last.kind = close)
    (other : close ≠ .comma) :
    readItems read close (steps + 1) tokens = some ⟨[value], false, rest⟩ := by
  simp [readItems, starts, item, nextKind_cons, closes, other]

theorem readItems_more (starts : nextKind tokens ≠ close)
    (item : read tokens = some (value, mark :: rest)) (comma : mark.kind = .comma) :
    readItems read close (steps + 1) tokens =
      (readItems read close steps rest).map fun more => ⟨value :: more.items, true, more.rest⟩ := by
  simp [readItems, starts, item, nextKind_cons, comma]

variable [Json.Dialect]

theorem readEntries_none (closes : last.kind = .rightBrace) :
    readEntries read (steps + 1) (last :: rest) = some ([], rest) := by
  simp [readEntries, nextKind_cons, closes]

theorem readEntries_last (starts : nextKind tokens ≠ .rightBrace)
    (entry : readEntry read tokens = some (member, last :: rest))
    (closes : last.kind = .rightBrace) :
    readEntries read (steps + 1) tokens = some ([member], rest) := by
  simp [readEntries, starts, entry, nextKind_cons, closes]

theorem readEntries_more (starts : nextKind tokens ≠ .rightBrace)
    (entry : readEntry read tokens = some (member, mark :: rest)) (comma : mark.kind = .comma) :
    readEntries read (steps + 1) tokens =
      (readEntries read steps rest).map fun (more, after) => (member :: more, after) := by
  simp [readEntries, starts, entry, nextKind_cons, comma]

theorem readValue_string (kind : nextKind tokens = .string) :
    readValue depth tokens = some (.str (readStrings tokens).1, (readStrings tokens).2) := by
  unfold readValue
  rw [kind]

theorem readValue_number (kind : first.kind = .number)
    (converts : numberValue false first.text = some value) :
    readValue depth (first :: rest) = some (value, rest) := by
  unfold readValue
  simp [readNumber, nextKind_cons, nextText_cons, kind, converts]

theorem readValue_negative (minus : mark.kind = .minus) (kind : first.kind = .number)
    (converts : numberValue true first.text = some value) :
    readValue depth (mark :: first :: rest) = some (value, rest) := by
  unfold readValue
  simp [readNumber, nextKind_cons, nextText_cons, minus, kind, converts]

theorem readValue_positive (plus : mark.kind = .plus) (kind : first.kind = .number)
    (converts : numberValue false first.text = some value) :
    readValue depth (mark :: first :: rest) = some (value, rest) := by
  unfold readValue
  simp [readNumber, nextKind_cons, nextText_cons, plus, kind, converts]

theorem readValue_name (kind : first.kind = .identifier)
    (named : nameValue first.text = some value) :
    readValue depth (first :: rest) = some (value, rest) := by
  unfold readValue
  simp [nextKind_cons, nextText_cons, kind, named]

theorem readValue_list (kind : first.kind = .leftBracket) :
    readValue (depth + 1) (first :: rest) =
      (readItems (readValue depth) .rightBracket (rest.length + 1) rest).map
        fun found => (.arr found.items, found.rest) := by
  rw [readValue]
  simp [nextKind_cons, kind]

theorem readValue_tuple (kind : first.kind = .leftParen) :
    readValue (depth + 1) (first :: rest) =
      (readItems (readValue depth) .rightParen (rest.length + 1) rest).map
        fun found => (tupleValue found, found.rest) := by
  rw [readValue]
  simp [nextKind_cons, kind]

theorem readValue_dictionary (kind : first.kind = .leftBrace) :
    readValue (depth + 1) (first :: rest) =
      (readEntries (readValue depth) (rest.length + 1) rest).map
        fun (members, after) => (.object members, after) := by
  rw [readValue]
  simp [nextKind_cons, kind]

end Steps

/-- What reading gives where tokens write the phrase, whatever follows them. -/
def ReadsPhrase [Json.Dialect] (depth : Nat) (tokens : List Token) : Phrase → Prop
  | .value value => ∀ rest, nextKind rest ≠ .string →
      readValue depth (tokens ++ rest) = some (value, rest)
  | .items items => ∀ close steps trail last rest, close.closes = true → Trailing trail →
      last.kind = close → tokens.length < steps →
      readItems (readValue depth) close steps (tokens ++ (trail ++ last :: rest)) =
        some ⟨items, decide (trail ≠ [] ∨ 2 ≤ items.length), rest⟩
  | .entry entry => ∀ rest, nextKind rest ≠ .string →
      readEntry (readValue depth) (tokens ++ rest) = some (entry, rest)
  | .entries members => ∀ steps trail last rest, Trailing trail → last.kind = .rightBrace →
      tokens.length < steps →
      readEntries (readValue depth) steps (tokens ++ (trail ++ last :: rest)) = some (members, rest)

theorem readStrings_written {tokens : List Token} (all : ∀ token ∈ tokens, token.kind = .string)
    {rest : TokenRest} (ends : nextKind rest ≠ .string) :
    readStrings (tokens ++ rest) = (tokens.flatMap Token.text, rest) := by
  induction tokens with
  | nil =>
      cases rest with
      | nil => rfl
      | cons token rest => exact if_neg ends
  | cons token later ih =>
      obtain ⟨own, others⟩ := List.forall_mem_cons.mp all
      simp [readStrings, own, ih others]

/-- Within brackets there is one level less. -/
theorem nesting_within {first last : Token} {inner trail : List Token} {depth : Nat}
    (fits : nesting (first :: (inner ++ (trail ++ [last]))) ≤ depth)
    (balanced : Balanced inner) (trailing : Trailing trail) (encloses : Encloses first last) :
    ∃ less, depth = less + 1 ∧ nesting inner ≤ less := by
  have whole := (balanced.contained trailing encloses).2
  exact ⟨depth - 1, by omega, by omega⟩

/-- The parts around a separator nest no deeper than the whole. -/
theorem nesting_parts {front back : List Token} {mark : Token} {depth : Nat}
    (fits : nesting (front ++ mark :: back) ≤ depth) (balanced : Balanced front)
    (flat : Flat mark) (also : Balanced back) :
    nesting front ≤ depth ∧ nesting back ≤ depth := by
  have whole := (balanced.separated flat also).2
  omega

/-- A row in brackets with something behind it. -/
theorem enclosed_append (first last : Token) (inner trail rest : List Token) :
    first :: (inner ++ (trail ++ [last])) ++ rest = first :: (inner ++ (trail ++ last :: rest)) := by
  simp

namespace ReadsPhrase

variable {depth : Nat} {inner front back later trail : List Token} {last mark : Token}
  {close : TokenKind} {value key : Json} {items : List Json} {name : Bytes}
  {member : Bytes × Json} {members : Json.Members}

variable [Json.Dialect]

/-- The steps that a bracket gives are enough for the items in it. -/
theorem bracketed_items (reads : ReadsPhrase depth inner (.items items))
    (rest : TokenRest) (closing : close.closes = true) (trailing : Trailing trail)
    (closes : last.kind = close) :
    readItems (readValue depth) close ((inner ++ (trail ++ last :: rest)).length + 1)
        (inner ++ (trail ++ last :: rest)) =
      some ⟨items, decide (trail ≠ [] ∨ 2 ≤ items.length), rest⟩ := by
  apply reads close _ trail last rest closing trailing closes
  simp only [List.length_append]
  omega

theorem bracketed_entries (reads : ReadsPhrase depth inner (.entries members))
    (rest : TokenRest) (trailing : Trailing trail) (closes : last.kind = .rightBrace) :
    readEntries (readValue depth) ((inner ++ (trail ++ last :: rest)).length + 1)
        (inner ++ (trail ++ last :: rest)) =
      some (members, rest) := by
  apply reads _ trail last rest trailing closes
  simp only [List.length_append]
  omega

theorem lastItem (item : Writes inner (.value value))
    (reads : ReadsPhrase depth inner (.value value)) :
    ReadsPhrase depth inner (.items [value]) := by
  intro close steps trail last rest closing trailing closes enough
  obtain ⟨steps, rfl⟩ : ∃ less, steps = less + 1 := ⟨steps - 1, by omega⟩
  have starts := item.not_closing (trail ++ last :: rest) closing
  have other : close ≠ .comma := by rintro rfl; cases closing
  have solid : close ≠ .string := by rintro rfl; cases closing
  cases trailing with
  | nothing =>
      have found := reads (last :: rest) (by rw [nextKind_cons, closes]; exact solid)
      exact readItems_last steps starts found closes other
  | @comma mark kind =>
      have found := reads (mark :: last :: rest) (by simp [nextKind_cons, kind])
      obtain ⟨first, later, rfl, _⟩ := item.starts
      obtain ⟨steps, rfl⟩ : ∃ less, steps = less + 1 :=
        ⟨steps - 1, by simp only [List.length_cons] at enough; omega⟩
      have whole := readItems_more (steps + 1) starts found kind
      rw [whole, readItems_none _ closes]
      rfl

theorem moreItems (item : Writes front (.value value)) (comma : mark.kind = .comma)
    (more : Writes later (.items items)) (reads : ReadsPhrase depth front (.value value))
    (others : ReadsPhrase depth later (.items items)) :
    ReadsPhrase depth (front ++ mark :: later) (.items (value :: items)) := by
  intro close steps trail last rest closing trailing closes enough
  simp only [List.length_append, List.length_cons] at enough
  obtain ⟨steps, rfl⟩ : ∃ less, steps = less + 1 := ⟨steps - 1, by omega⟩
  have found := reads (mark :: (later ++ (trail ++ last :: rest))) (by simp [nextKind_cons, comma])
  have further := others close steps trail last rest closing trailing closes (by omega)
  have whole := readItems_more steps (item.not_closing _ closing) found comma
  have several : 2 ≤ (value :: items).length := by cases more <;> simp
  have commas : decide (trail ≠ [] ∨ 2 ≤ (value :: items).length) = true :=
    decide_eq_true (.inr several)
  rw [List.append_assoc, List.cons_append, whole, further, commas]
  rfl

theorem entry (named : keyText key = some name) (colon : mark.kind = .colon)
    (reads : ReadsPhrase depth front (.value key)) (assigned : ReadsPhrase depth back (.value value)) :
    ReadsPhrase depth (front ++ mark :: back) (.entry (name, value)) := by
  intro rest ends
  have found := reads (mark :: (back ++ rest)) (by simp [nextKind_cons, colon])
  have further := assigned rest ends
  rw [List.append_assoc, List.cons_append]
  simp [readEntry, found, nextKind_cons, colon, further, named]

theorem lastEntry (entry : Writes inner (.entry member))
    (reads : ReadsPhrase depth inner (.entry member)) :
    ReadsPhrase depth inner (.entries [member]) := by
  intro steps trail last rest trailing closes enough
  obtain ⟨steps, rfl⟩ : ∃ less, steps = less + 1 := ⟨steps - 1, by omega⟩
  have starts : nextKind (inner ++ (trail ++ last :: rest)) ≠ .rightBrace :=
    entry.not_closing _ rfl
  cases trailing with
  | nothing =>
      have found := reads (last :: rest) (by simp [nextKind_cons, closes])
      exact readEntries_last steps starts found closes
  | @comma mark kind =>
      have found := reads (mark :: last :: rest) (by simp [nextKind_cons, kind])
      obtain ⟨first, later, rfl, _⟩ := entry.starts
      obtain ⟨steps, rfl⟩ : ∃ less, steps = less + 1 :=
        ⟨steps - 1, by simp only [List.length_cons] at enough; omega⟩
      have whole := readEntries_more (steps + 1) starts found kind
      rw [whole, readEntries_none _ closes]
      rfl

theorem moreEntries (entry : Writes front (.entry member))
    (comma : mark.kind = .comma) (reads : ReadsPhrase depth front (.entry member))
    (others : ReadsPhrase depth later (.entries members)) :
    ReadsPhrase depth (front ++ mark :: later) (.entries (member :: members)) := by
  intro steps trail last rest trailing closes enough
  simp only [List.length_append, List.length_cons] at enough
  obtain ⟨steps, rfl⟩ : ∃ less, steps = less + 1 := ⟨steps - 1, by omega⟩
  have found := reads (mark :: (later ++ (trail ++ last :: rest))) (by simp [nextKind_cons, comma])
  have further := others steps trail last rest trailing closes (by omega)
  have whole := readEntries_more steps (entry.not_closing _ rfl) found comma
  rw [List.append_assoc, List.cons_append, whole, further]
  rfl

end ReadsPhrase

theorem Writes.reads [Json.Dialect] {tokens : List Token} {phrase : Phrase}
    (writes : Writes tokens phrase) (depth : Nat) (fits : nesting tokens ≤ depth) :
    ReadsPhrase depth tokens phrase := by
  induction writes generalizing depth with
  | @strings tokens some_token all =>
      intro rest ends
      obtain ⟨first, later, rfl⟩ := List.exists_cons_of_ne_nil some_token
      have kind : nextKind (first :: later ++ rest) = .string := all first List.mem_cons_self
      rw [readValue_string kind, readStrings_written all ends]
  | number kind converts => exact fun rest _ => readValue_number kind converts
  | negative minus kind converts => exact fun rest _ => readValue_negative minus kind converts
  | positive plus kind converts => exact fun rest _ => readValue_positive plus kind converts
  | trueName kind text | falseName kind text | noneName kind text =>
      exact fun rest _ => readValue_name kind (by rw [text]; rfl)
  | emptyList opens closes =>
      intro rest _
      obtain ⟨less, rfl, _⟩ := nesting_within fits .nil .nothing (.square opens closes)
      simp [readValue_list opens, readItems_none _ closes]
  | emptyTuple opens closes =>
      intro rest _
      obtain ⟨less, rfl, _⟩ := nesting_within fits .nil .nothing (.round opens closes)
      simp [readValue_tuple opens, readItems_none _ closes, tupleValue]
  | emptyDictionary opens closes =>
      intro rest _
      obtain ⟨less, rfl, _⟩ := nesting_within fits .nil .nothing (.curly opens closes)
      simp [readValue_dictionary opens, readEntries_none _ closes]
      rfl
  | list opens written trailing closes ih =>
      intro rest _
      obtain ⟨less, rfl, inside⟩ :=
        nesting_within fits written.balanced trailing (.square opens closes)
      have found := (ih less inside).bracketed_items rest rfl trailing closes
      rw [enclosed_append, readValue_list opens, found]
      rfl
  | @grouped first last inner value opens written closes ih =>
      intro rest _
      obtain ⟨less, rfl, inside⟩ :=
        nesting_within fits written.balanced .nothing (.round opens closes)
      have found := ih less inside (last :: rest) (by simp [nextKind_cons, closes])
      have whole := enclosed_append first last inner [] rest
      rw [List.nil_append, List.nil_append] at whole
      rw [whole, readValue_tuple opens,
        readItems_last _ (written.not_closing _ rfl) found closes (by decide)]
      rfl
  | tuple opens written trailing comma closes ih =>
      intro rest _
      obtain ⟨less, rfl, inside⟩ :=
        nesting_within fits written.balanced trailing (.round opens closes)
      have found := (ih less inside).bracketed_items rest rfl trailing closes
      rw [decide_eq_true comma] at found
      rw [enclosed_append, readValue_tuple opens, found]
      simp [tupleValue]
  | dictionary opens written trailing closes ih =>
      intro rest _
      obtain ⟨less, rfl, inside⟩ :=
        nesting_within fits written.balanced trailing (.curly opens closes)
      have found := (ih less inside).bracketed_entries rest trailing closes
      rw [enclosed_append, readValue_dictionary opens, found]
      rfl
  | lastItem item ih => exact .lastItem item (ih depth fits)
  | moreItems item comma more ih others =>
      obtain ⟨inside, behind⟩ :=
        nesting_parts fits item.balanced (.of_kind comma ⟨rfl, rfl⟩) more.balanced
      exact .moreItems item comma more (ih depth inside) (others depth behind)
  | entry written named colon assigned ih other =>
      obtain ⟨inside, behind⟩ :=
        nesting_parts fits written.balanced (.of_kind colon ⟨rfl, rfl⟩) assigned.balanced
      exact .entry named colon (ih depth inside) (other depth behind)
  | lastEntry entry ih => exact .lastEntry entry (ih depth fits)
  | moreEntries entry comma more ih others =>
      obtain ⟨inside, behind⟩ :=
        nesting_parts fits entry.balanced (.of_kind comma ⟨rfl, rfl⟩) more.balanced
      exact .moreEntries entry comma (ih depth inside) (others depth behind)

end EndpointPreview.Notation
