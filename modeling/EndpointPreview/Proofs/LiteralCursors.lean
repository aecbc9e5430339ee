import EndpointPreview.Proofs.TokenCursors

/-!
Literals read through a cursor. The loops over items and entries take a bounded number of
steps here; every value takes a token from those that are left, so the bound is never
reached. A number is read by its digits and by the two bytes at its front, and of the values
that may be keys only the scalar ones are asked for their text, which they have.
-/

namespace EndpointPreview.ByPosition

open Text Notation

def isHexLiteral (text : Bytes) : Checked Bool := do
  if 2 < text.length then
    let zero ← itemAt text 0
    let x ← itemAt text 1
    return zero == byte '0' && (x == byte 'x' || x == byte 'X')
  else return false

def numberValue (negative : Bool) (written : Bytes) : Checked (Option Json) := do
  let text := written.filter (· != byte '_')
  if ← isHexLiteral text then
    return (Numeral.hexInt64? text).map fun n => .int (if negative then Numeral.opposite64 n else n)
  else if isFloatLiteral text then
    return (Numeral.double? text).map fun bits =>
      .float (if negative then Decimal.negate bits else bits)
  else
    return (Numeral.int64? text).map fun n => .int (if negative then Numeral.opposite64 n else n)

/-- The JSON text of a value; one with other bytes than UTF-8 has none. -/
def dump [Json.Dialect] (value : Json) : Checked Bytes :=
  match value.render? with
  | some text => .ok text
  | none => .error .noText

def keyText [Json.Dialect] (key : Json) : Checked (Option Bytes) := do
  match key with
  | .str text => return some text
  | .arr _ => return none
  | .obj _ => return none
  | scalar => return some (← dump scalar)

theorem isHexLiteral_eq (text : Bytes) :
    isHexLiteral text = .ok (Notation.isHexLiteral text) := by
  rcases text with _ | ⟨zero, _ | ⟨x, _ | ⟨third, rest⟩⟩⟩
  · rfl
  · rfl
  · rfl
  · have long : 2 < (zero :: x :: third :: rest).length := by simp
    have prefixed : Notation.isHexLiteral (zero :: x :: third :: rest) =
        (zero == byte '0' && (x == byte 'x' || x == byte 'X')) := by
      have front (mark : UInt8) : startsWith [byte '0', mark] (zero :: x :: third :: rest) =
          (zero == byte '0' && x == mark) := by
        simp [startsWith, List.isPrefixOf, Bool.beq_comm (a := zero), Bool.beq_comm (a := x)]
      have both : Notation.isHexLiteral (zero :: x :: third :: rest) =
          (startsWith [byte '0', byte 'x'] (zero :: x :: third :: rest) ||
            startsWith [byte '0', byte 'X'] (zero :: x :: third :: rest)) := rfl
      rw [both, front, front, Bool.and_or_distrib_left]
    rw [isHexLiteral, if_pos long, prefixed]
    rfl

theorem numberValue_eq (negative : Bool) (written : Bytes) :
    numberValue negative written = .ok (Notation.numberValue negative written) := by
  rw [numberValue, isHexLiteral_eq, ok_bind, Notation.numberValue]
  split
  · rfl
  · split <;> rfl

theorem keyText_eq [Json.Dialect] (key : Json) : keyText key = .ok (Notation.keyText key) := by
  cases key <;> rfl

-- A reader takes a value from the tokens at the cursor, if they begin with one.
abbrev ValueReading := Cursor → Checked (Option (Json × Cursor))

def Cursor.passed? (kind : TokenKind) (cursor : Cursor) : Checked (Option Cursor) := do
  if (← cursor.peek).kind = kind then return some (← cursor.advance) else return none

/-- Items up to the closing token, whether a comma stood after one of them, and the cursor
behind them. -/
def readItems (read : ValueReading) (close : TokenKind) :
    Nat → Cursor → Checked (Option (List Json × Bool × Cursor))
  | 0, _ => .error .endless
  | steps + 1, cursor => do
      match ← cursor.passed? close with
      | some closed => return some ([], false, closed)
      | none =>
          match ← read cursor with
          | none => return none
          | some (item, behind) =>
              match ← behind.passed? .comma with
              | some next =>
                  match ← readItems read close steps next with
                  | none => return none
                  | some (items, _, last) => return some (item :: items, true, last)
              | none =>
                  match ← behind.passed? close with
                  | none => return none
                  | some closed => return some ([item], false, closed)

def tupleValue (items : List Json) (sawComma : Bool) : Checked Json := do
  if items.length = 1 ∧ ¬ sawComma then itemAt items 0 else return .arr items

def readEntry [Json.Dialect] (read : ValueReading) (cursor : Cursor) :
    Checked (Option ((Bytes × Json) × Cursor)) := do
  match ← read cursor with
  | none => return none
  | some (key, afterKey) =>
      match ← afterKey.passed? .colon with
      | none => return none
      | some next =>
          match ← read next with
          | none => return none
          | some (value, behind) =>
              match ← keyText key with
              | none => return none
              | some name => return some ((name, value), behind)

def readEntries [Json.Dialect] (read : ValueReading) :
    Nat → Cursor → Checked (Option (Json.Members × Cursor))
  | 0, _ => .error .endless
  | steps + 1, cursor => do
      match ← cursor.passed? .rightBrace with
      | some closed => return some ([], closed)
      | none =>
          match ← readEntry read cursor with
          | none => return none
          | some (entry, behind) =>
              match ← behind.passed? .comma with
              | some next =>
                  match ← readEntries read steps next with
                  | none => return none
                  | some (entries, last) => return some (entry :: entries, last)
              | none =>
                  match ← behind.passed? .rightBrace with
                  | none => return none
                  | some closed => return some ([entry], closed)

def readStrings : Nat → Cursor → Checked (Bytes × Cursor)
  | 0, _ => .error .endless
  | steps + 1, cursor => do
      let token ← cursor.peek
      if token.kind = .string then
        let (text, behind) ← readStrings steps (← cursor.advance)
        return (token.text ++ text, behind)
      else return ([], cursor)

def readNumber (negative : Bool) : ValueReading := fun cursor => do
  let token ← cursor.peek
  if token.kind = .number then
    let behind ← cursor.advance
    return (← numberValue negative token.text).map fun value => (value, behind)
  else return none

def Cursor.steps (cursor : Cursor) : Nat := cursor.tokens.length + 1

def readValue [Json.Dialect] : Nat → ValueReading
  | depth, cursor => do
      let token ← cursor.peek
      match token.kind with
      | .string =>
          let (text, behind) ← readStrings cursor.steps cursor
          return some (.str text, behind)
      | .number => readNumber false cursor
      | .minus => readNumber true (← cursor.advance)
      | .plus => readNumber false (← cursor.advance)
      | .identifier =>
          match nameValue token.text with
          | none => return none
          | some value => return some (value, ← cursor.advance)
      | .leftBracket =>
          let opened ← cursor.advance
          match depth with
          | 0 => return none
          | inner + 1 =>
              match ← readItems (readValue inner) .rightBracket opened.steps opened with
              | none => return none
              | some (items, _, behind) => return some (.arr items, behind)
      | .leftParen =>
          let opened ← cursor.advance
          match depth with
          | 0 => return none
          | inner + 1 =>
              match ← readItems (readValue inner) .rightParen opened.steps opened with
              | none => return none
              | some (items, sawComma, behind) => return some (← tupleValue items sawComma, behind)
      | .leftBrace =>
          let opened ← cursor.advance
          match depth with
          | 0 => return none
          | inner + 1 =>
              match ← readEntries (readValue inner) opened.steps opened with
              | none => return none
              | some (members, behind) => return some (.object members, behind)
      | _ => return none

/-- The value of a token list, which is closed by a finish token if it is not yet. -/
def evaluate [Json.Dialect] (tokens : List Token) : Checked (Option Json) := do
  let cursor ← Cursor.start tokens
  match ← readValue maxNesting cursor with
  | none => return none
  | some (value, behind) =>
      if (← behind.peek).kind = .finish then return some value else return none

def literal [Json.Dialect] (text : Bytes) : Checked (Option Json) := do
  let scan ← scanTokens text
  match scan.openString with
  | some _ => return none
  | none =>
      let cursor ← Cursor.start scan.tokens
      match ← readValue maxNesting cursor with
      | none => return none
      | some (value, behind) =>
          if (← behind.peek).kind = .finish then return some value else return none

structure ReadFrom {Value : Type} (rest : TokenRest) (own : Value × Cursor)
    (value : Value × TokenRest) : Prop where
  same : own.1 = value.1
  stands : Stands own.2 value.2
  shorter : value.2.length < rest.length

def Follows (read : ValueReading) (plain : ValueReader) : Prop :=
  ∀ cursor rest, Stands cursor rest → Finds (ReadFrom rest) (read cursor) (plain rest)

section passing

variable {cursor : Cursor} {rest : TokenRest} {kind : TokenKind}

theorem Stands.passes (stands : Stands cursor rest) (next : nextKind rest = kind) :
    ∃ behind, cursor.passed? kind = .ok (some behind) ∧ Stands behind (rest.drop 1) := by
  obtain ⟨token, found, same_kind, _⟩ := stands.peek
  obtain ⟨behind, moved, after⟩ := stands.advance
  refine ⟨behind, ?_, after⟩
  rw [Cursor.passed?, found, ok_bind, if_pos (same_kind.trans next), moved]
  rfl

theorem Stands.stays (stands : Stands cursor rest) (other : ¬ nextKind rest = kind) :
    cursor.passed? kind = .ok none := by
  obtain ⟨token, found, same_kind, _⟩ := stands.peek
  rw [Cursor.passed?, found, ok_bind, if_neg (same_kind ▸ other)]
  rfl

theorem drop_shorter (next : nextKind rest = kind) (real : kind ≠ .finish) :
    (rest.drop 1).length < rest.length := by
  cases rest with
  | nil => exact absurd next.symm real
  | cons token rest => exact Nat.lt_succ_self _

end passing

structure ItemsFrom (rest : TokenRest) (own : List Json × Bool × Cursor) (found : ItemList) :
    Prop where
  items : own.1 = found.items
  sawComma : own.2.1 = found.sawComma
  stands : Stands own.2.2 found.rest
  shorter : found.rest.length < rest.length

-- The steps on either side are enough, since each item takes a token.
theorem readItems_follows {read : ValueReading} {plain : ValueReader} (follows : Follows read plain)
    (close : TokenKind) (real : close ≠ .finish) (steps more : Nat) (cursor : Cursor)
    (rest : TokenRest) (stands : Stands cursor rest) (enough : rest.length < steps)
    (enough_more : rest.length < more) :
    Finds (ItemsFrom rest) (readItems read close steps cursor)
      (Notation.readItems plain close more rest) := by
  induction steps generalizing more cursor rest with
  | zero => cases enough
  | succ steps ih =>
      cases more with
      | zero => cases enough_more
      | succ more =>
          unfold readItems Notation.readItems
          by_cases closed : nextKind rest = close
          · obtain ⟨behind, passed, after⟩ := stands.passes closed
            rw [passed, ok_bind, if_pos closed]
            exact .some ⟨rfl, rfl, after, drop_shorter closed real⟩
          · rw [stands.stays closed, ok_bind, if_neg closed]
            dsimp only
            rcases (follows cursor rest stands).found with ⟨own, found⟩ |
              ⟨⟨item, cursor⟩, ⟨_, left⟩, own, found, rfl, stands, shorter⟩
            · rw [own, found]
              exact .none
            rw [own, found, ok_bind]
            dsimp only at stands shorter ⊢
            by_cases comma : nextKind left = .comma
            · obtain ⟨behind, passed, after⟩ := stands.passes comma
              have fewer := (drop_shorter comma (by decide)).trans shorter
              rw [passed, ok_bind, if_pos comma]
              dsimp only
              rcases (ih more behind (left.drop 1) after (by omega) (by omega)).found with
                ⟨own, found⟩ | ⟨_, _, own, found, others⟩
              · rw [own, found]
                exact .none
              · rw [own, found]
                exact .some ⟨congrArg _ others.items, rfl, others.stands,
                  others.shorter.trans fewer⟩
            · rw [stands.stays comma, ok_bind, if_neg comma]
              dsimp only
              by_cases last : nextKind left = close
              · obtain ⟨behind, passed, after⟩ := stands.passes last
                rw [passed, ok_bind, if_pos last]
                exact .some ⟨rfl, rfl, after, (drop_shorter last real).trans shorter⟩
              · rw [stands.stays last, ok_bind, if_neg last]
                exact .none

theorem tupleValue_eq (found : ItemList) :
    tupleValue found.items found.sawComma = .ok (Notation.tupleValue found) := by
  obtain ⟨items, sawComma, rest⟩ := found
  rcases items with _ | ⟨item, _ | ⟨second, items⟩⟩
  · rfl
  · cases sawComma <;> rfl
  · have several : ¬ ((item :: second :: items).length = 1 ∧ ¬ sawComma = true) := by simp
    rw [tupleValue, if_neg several]
    rfl

theorem readEntry_follows [Json.Dialect] {read : ValueReading} {plain : ValueReader}
    (follows : Follows read plain) {cursor : Cursor} {rest : TokenRest}
    (stands : Stands cursor rest) :
    Finds (ReadFrom rest) (readEntry read cursor) (Notation.readEntry plain rest) := by
  unfold readEntry Notation.readEntry
  rcases (follows cursor rest stands).found with ⟨own, found⟩ |
    ⟨⟨key, cursor⟩, ⟨_, left⟩, own, found, rfl, stands, shorter⟩
  · rw [own, found]
    exact .none
  rw [own, found, ok_bind]
  dsimp only at stands shorter ⊢
  by_cases colon : nextKind left = .colon
  · obtain ⟨behind, passed, after⟩ := stands.passes colon
    have fewer := (drop_shorter colon (by decide)).trans shorter
    rw [passed, ok_bind, if_pos colon]
    dsimp only
    rcases (follows behind (left.drop 1) after).found with ⟨own, found⟩ |
      ⟨⟨value, cursor⟩, ⟨_, last⟩, own, found, rfl, stands, shorter⟩
    · rw [own, found]
      exact .none
    rw [own, found, ok_bind]
    dsimp only at stands shorter ⊢
    rw [keyText_eq, ok_bind]
    cases Notation.keyText key with
    | none => exact .none
    | some name => exact .some ⟨rfl, stands, shorter.trans fewer⟩
  · rw [stands.stays colon, ok_bind, if_neg colon]
    exact .none

theorem readEntries_follows [Json.Dialect] {read : ValueReading} {plain : ValueReader}
    (follows : Follows read plain) (steps more : Nat) (cursor : Cursor) (rest : TokenRest)
    (stands : Stands cursor rest) (enough : rest.length < steps) (enough_more : rest.length < more) :
    Finds (ReadFrom rest) (readEntries read steps cursor)
      (Notation.readEntries plain more rest) := by
  induction steps generalizing more cursor rest with
  | zero => cases enough
  | succ steps ih =>
      cases more with
      | zero => cases enough_more
      | succ more =>
          unfold readEntries Notation.readEntries
          by_cases closed : nextKind rest = .rightBrace
          · obtain ⟨behind, passed, after⟩ := stands.passes closed
            rw [passed, ok_bind, if_pos closed]
            exact .some ⟨rfl, after, drop_shorter closed (by decide)⟩
          · rw [stands.stays closed, ok_bind, if_neg closed]
            dsimp only
            rcases (readEntry_follows follows stands).found with ⟨own, found⟩ |
              ⟨⟨entry, cursor⟩, ⟨_, left⟩, own, found, rfl, stands, shorter⟩
            · rw [own, found]
              exact .none
            rw [own, found, ok_bind]
            dsimp only at stands shorter ⊢
            by_cases comma : nextKind left = .comma
            · obtain ⟨behind, passed, after⟩ := stands.passes comma
              have fewer := (drop_shorter comma (by decide)).trans shorter
              rw [passed, ok_bind, if_pos comma]
              dsimp only
              rcases (ih more behind (left.drop 1) after (by omega) (by omega)).found with
                ⟨own, found⟩ | ⟨_, _, own, found, others⟩
              · rw [own, found]
                exact .none
              · rw [own, found]
                exact .some ⟨congrArg _ others.same, others.stands, others.shorter.trans fewer⟩
            · rw [stands.stays comma, ok_bind, if_neg comma]
              dsimp only
              by_cases last : nextKind left = .rightBrace
              · obtain ⟨behind, passed, after⟩ := stands.passes last
                rw [passed, ok_bind, if_pos last]
                exact .some ⟨rfl, after, (drop_shorter last (by decide)).trans shorter⟩
              · rw [stands.stays last, ok_bind, if_neg last]
                exact .none

theorem readStrings_follows (steps : Nat) (cursor : Cursor) (rest : TokenRest)
    (stands : Stands cursor rest) (enough : rest.length < steps) :
    ∃ behind, readStrings steps cursor = .ok ((Notation.readStrings rest).1, behind) ∧
      Stands behind (Notation.readStrings rest).2 := by
  induction steps generalizing cursor rest with
  | zero => cases enough
  | succ steps ih =>
      obtain ⟨token, found, same_kind, same_text⟩ := stands.peek
      obtain ⟨next, moved, after⟩ := stands.advance
      unfold readStrings
      rw [found, ok_bind, same_kind]
      cases rest with
      | nil => exact ⟨cursor, if_neg (by decide), stands⟩
      | cons first rest =>
          rw [nextKind, Notation.readStrings]
          by_cases string : first.kind = .string
          · obtain ⟨behind, others, left⟩ := ih next rest after (Nat.lt_of_succ_lt_succ enough)
            have own : token.text = first.text := same_text (by simp [nextKind, string])
            rw [if_pos string, if_pos string, moved, ok_bind, others, ok_bind, own]
            exact ⟨behind, rfl, left⟩
          · rw [if_neg string, if_neg string]
            exact ⟨cursor, rfl, stands⟩

theorem readNumber_follows (negative : Bool) :
    Follows (readNumber negative) (Notation.readNumber negative) := by
  intro cursor rest stands
  obtain ⟨token, found, same_kind, same_text⟩ := stands.peek
  obtain ⟨next, moved, after⟩ := stands.advance
  unfold readNumber Notation.readNumber
  rw [found, ok_bind, same_kind, moved]
  by_cases number : nextKind rest = .number
  · have own := same_text (by simp [number])
    rw [if_pos number, if_pos number, ok_bind, own, numberValue_eq, ok_bind]
    cases Notation.numberValue negative (nextText rest) with
    | none => exact .none
    | some value => exact .some ⟨rfl, after, drop_shorter number (by decide)⟩
  · rw [if_neg number, if_neg number]
    exact .none

theorem readStrings_length (tokens : TokenRest) :
    (Notation.readStrings tokens).2.length ≤ tokens.length := by
  induction tokens with
  | nil => exact Nat.le_refl _
  | cons token rest ih =>
      unfold Notation.readStrings
      split
      · exact Nat.le_succ_of_le ih
      · exact Nat.le_refl _

theorem readStrings_shorter (tokens : TokenRest) (string : nextKind tokens = .string) :
    (Notation.readStrings tokens).2.length < tokens.length := by
  cases tokens with
  | nil => cases string
  | cons token rest =>
      rw [nextKind] at string
      rw [Notation.readStrings, if_pos string]
      exact Nat.lt_succ_of_le (readStrings_length rest)

theorem Stands.steps {cursor : Cursor} {rest : TokenRest} (stands : Stands cursor rest) :
    rest.length < cursor.steps :=
  Nat.lt_succ_of_le stands.length_le

-- What was read behind a token was read from its rest.
theorem Finds.behind {Value : Type} {rest : TokenRest} {own : Checked (Option (Value × Cursor))}
    {found : Option (Value × TokenRest)} (finds : Finds (ReadFrom (rest.drop 1)) own found) :
    Finds (ReadFrom rest) own found := by
  cases finds with
  | none => exact .none
  | some read =>
      have fewer : (rest.drop 1).length ≤ rest.length := by simp
      exact .some ⟨read.same, read.stands, Nat.lt_of_lt_of_le read.shorter fewer⟩

theorem readValue_step [Json.Dialect] (depth : Nat)
    (inner : ∀ less, depth = less + 1 → Follows (readValue less) (Notation.readValue less)) :
    Follows (readValue depth) (Notation.readValue depth) := by
  intro cursor rest stands
  obtain ⟨token, found, same_kind, same_text⟩ := stands.peek
  obtain ⟨next, moved, after⟩ := stands.advance
  unfold readValue Notation.readValue
  rw [found, ok_bind, same_kind, moved]
  cases kind : nextKind rest
  case string =>
    obtain ⟨behind, texts, left⟩ := readStrings_follows cursor.steps cursor rest stands stands.steps
    rw [texts]
    exact .some ⟨rfl, left, readStrings_shorter rest kind⟩
  case number => exact readNumber_follows false cursor rest stands
  case minus => exact (readNumber_follows true next _ after).behind
  case plus => exact (readNumber_follows false next _ after).behind
  case identifier =>
    dsimp only
    rw [same_text (by simp [kind])]
    cases nameValue (nextText rest) with
    | none => exact .none
    | some value => exact .some ⟨rfl, after, drop_shorter kind (by decide)⟩
  case leftBracket =>
    cases depth with
    | zero => exact .none
    | succ less =>
        have items := readItems_follows (inner less rfl) .rightBracket (by decide) next.steps
          rest.length next _ after after.steps (drop_shorter kind (by decide))
        dsimp only
        rw [ok_bind]
        rcases items.found with ⟨own, found⟩ | ⟨_, _, own, found, items⟩
        · rw [own, found]
          exact .none
        · rw [own, found]
          apply Finds.behind
          exact .some ⟨congrArg Json.arr items.items, items.stands, items.shorter⟩
  case leftParen =>
    cases depth with
    | zero => exact .none
    | succ less =>
        have items := readItems_follows (inner less rfl) .rightParen (by decide) next.steps
          rest.length next _ after after.steps (drop_shorter kind (by decide))
        dsimp only
        rw [ok_bind]
        rcases items.found with ⟨own, found⟩ |
          ⟨⟨_, _, behind⟩, _, own, found, rfl, rfl, stands, shorter⟩
        · rw [own, found]
          exact .none
        · rw [own, found, ok_bind]
          apply Finds.behind
          dsimp only
          rw [tupleValue_eq, ok_bind]
          exact .some ⟨rfl, stands, shorter⟩
  case leftBrace =>
    cases depth with
    | zero => exact .none
    | succ less =>
        have entries := readEntries_follows (inner less rfl) next.steps rest.length next _ after
          after.steps (drop_shorter kind (by decide))
        dsimp only
        rw [ok_bind]
        rcases entries.found with ⟨own, found⟩ | ⟨_, _, own, found, entries⟩
        · rw [own, found]
          exact .none
        · rw [own, found]
          apply Finds.behind
          exact .some ⟨congrArg Json.object entries.same, entries.stands, entries.shorter⟩
  all_goals exact .none

theorem readValue_follows [Json.Dialect] (depth : Nat) : Follows (readValue depth)
    (Notation.readValue depth) := by
  induction depth with
  | zero => exact readValue_step 0 fun less more => by cases more
  | succ depth ih =>
      apply readValue_step
      intro less same
      cases same
      exact ih

/-- Every token list is read to an end, with the value that the reader of lists finds. -/
theorem evaluate_eq [Json.Dialect] (tokens : List Token) : evaluate tokens = .ok
    (literalOfTokens tokens) := by
  obtain ⟨cursor, started, stands⟩ := start_stands tokens
  rw [evaluate, started, ok_bind, literalOfTokens]
  rcases (readValue_follows maxNesting cursor _ stands).found with ⟨own, found⟩ |
    ⟨_, _, own, found, value⟩
  · rw [own, found]
    rfl
  · obtain ⟨token, last, same_kind, _⟩ := value.stands.peek
    rw [own, found, ok_bind]
    dsimp only
    rw [last, ok_bind, same_kind, value.same]
    split <;> rfl

theorem literal_eq [Json.Dialect] (text : Bytes) : literal text = .ok (literal? text) := by
  have evaluated := evaluate_eq (Notation.scanTokens text).tokens
  rw [literal, scanTokens_eq, ok_bind, literal?]
  cases (Notation.scanTokens text).openString with
  | some offset => rfl
  | none => exact evaluated

end EndpointPreview.ByPosition
