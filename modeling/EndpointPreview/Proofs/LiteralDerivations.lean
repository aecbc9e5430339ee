import EndpointPreview.Proofs.LiteralGrammar
import EndpointPreview.StrictFormats

/-!
The reader of literals finds only what the grammar derives. So evaluation ends on every token
list, with a value exactly when the tokens write it and nest no deeper than containers may.
-/

namespace EndpointPreview.Notation

open Text

def FindsWritten [Json.Dialect] (depth : Nat) (read : ValueReader) : Prop :=
  ∀ tokens value rest, read tokens = some (value, rest) →
    ∃ front, tokens = front ++ rest ∧ Writes front (.value value) ∧ nesting front ≤ depth

inductive ItemsWithin [Json.Dialect] (depth : Nat) : List Token → List Json → Bool → Prop where
  | none : ItemsWithin depth [] [] false
  | some {front trail : List Token} {items : List Json} (written : Writes front (.items items))
      (fits : nesting front ≤ depth) (trailing : Trailing trail) :
      ItemsWithin depth (front ++ trail) items (decide (trail ≠ [] ∨ 2 ≤ items.length))

inductive MembersWithin [Json.Dialect] (depth : Nat) : List Token → Json.Members → Prop where
  | none : MembersWithin depth [] []
  | some {front trail : List Token} {members : Json.Members}
      (written : Writes front (.entries members)) (fits : nesting front ≤ depth)
      (trailing : Trailing trail) : MembersWithin depth (front ++ trail) members

theorem cons_of_kind {tokens : TokenRest} {kind : TokenKind} (first : nextKind tokens = kind)
    (real : kind ≠ .finish) : ∃ token, tokens = token :: tokens.drop 1 ∧ token.kind = kind := by
  cases tokens with
  | nil => exact absurd first.symm real
  | cons token rest => exact ⟨token, rfl, first⟩

theorem ItemsWithin.cons [Json.Dialect] {depth : Nat} {front inner : List Token} {mark : Token}
    {value : Json} {items : List Json} {comma : Bool} (item : Writes front (.value value))
    (fits : nesting front ≤ depth) (kind : mark.kind = .comma)
    (more : ItemsWithin depth inner items comma) :
    ItemsWithin depth (front ++ mark :: inner) (value :: items) true := by
  cases more with
  | none => exact .some (.lastItem item) fits (.comma kind)
  | @some middle trail _ written also trailing =>
      have whole := item.balanced.separated (.of_kind kind ⟨rfl, rfl⟩) written.balanced
      have several : 2 ≤ (value :: items).length := by cases written <;> simp
      have row : ItemsWithin depth (front ++ mark :: middle ++ trail) (value :: items) _ :=
        .some (.moreItems item kind written) (by omega) trailing
      rw [decide_eq_true (.inr several)] at row
      simpa using row

theorem MembersWithin.cons [Json.Dialect] {depth : Nat} {front inner : List Token} {mark : Token}
    {member : Bytes × Json} {members : Json.Members} (entry : Writes front (.entry member))
    (fits : nesting front ≤ depth) (kind : mark.kind = .comma)
    (more : MembersWithin depth inner members) :
    MembersWithin depth (front ++ mark :: inner) (member :: members) := by
  cases more with
  | none => exact .some (.lastEntry entry) fits (.comma kind)
  | @some middle trail _ written also trailing =>
      have whole := entry.balanced.separated (.of_kind kind ⟨rfl, rfl⟩) written.balanced
      have row : MembersWithin depth (front ++ mark :: middle ++ trail) (member :: members) :=
        .some (.moreEntries entry kind written) (by omega) trailing
      simpa using row

/-- A list ends at once, or an item stands before a comma with more behind it or before the end. -/
theorem readItems_cases {read : ValueReader} {close : TokenKind} {steps : Nat} {tokens : TokenRest}
    {found : ItemList} (own : readItems read close (steps + 1) tokens = some found) :
    (nextKind tokens = close ∧ found = ⟨[], false, tokens.drop 1⟩) ∨
    ∃ value rest, read tokens = some (value, rest) ∧
      ((nextKind rest = .comma ∧ ∃ more, readItems read close steps (rest.drop 1) = some more ∧
          found = ⟨value :: more.items, true, more.rest⟩) ∨
        (nextKind rest = close ∧ found = ⟨[value], false, rest.drop 1⟩)) := by
  unfold readItems at own
  by_cases ends : nextKind tokens = close
  · rw [if_pos ends] at own
    exact .inl ⟨ends, (Option.some.inj own).symm⟩
  · rw [if_neg ends] at own
    cases item : read tokens with
    | none =>
        rw [item] at own
        cases own
    | some first =>
        obtain ⟨value, rest⟩ := first
        refine .inr ⟨value, rest, rfl, ?_⟩
        rw [item] at own
        dsimp only at own
        by_cases comma : nextKind rest = .comma
        · rw [if_pos comma] at own
          obtain ⟨more, further, same⟩ := Option.map_eq_some_iff.mp own
          exact .inl ⟨comma, more, further, same.symm⟩
        · rw [if_neg comma] at own
          by_cases closes : nextKind rest = close
          · rw [if_pos closes] at own
            exact .inr ⟨closes, (Option.some.inj own).symm⟩
          · rw [if_neg closes] at own
            cases own

theorem readItems_written [Json.Dialect] {read : ValueReader} {depth : Nat}
    (finds : FindsWritten depth read) {close : TokenKind} (closing : close.closes = true)
    (steps : Nat) (tokens : TokenRest) (found : ItemList)
    (own : readItems read close steps tokens = some found) :
    ∃ inner last, tokens = inner ++ last :: found.rest ∧ last.kind = close ∧
      ItemsWithin depth inner found.items found.sawComma := by
  have real : close ≠ .finish := by rintro rfl; cases closing
  induction steps generalizing tokens found with
  | zero => cases own
  | succ steps ih =>
      obtain ⟨ends, rfl⟩ | ⟨value, rest, item, behind⟩ := readItems_cases own
      · obtain ⟨last, row, closes⟩ := cons_of_kind ends real
        exact ⟨[], last, row, closes, .none⟩
      · obtain ⟨front, rfl, written, fits⟩ := finds tokens value rest item
        obtain ⟨comma, more, further, rfl⟩ | ⟨closes, rfl⟩ := behind
        · obtain ⟨mark, row, kind⟩ := cons_of_kind comma (by decide)
          obtain ⟨inner, last, behind, closes, within⟩ := ih _ more further
          refine ⟨front ++ mark :: inner, last, ?_, closes, within.cons written fits kind⟩
          rw [row, behind]
          simp
        · obtain ⟨last, row, kind⟩ := cons_of_kind closes real
          have within : ItemsWithin depth (front ++ []) [value] false :=
            .some (.lastItem written) fits .nothing
          rw [List.append_nil] at within
          exact ⟨front, last, congrArg _ row, kind, within⟩

theorem readEntry_written [Json.Dialect] {read : ValueReader} {depth : Nat}
    (finds : FindsWritten depth read) (tokens : TokenRest) (member : Bytes × Json)
    (rest : TokenRest) (own : readEntry read tokens = some (member, rest)) :
    ∃ front, tokens = front ++ rest ∧ Writes front (.entry member) ∧ nesting front ≤ depth := by
  unfold readEntry at own
  cases first : read tokens with
  | none =>
      rw [first] at own
      cases own
  | some found =>
      obtain ⟨key, behind⟩ := found
      obtain ⟨front, rfl, written, fits⟩ := finds tokens key behind first
      rw [first] at own
      dsimp only at own
      by_cases colon : nextKind behind = .colon
      · rw [if_pos colon] at own
        obtain ⟨mark, row, kind⟩ := cons_of_kind colon (by decide)
        split at own
        next value after name second named =>
          cases own
          obtain ⟨back, rear, assigned, also⟩ := finds _ _ _ second
          have whole := written.balanced.separated (.of_kind kind ⟨rfl, rfl⟩) assigned.balanced
          refine ⟨front ++ mark :: back, ?_, .entry written named kind assigned, by omega⟩
          rw [row, rear]
          simp
        next => cases own
      · rw [if_neg colon] at own
        cases own

theorem readEntries_cases [Json.Dialect] {read : ValueReader} {steps : Nat}
    {tokens rest : TokenRest} {members : Json.Members}
    (own : readEntries read (steps + 1) tokens = some (members, rest)) :
    (nextKind tokens = .rightBrace ∧ members = [] ∧ rest = tokens.drop 1) ∨
    ∃ member behind, readEntry read tokens = some (member, behind) ∧
      ((nextKind behind = .comma ∧ ∃ more,
          readEntries read steps (behind.drop 1) = some (more, rest) ∧ members = member :: more) ∨
        (nextKind behind = .rightBrace ∧ members = [member] ∧ rest = behind.drop 1)) := by
  unfold readEntries at own
  by_cases ends : nextKind tokens = .rightBrace
  · rw [if_pos ends] at own
    cases own
    exact .inl ⟨ends, rfl, rfl⟩
  · rw [if_neg ends] at own
    cases entry : readEntry read tokens with
    | none =>
        rw [entry] at own
        cases own
    | some found =>
        obtain ⟨member, behind⟩ := found
        refine .inr ⟨member, behind, rfl, ?_⟩
        rw [entry] at own
        dsimp only at own
        by_cases comma : nextKind behind = .comma
        · rw [if_pos comma] at own
          obtain ⟨more, further, same⟩ := Option.map_eq_some_iff.mp own
          cases same
          exact .inl ⟨comma, more.1, further, rfl⟩
        · rw [if_neg comma] at own
          by_cases closes : nextKind behind = .rightBrace
          · rw [if_pos closes] at own
            cases own
            exact .inr ⟨closes, rfl, rfl⟩
          · rw [if_neg closes] at own
            cases own

theorem readEntries_written [Json.Dialect] {read : ValueReader} {depth : Nat}
    (finds : FindsWritten depth read) (steps : Nat) (tokens : TokenRest) (members : Json.Members)
    (rest : TokenRest) (own : readEntries read steps tokens = some (members, rest)) :
    ∃ inner last, tokens = inner ++ last :: rest ∧ last.kind = .rightBrace ∧
      MembersWithin depth inner members := by
  induction steps generalizing tokens members rest with
  | zero => cases own
  | succ steps ih =>
      obtain ⟨ends, rfl, rfl⟩ | ⟨member, behind, entry, next⟩ := readEntries_cases own
      · obtain ⟨last, row, closes⟩ := cons_of_kind ends (by decide)
        exact ⟨[], last, row, closes, .none⟩
      · obtain ⟨front, rfl, written, fits⟩ := readEntry_written finds tokens member behind entry
        obtain ⟨comma, more, further, rfl⟩ | ⟨closes, rfl, rfl⟩ := next
        · obtain ⟨mark, row, kind⟩ := cons_of_kind comma (by decide)
          obtain ⟨inner, last, rear, closes, within⟩ := ih _ more rest further
          refine ⟨front ++ mark :: inner, last, ?_, closes, within.cons written fits kind⟩
          rw [row, rear]
          simp
        · obtain ⟨last, row, kind⟩ := cons_of_kind closes (by decide)
          have within : MembersWithin depth (front ++ []) [member] :=
            .some (.lastEntry written) fits .nothing
          rw [List.append_nil] at within
          exact ⟨front, last, congrArg _ row, kind, within⟩

theorem readStrings_row (tokens : TokenRest) :
    ∃ front, tokens = front ++ (readStrings tokens).2 ∧ (∀ token ∈ front, token.kind = .string) ∧
      (readStrings tokens).1 = front.flatMap Token.text ∧
      (nextKind tokens = .string → front ≠ []) := by
  induction tokens with
  | nil => exact ⟨[], rfl, by simp, rfl, nofun⟩
  | cons token rest ih =>
      by_cases string : token.kind = .string
      · obtain ⟨front, row, all, text, _⟩ := ih
        refine ⟨token :: front, ?_, List.forall_mem_cons.mpr ⟨string, all⟩, ?_, nofun⟩
        · simpa [readStrings, string] using row
        · simp [readStrings, string, text]
      · exact ⟨[], by simp [readStrings, string], by simp, by simp [readStrings, string],
          fun kind => absurd kind string⟩

theorem readNumber_token (negative : Bool) (tokens : TokenRest) (value : Json) (rest : TokenRest)
    (own : readNumber negative tokens = some (value, rest)) :
    ∃ token, tokens = token :: rest ∧ token.kind = .number ∧
      numberValue negative token.text = some value := by
  unfold readNumber at own
  by_cases number : nextKind tokens = .number
  · rw [if_pos number] at own
    obtain ⟨found, converts, same⟩ := Option.map_eq_some_iff.mp own
    cases same
    obtain ⟨token, row, kind⟩ := cons_of_kind number (by decide)
    rw [row] at converts
    exact ⟨token, row, kind, converts⟩
  · rw [if_neg number] at own
    cases own

theorem Writes.named [Json.Dialect] {token : Token} {value : Json} (kind : token.kind = .identifier)
    (named : nameValue token.text = some value) : Writes [token] (.value value) := by
  unfold nameValue at named
  split at named
  · cases named
    exact .trueName kind ‹_›
  · split at named
    · cases named
      exact .falseName kind ‹_›
    · split at named
      · cases named
        exact .noneName kind ‹_›
      · cases named

theorem ItemsWithin.balanced [Json.Dialect] {depth : Nat} {inner : List Token} {items : List Json}
    {comma : Bool} (within : ItemsWithin depth inner items comma) :
    Balanced inner ∧ nesting inner ≤ depth := by
  cases within with
  | none => exact ⟨.nil, Nat.zero_le depth⟩
  | some written fits trailing =>
      have whole := written.balanced.append trailing.balanced.1
      have flat := trailing.balanced.2
      exact ⟨whole.1, by omega⟩

theorem MembersWithin.balanced [Json.Dialect] {depth : Nat} {inner : List Token}
    {members : Json.Members} (within : MembersWithin depth inner members) :
    Balanced inner ∧ nesting inner ≤ depth := by
  cases within with
  | none => exact ⟨.nil, Nat.zero_le depth⟩
  | some written fits trailing =>
      have whole := written.balanced.append trailing.balanced.1
      have flat := trailing.balanced.2
      exact ⟨whole.1, by omega⟩

theorem ItemsWithin.list [Json.Dialect] {depth : Nat} {inner : List Token} {items : List Json}
    {comma : Bool} {first last : Token} (within : ItemsWithin depth inner items comma)
    (opens : first.kind = .leftBracket) (closes : last.kind = .rightBracket) :
    Writes (first :: (inner ++ [last])) (.value (.arr items)) := by
  cases within with
  | none => exact .emptyList opens closes
  | some written fits trailing =>
      rw [List.append_assoc]
      exact .list opens written trailing closes

/-- One item without a comma is written by the tokens within, unless it stands in a list. -/
theorem ItemsWithin.alone [Json.Dialect] {depth : Nat} {inner : List Token} {value : Json}
    (within : ItemsWithin depth inner [value] false) : Writes inner (.value value) := by
  generalize shape : [value] = items at within
  generalize without : false = comma at within
  cases within with
  | none => cases shape
  | @some front trail items written fits trailing =>
      subst shape
      have none_behind : trail = [] := by simpa using without
      subst none_behind
      rw [List.append_nil]
      cases written with
      | lastItem item => exact item
      | moreItems _ _ more => cases more

theorem ItemsWithin.tuple [Json.Dialect] {depth : Nat} {inner : List Token} {found : ItemList}
    {first last : Token} (within : ItemsWithin depth inner found.items found.sawComma)
    (opens : first.kind = .leftParen) (closes : last.kind = .rightParen) :
    Writes (first :: (inner ++ [last])) (.value (tupleValue found)) := by
  obtain ⟨items, comma, rest⟩ := found
  unfold tupleValue
  split
  next value single without =>
    dsimp only at single without within
    subst single without
    exact .grouped opens within.alone closes
  next several =>
    dsimp only at several within
    cases within with
    | none => exact .emptyTuple opens closes
    | @some front trail _ written fits trailing =>
        rw [List.append_assoc]
        refine .tuple opens written trailing ?_ closes
        by_contra single
        cases written with
        | lastItem item => exact several _ rfl (decide_eq_false single)
        | moreItems _ _ more => exact single (.inr (by cases more <;> simp))

theorem MembersWithin.dictionary [Json.Dialect] {depth : Nat} {inner : List Token}
    {members : Json.Members} {first last : Token} (within : MembersWithin depth inner members)
    (opens : first.kind = .leftBrace) (closes : last.kind = .rightBrace) :
    Writes (first :: (inner ++ [last])) (.value (.object members)) := by
  cases within with
  | none => exact .emptyDictionary opens closes
  | some written fits trailing =>
      rw [List.append_assoc]
      exact .dictionary opens written trailing closes

/-- A pair of brackets takes one level. -/
theorem within_brackets {inner : List Token} {first last : Token} {depth : Nat}
    (balanced : Balanced inner ∧ nesting inner ≤ depth) (encloses : Encloses first last) :
    nesting (first :: (inner ++ [last])) ≤ depth + 1 := by
  have whole := balanced.1.bracketed encloses
  omega

variable [Json.Dialect]

/-- A container is what its tokens write, one level above what they enclose. -/
theorem found_within {tokens behind rest : TokenRest} {first last : Token}
    {inner : List Token} {value : Json} {depth : Nat} (row : tokens = first :: behind)
    (rear : behind = inner ++ last :: rest)
    (written : Writes (first :: (inner ++ [last])) (.value value))
    (balanced : Balanced inner ∧ nesting inner ≤ depth) (encloses : Encloses first last) :
    ∃ front, tokens = front ++ rest ∧ Writes front (.value value) ∧ nesting front ≤ depth + 1 := by
  refine ⟨first :: (inner ++ [last]), ?_, written, within_brackets balanced encloses⟩
  rw [row, rear]
  simp

theorem readValue_written_step (depth : Nat)
    (inner : ∀ less, depth = less + 1 → FindsWritten less (readValue less)) :
    FindsWritten depth (readValue depth) := by
  intro tokens value rest own
  unfold readValue at own
  -- A token other than a bracket nests nothing.
  have flat {front : List Token} (scalar : Writes front (.value value))
      (plain : ∀ token ∈ front, Flat token)
      (row : tokens = front ++ rest) :
      ∃ front, tokens = front ++ rest ∧ Writes front (.value value) ∧ nesting front ≤ depth :=
    ⟨front, row, scalar, by simp [(Balanced.plain plain).2]⟩
  cases kind : nextKind tokens <;> rw [kind] at own <;> dsimp only at own
  case string =>
    obtain ⟨front, row, all, text, some_token⟩ := readStrings_row tokens
    cases own
    refine flat (text ▸ .strings (some_token kind) all) ?_ row
    exact fun token member => .of_kind (all token member) ⟨rfl, rfl⟩
  case number =>
    obtain ⟨token, rfl, number, converts⟩ := readNumber_token false tokens value rest own
    exact flat (.number number converts) (by simpa using Flat.of_kind number ⟨rfl, rfl⟩) rfl
  case minus =>
    obtain ⟨sign, row, minus⟩ := cons_of_kind kind (by decide)
    obtain ⟨token, behind, number, converts⟩ := readNumber_token true _ value rest own
    refine flat (.negative minus number converts) ?_ (row.trans (congrArg _ behind))
    simpa using And.intro (Flat.of_kind minus ⟨rfl, rfl⟩) (Flat.of_kind number ⟨rfl, rfl⟩)
  case plus =>
    obtain ⟨sign, row, plus⟩ := cons_of_kind kind (by decide)
    obtain ⟨token, behind, number, converts⟩ := readNumber_token false _ value rest own
    refine flat (.positive plus number converts) ?_ (row.trans (congrArg _ behind))
    simpa using And.intro (Flat.of_kind plus ⟨rfl, rfl⟩) (Flat.of_kind number ⟨rfl, rfl⟩)
  case identifier =>
    obtain ⟨token, row, word⟩ := cons_of_kind kind (by decide)
    obtain ⟨_, named, same⟩ := Option.map_eq_some_iff.mp own
    cases same
    rw [row] at named
    exact flat (.named word named) (by simpa using Flat.of_kind word ⟨rfl, rfl⟩) row
  case leftBracket =>
    cases depth with
    | zero => cases own
    | succ less =>
        obtain ⟨found, items, same⟩ := Option.map_eq_some_iff.mp own
        cases same
        obtain ⟨first, row, opens⟩ := cons_of_kind kind (by decide)
        obtain ⟨inside, last, behind, closes, within⟩ :=
          readItems_written (inner less rfl) rfl _ _ found items
        exact found_within row behind (within.list opens closes) within.balanced
          (.square opens closes)
  case leftParen =>
    cases depth with
    | zero => cases own
    | succ less =>
        obtain ⟨found, items, same⟩ := Option.map_eq_some_iff.mp own
        cases same
        obtain ⟨first, row, opens⟩ := cons_of_kind kind (by decide)
        obtain ⟨inside, last, behind, closes, within⟩ :=
          readItems_written (inner less rfl) rfl _ _ found items
        exact found_within row behind (within.tuple opens closes) within.balanced
          (.round opens closes)
  case leftBrace =>
    cases depth with
    | zero => cases own
    | succ less =>
        obtain ⟨⟨members, after⟩, entries, same⟩ := Option.map_eq_some_iff.mp own
        cases same
        obtain ⟨first, row, opens⟩ := cons_of_kind kind (by decide)
        obtain ⟨inside, last, behind, closes, within⟩ :=
          readEntries_written (inner less rfl) _ _ members after entries
        exact found_within row behind (within.dictionary opens closes) within.balanced
          (.curly opens closes)
  all_goals cases own

theorem readValue_written (depth : Nat) : FindsWritten depth (readValue depth) := by
  induction depth with
  | zero => exact readValue_written_step 0 fun less more => by cases more
  | succ depth ih =>
      apply readValue_written_step
      intro less same
      cases same
      exact ih

/-- The end of the tokens is no part of what they write. -/
theorem Writes.inside {tokens : List Token} {phrase : Phrase}
    (writes : Writes tokens phrase) : ∀ token ∈ tokens, token.kind ≠ .finish := by
  have behind {trail : List Token} (trailing : Trailing trail) :
      ∀ token ∈ trail, token.kind ≠ .finish := by
    cases trailing with
    | nothing => simp
    | comma kind => simp [kind]
  have enclosed {first last : Token} {inner : List Token} (opens : first.kind ≠ .finish)
      (within : ∀ token ∈ inner, token.kind ≠ .finish) (closes : last.kind ≠ .finish) :
      ∀ token ∈ first :: (inner ++ [last]), token.kind ≠ .finish :=
    List.forall_mem_cons.mpr ⟨opens, List.forall_mem_append.mpr ⟨within, by simpa using closes⟩⟩
  have parted {front back : List Token} {mark : Token}
      (before : ∀ token ∈ front, token.kind ≠ .finish) (separates : mark.kind ≠ .finish)
      (after : ∀ token ∈ back, token.kind ≠ .finish) :
      ∀ token ∈ front ++ mark :: back, token.kind ≠ .finish :=
    List.forall_mem_append.mpr ⟨before, List.forall_mem_cons.mpr ⟨separates, after⟩⟩
  induction writes with
  | strings some_token all => exact fun token member => by simp [all token member]
  | number kind _ | trueName kind _ | falseName kind _ | noneName kind _ => simp [kind]
  | negative sign kind _ | positive sign kind _ => simp [sign, kind]
  | emptyList opens closes | emptyTuple opens closes | emptyDictionary opens closes =>
      simp [opens, closes]
  | grouped opens _ closes ih => exact enclosed (by simp [opens]) ih (by simp [closes])
  | list opens _ trailing closes ih | tuple opens _ trailing _ closes ih
  | dictionary opens _ trailing closes ih =>
      rw [← List.append_assoc]
      exact enclosed (by simp [opens]) (List.forall_mem_append.mpr ⟨ih, behind trailing⟩)
        (by simp [closes])
  | lastItem _ ih | lastEntry _ ih => exact ih
  | moreItems _ mark _ ih others | moreEntries _ mark _ ih others | entry _ _ mark _ ih others =>
      exact parted ih (by simp [mark]) others

/-- Tokens up to the only one that ends them have a value exactly when they write it and nest no
deeper than containers may. -/
theorem literalOfTokens_iff {body : List Token} {last : Token}
    (inside : ∀ token ∈ body, token.kind ≠ .finish) (ends : last.kind = .finish) (value : Json) :
    literalOfTokens (body ++ [last]) = some value ↔
      Writes body (.value value) ∧ nesting body ≤ maxNesting := by
  have final : nextKind [last] = .finish := ends
  constructor
  · intro found
    unfold literalOfTokens at found
    split at found
    next own rest read =>
      by_cases finished : nextKind rest = .finish
      · rw [if_pos finished] at found
        cases found
        obtain ⟨front, row, written, fits⟩ := readValue_written maxNesting _ _ _ read
        have suffix : rest <:+ body ++ [last] := ⟨front, row.symm⟩
        rcases finished_rest inside suffix finished with rfl | rfl
        · have own : last ∈ front := by
            rw [List.append_nil] at row
            simp [← row]
          exact absurd ends (written.inside last own)
        · rw [List.append_cancel_right row]
          exact ⟨written, fits⟩
      · rw [if_neg finished] at found
        cases found
    next => cases found
  · rintro ⟨written, fits⟩
    have read := written.reads maxNesting fits [last] (by rw [final]; decide)
    simp [literalOfTokens, read, final]

theorem Cuts.literal_eq {text : Bytes} {tokens : List Token}
    (cuts : Cuts 0 text tokens []) :
    literal? text = literalOfTokens (tokens ++ [⟨.finish, [], text.length⟩]) := by
  have row := cuts.tokens
  have closed := cuts.closed
  rw [List.append_nil] at row closed
  have scan : scanTokens text = ⟨tokens ++ [⟨.finish, [], text.length⟩], none⟩ := by
    unfold scanTokens
    dsimp only
    rw [(unterminated_iff 0 (pieces text)).mpr closed, row]
    simp [pieces, piecesIn, lexemesFrom]
  unfold literal?
  rw [scan]

/-- A text is a literal if it is cut into tokens that write a value and nest no deeper. -/
theorem Cuts.literal {text : Bytes} {tokens : List Token} {value : Json}
    (cuts : Cuts 0 text tokens []) (written : Writes tokens (.value value))
    (shallow : nesting tokens ≤ maxNesting) : literal? text = some value := by
  rw [cuts.literal_eq]
  exact (literalOfTokens_iff written.inside rfl value).mpr ⟨written, shallow⟩

end EndpointPreview.Notation

namespace EndpointPreview.ByPosition

open Notation

/-- Evaluation ends on every token list. Where the only token that ends them is the last one, it
gives the value that the tokens before it write, and none where they nest too deep. -/
theorem evaluate_written [Json.Dialect] (tokens : List Token) :
    ∃ found, evaluate tokens = .ok found ∧
      ∀ body last, tokens = body ++ [last] → (∀ token ∈ body, token.kind ≠ .finish) →
        last.kind = .finish →
          (∀ value, found = some value ↔ Writes body (.value value) ∧ nesting body ≤ maxNesting) ∧
          (maxNesting < nesting body → found = none) := by
  refine ⟨literalOfTokens tokens, evaluate_eq tokens, ?_⟩
  intro body last whole inside ends
  subst whole
  have found := literalOfTokens_iff inside ends
  refine ⟨found, fun deep => ?_⟩
  apply Option.eq_none_iff_forall_ne_some.mpr
  intro value own
  exact absurd ((found value).mp own).2 (Nat.not_le.mpr deep)

section Strict

attribute [local instance] Json.strict

-- A list with a tuple of one in it, and lists one level too deep.
theorem evaluate_written_nested :
    evaluate [⟨.leftBracket, [], 0⟩, ⟨.identifier, ascii "None", 1⟩, ⟨.comma, [], 5⟩,
        ⟨.leftParen, [], 6⟩, ⟨.string, ascii "a", 7⟩, ⟨.string, ascii "b", 10⟩, ⟨.comma, [], 13⟩,
        ⟨.rightParen, [], 14⟩, ⟨.rightBracket, [], 15⟩, ⟨.finish, [], 16⟩] =
      .ok (some (.arr [.null, .arr [.str (ascii "ab")]])) ∧
    evaluate (List.replicate 65 ⟨.leftBracket, [], 0⟩ ++ List.replicate 65 ⟨.rightBracket, [], 0⟩ ++
        [⟨.finish, [], 0⟩]) = .ok none := by
  constructor
  · obtain ⟨found, evaluated, ends⟩ := evaluate_written
      ([⟨.leftBracket, [], 0⟩, ⟨.identifier, ascii "None", 1⟩, ⟨.comma, [], 5⟩,
        ⟨.leftParen, [], 6⟩, ⟨.string, ascii "a", 7⟩, ⟨.string, ascii "b", 10⟩, ⟨.comma, [], 13⟩,
        ⟨.rightParen, [], 14⟩, ⟨.rightBracket, [], 15⟩] ++ [⟨.finish, [], 16⟩])
    have pair : Writes [⟨.string, ascii "a", 7⟩, ⟨.string, ascii "b", 10⟩]
        (.items [.str (ascii "ab")]) :=
      .lastItem (.strings (by decide) (by decide))
    have tuple : Writes [⟨.leftParen, [], 6⟩, ⟨.string, ascii "a", 7⟩, ⟨.string, ascii "b", 10⟩,
        ⟨.comma, [], 13⟩, ⟨.rightParen, [], 14⟩] (.value (.arr [.str (ascii "ab")])) :=
      .tuple rfl pair (.comma rfl) (.inl nofun) rfl
    have items : Writes [⟨.identifier, ascii "None", 1⟩, ⟨.comma, [], 5⟩, ⟨.leftParen, [], 6⟩,
        ⟨.string, ascii "a", 7⟩, ⟨.string, ascii "b", 10⟩, ⟨.comma, [], 13⟩, ⟨.rightParen, [], 14⟩]
        (.items [.null, .arr [.str (ascii "ab")]]) :=
      .moreItems (.noneName rfl rfl) rfl (.lastItem tuple)
    have value := ((ends _ _ rfl (by decide) rfl).1 _).mpr ⟨.list rfl items .nothing rfl, by decide⟩
    exact evaluated.trans (congrArg _ value)
  · obtain ⟨found, evaluated, ends⟩ := evaluate_written
      (List.replicate 65 ⟨.leftBracket, [], 0⟩ ++ List.replicate 65 ⟨.rightBracket, [], 0⟩ ++
        [⟨.finish, [], 0⟩])
    have deep := (ends _ _ rfl (by simp) rfl).2 (by decide +kernel)
    exact evaluated.trans (congrArg _ deep)

end Strict

end EndpointPreview.ByPosition
