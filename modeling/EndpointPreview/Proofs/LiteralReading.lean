import EndpointPreview.Proofs.TokenWeights

/-!
Literals are read from words. Tokens of the same kinds read alike, whatever their places
and the content of their strings. The same words give the same value, and heavier strings
another one, unless a dictionary has lost the entry that held them.
-/

namespace EndpointPreview.Notation

open Text

section Reading

variable {base : Nat}

structure ReadMoved [Json.Dialect] (base : Nat) (tokens again : TokenRest)
    (read read_again : Json × TokenRest) : Prop where
  passed : Passed base tokens again read.2 read_again.2 (read.1.measure base)
    (read_again.1.measure base)
  same : SameWords tokens again → read_again.1 = read.1
  key : (keyText read_again.1).isSome = (keyText read.1).isSome

def ReaderMoved [Json.Dialect] (base : Nat) (read : ValueReader) : Prop :=
  ∀ tokens again, TokensMoved base tokens again →
    Option.Rel (ReadMoved base tokens again) (read tokens) (read again)

structure ItemsMoved [Json.Dialect] (base : Nat) (tokens again : TokenRest)
    (found found_again : ItemList) : Prop where
  passed : Passed base tokens again found.rest found_again.rest
    ((Json.arr found.items).measure base) ((Json.arr found_again.items).measure base)
  same : SameWords tokens again → found_again.items = found.items
  keys : List.Forall₂ (fun item other => (keyText other).isSome = (keyText item).isSome)
    found.items found_again.items
  sawComma : found_again.sawComma = found.sawComma

structure MembersMoved [Json.Dialect] (base : Nat) (tokens again : TokenRest)
    (found found_again : Json.Members × TokenRest) : Prop where
  passed : Passed base tokens again found.2 found_again.2
    ((Json.obj found.1).measure base) ((Json.obj found_again.1).measure base)
  same : SameWords tokens again → found_again.1 = found.1

theorem rel_map {First Second First' Second' : Type} {before : First → Second → Prop}
    {after : First' → Second' → Prop} {first : First → First'} {second : Second → Second'}
    {found : Option First} {again : Option Second}
    (maps : ∀ a b, before a b → after (first a) (second b)) (alike : Option.Rel before found again) :
    Option.Rel after (found.map first) (again.map second) := by
  cases alike with
  | none => exact .none
  | some alike => exact .some (maps _ _ alike)

theorem readItems_moved [Json.Dialect] {read : ValueReader} (reads : ReaderMoved base read)
    (close : TokenKind) (mark : close ≠ .string) (steps : Nat) (tokens again : TokenRest)
    (moved : TokensMoved base tokens again) :
    Option.Rel (ItemsMoved base tokens again) (readItems read close steps tokens)
      (readItems read close steps again) := by
  induction steps generalizing tokens again with
  | zero => exact .none
  | succ steps ih =>
      have item := reads tokens again moved
      unfold readItems
      rw [nextKind_moved moved]
      by_cases ends : nextKind tokens = close
      · rw [if_pos ends, if_pos ends]
        exact .some ⟨.skip moved (ends ▸ mark), fun _ => rfl, .nil, rfl⟩
      · rw [if_neg ends, if_neg ends]
        generalize read tokens = first at item
        generalize read again = first_again at item
        cases item with
        | none => exact .none
        | @some found found_again item =>
            have rest := item.passed.moved
            dsimp only
            rw [nextKind_moved rest]
            by_cases comma : nextKind found.2 = .comma
            · rw [if_pos comma, if_pos comma]
              have no_string : nextKind found.2 ≠ .string := by
                rw [comma]
                decide
              have front := item.passed.trans (.skip rest no_string)
              apply rel_map _ (ih _ _ (drop_moved 1 rest))
              intro more more_again later
              refine ⟨front.trans later.passed, ?_, .cons item.key later.keys, rfl⟩
              intro same
              dsimp only
              rw [item.same same, later.same (front.kept same)]
            · rw [if_neg comma, if_neg comma]
              by_cases closes : nextKind found.2 = close
              · rw [if_pos closes, if_pos closes]
                refine .some ⟨item.passed.trans (.skip rest (closes ▸ mark)), ?_,
                  .cons item.key .nil, rfl⟩
                intro same
                dsimp only
                rw [item.same same]
              · rw [if_neg closes, if_neg closes]
                exact .none

theorem tupleValue_moved [Json.Dialect] {tokens again : TokenRest} {found found_again : ItemList}
    (moved : ItemsMoved base tokens again found found_again) :
    ReadMoved base tokens again (tupleValue found, found.rest)
      (tupleValue found_again, found_again.rest) := by
  obtain ⟨passed, same, keys, comma⟩ := moved
  obtain ⟨items, sawComma, rest⟩ := found
  obtain ⟨items_again, sawComma_again, rest_again⟩ := found_again
  dsimp only at passed same keys comma
  subst comma
  have several : ReadMoved base tokens again (.arr items, rest) (.arr items_again, rest_again) :=
    ⟨passed, fun unchanged => congrArg Json.arr (same unchanged), rfl⟩
  cases keys with
  | nil => exact several
  | cons first others =>
      cases others with
      | cons => exact several
      | nil =>
          cases sawComma_again with
          | true => exact several
          | false =>
              refine ⟨passed, fun unchanged => ?_, first⟩
              exact (List.cons.inj (same unchanged)).1

theorem readEntry_moved [Json.Dialect] {read : ValueReader} (reads : ReaderMoved base read)
    (tokens again : TokenRest) (moved : TokensMoved base tokens again) :
    Option.Rel (fun found found_again : (Bytes × Json) × TokenRest =>
        MembersMoved base tokens again ([found.1], found.2) ([found_again.1], found_again.2))
      (readEntry read tokens) (readEntry read again) := by
  have key := reads tokens again moved
  unfold readEntry
  generalize read tokens = first at key
  generalize read again = first_again at key
  cases key with
  | none => exact .none
  | @some found found_again key =>
      have rest := key.passed.moved
      dsimp only
      rw [nextKind_moved rest]
      by_cases colon : nextKind found.2 = .colon
      · rw [if_pos colon, if_pos colon]
        have value := reads _ _ (drop_moved 1 rest)
        generalize read (found.2.drop 1) = second at value
        generalize read (found_again.2.drop 1) = second_again at value
        cases value with
        | none => exact .none
        | @some inner inner_again value =>
            have presence := key.key
            cases named : keyText found.1 with
            | none =>
                cases named_again : keyText found_again.1 with
                | none => exact .none
                | some => simp [named, named_again] at presence
            | some name =>
                cases named_again : keyText found_again.1 with
                | none => simp [named, named_again] at presence
                | some name_again =>
                    have no_string : nextKind found.2 ≠ .string := by
                      rw [colon]
                      decide
                    have own : 1 ≤ colons (found.2.take 1) := by
                      cases whole : found.2 with
                      | nil => simp [whole, nextKind] at colon
                      | cons token tokens =>
                          have kind : token.kind = .colon := by simpa [whole, nextKind] using colon
                          simp [colons, kind]
                    have front := key.passed
                    rw [Json.measure_key base _ _ named, Json.measure_key base _ _ named_again]
                      at front
                    have before := front.trans (.token rest no_string ⟨1, 0⟩ own)
                    refine .some ⟨before.trans value.passed, fun same => ?_⟩
                    have same_name : name_again = name := by
                      rw [key.same same, named] at named_again
                      exact (Option.some.inj named_again).symm
                    dsimp only
                    rw [same_name, value.same (before.kept same)]
      · rw [if_neg colon, if_neg colon]
        exact .none

theorem readEntries_moved [Json.Dialect] {read : ValueReader} (reads : ReaderMoved base read)
    (steps : Nat) (tokens again : TokenRest) (moved : TokensMoved base tokens again) :
    Option.Rel (MembersMoved base tokens again) (readEntries read steps tokens)
      (readEntries read steps again) := by
  induction steps generalizing tokens again with
  | zero => exact .none
  | succ steps ih =>
      have entry := readEntry_moved reads tokens again moved
      unfold readEntries
      rw [nextKind_moved moved]
      by_cases ends : nextKind tokens = .rightBrace
      · rw [if_pos ends, if_pos ends]
        have no_string : nextKind tokens ≠ .string := by
          rw [ends]
          decide
        exact .some ⟨.skip moved no_string, fun _ => rfl⟩
      · rw [if_neg ends, if_neg ends]
        generalize readEntry read tokens = first at entry
        generalize readEntry read again = first_again at entry
        cases entry with
        | none => exact .none
        | @some found found_again entry =>
            have rest := entry.passed.moved
            dsimp only at rest ⊢
            rw [nextKind_moved rest]
            by_cases comma : nextKind found.2 = .comma
            · rw [if_pos comma, if_pos comma]
              have no_string : nextKind found.2 ≠ .string := by
                rw [comma]
                decide
              have front := entry.passed.trans (.skip rest no_string)
              apply rel_map _ (ih _ _ (drop_moved 1 rest))
              intro more more_again later
              refine ⟨front.trans later.passed, fun same => ?_⟩
              have same_entry : found_again.1 = found.1 := (List.cons.inj (entry.same same)).1
              dsimp only
              rw [same_entry, later.same (front.kept same)]
            · rw [if_neg comma, if_neg comma]
              by_cases closes : nextKind found.2 = .rightBrace
              · rw [if_pos closes, if_pos closes]
                have no_string : nextKind found.2 ≠ .string := by
                  rw [closes]
                  decide
                exact .some ⟨entry.passed.trans (.skip rest no_string), entry.same⟩
              · rw [if_neg closes, if_neg closes]
                exact .none

theorem readStrings_moved (positive : 0 < base) {tokens again : TokenRest}
    (moved : TokensMoved base tokens again) :
    Passed base tokens again (readStrings tokens).2 (readStrings again).2
        ⟨0, rowWeight base (readStrings tokens).1⟩ ⟨0, rowWeight base (readStrings again).1⟩ ∧
      (SameWords tokens again → (readStrings again).1 = (readStrings tokens).1) := by
  induction moved with
  | nil =>
      refine ⟨⟨List.suffix_rfl, .nil, id, Nat.le_refl _, Nat.le_refl _, ?_⟩, fun _ => rfl⟩
      exact fun _ _ => ⟨Nat.le_refl _, fun _ same => same⟩
  | @cons token token_again tokens again first rest ih =>
      obtain ⟨passed, same_text⟩ := ih
      have same_kind : token_again.kind = token.kind := first.kind
      unfold readStrings
      rw [same_kind]
      by_cases string : token.kind = .string
      · rw [if_pos string, if_pos string]
        have none_here (token : Token) (tokens : TokenRest) (string : token.kind = .string) :
            colons (token :: tokens) = colons tokens := by
          simp [colons, string]
        have own := none_here token tokens string
        have other := none_here token_again again (same_kind.trans string)
        have front (same : SameWords (token :: tokens) (token_again :: again)) :
            token_again.word = token.word ∧ SameWords tokens again := List.cons.inj same
        refine ⟨⟨passed.suffix.trans (List.suffix_cons _ _), passed.moved,
          fun same => passed.kept (front same).2, ?_, ?_, ?_⟩, ?_⟩
        · rw [own]
          exact passed.fits
        · rw [other]
          exact passed.fits_again
        · intro full full_again
          obtain ⟨lighter, same_words⟩ := passed.heavier (own ▸ full) (other ▸ full_again)
          dsimp only at lighter same_words ⊢
          rw [rowWeight_append, rowWeight_append]
          have breaks : 0 < Nat.pow base (token.text.count newline) := Nat.pow_pos positive
          rcases first with same | ⟨_, _, same_breaks, heavier⟩
          · have same_first : token_again.text = token.text := congrArg Prod.snd same
            rw [same_first]
            have scaled := Nat.mul_le_mul_left (Nat.pow base (token.text.count newline)) lighter
            refine ⟨by omega, fun bound same_rest => ?_⟩
            have inner := Nat.le_of_mul_le_mul_left (Nat.le_of_add_le_add_left bound) breaks
            unfold SameWords
            rw [List.map_cons, List.map_cons, same, same_words inner same_rest]
          · have same_count : token_again.text.count newline = token.text.count newline :=
              same_breaks
            have more : rowWeight base token.text < rowWeight base token_again.text := heavier
            rw [same_count]
            have scaled := Nat.mul_le_mul_left (Nat.pow base (token.text.count newline)) lighter
            exact ⟨by omega, fun bound => by omega⟩
        · intro same
          obtain ⟨same_first, same_rest⟩ := front same
          have same_token : token_again.text = token.text := congrArg Prod.snd same_first
          dsimp only
          rw [same_token, same_text same_rest]
      · rw [if_neg string, if_neg string]
        refine ⟨⟨List.suffix_rfl, .cons first rest, id, ?_, ?_, ?_⟩, fun _ => rfl⟩
        · exact Nat.le_of_eq (Nat.zero_add _)
        · exact Nat.le_of_eq (Nat.zero_add _)
        · exact fun _ _ => ⟨Nat.le_refl _, fun _ same => same⟩

theorem scalar_moved [Json.Dialect] {tokens again : TokenRest}
    (moved : TokensMoved base tokens again) (no_string : nextKind tokens ≠ .string) (value : Json)
    (scalar : value.memberCount = 0) :
    ReadMoved base tokens again (value, tokens.drop 1) (value, again.drop 1) where
  passed := .token moved no_string _ (le_of_eq_of_le scalar (Nat.zero_le _))
  same := fun _ => rfl
  key := rfl

theorem numberValue_scalar (negative : Bool) (written : Bytes) (value : Json)
    (found : numberValue negative written = some value) : value.memberCount = 0 := by
  unfold numberValue at found
  dsimp only at found
  split at found
  · obtain ⟨n, _, rfl⟩ := Option.map_eq_some_iff.mp found
    rfl
  · split at found
    · obtain ⟨bits, _, rfl⟩ := Option.map_eq_some_iff.mp found
      rfl
    · obtain ⟨n, _, rfl⟩ := Option.map_eq_some_iff.mp found
      rfl

theorem nameValue_scalar (name : Bytes) (value : Json) (found : nameValue name = some value) :
    value.memberCount = 0 := by
  unfold nameValue at found
  split at found
  · cases found
    rfl
  · split at found
    · cases found
      rfl
    · split at found
      · cases found
        rfl
      · cases found

theorem readNumber_moved [Json.Dialect] (negative : Bool) {tokens again : TokenRest}
    (moved : TokensMoved base tokens again) :
    Option.Rel (ReadMoved base tokens again) (readNumber negative tokens)
      (readNumber negative again) := by
  unfold readNumber
  rw [nextKind_moved moved]
  by_cases number : nextKind tokens = .number
  · have no_string : nextKind tokens ≠ .string := by
      rw [number]
      decide
    rw [if_pos number, if_pos number, nextText_moved moved no_string]
    cases found : numberValue negative (nextText tokens) with
    | none => exact .none
    | some value =>
        exact .some (scalar_moved moved no_string value (numberValue_scalar _ _ _ found))
  · rw [if_neg number, if_neg number]
    exact .none

theorem ReadMoved.after_skip [Json.Dialect] {tokens again : TokenRest}
    {read read_again : Json × TokenRest} (moved : TokensMoved base tokens again)
    (no_string : nextKind tokens ≠ .string)
    (inner : ReadMoved base (tokens.drop 1) (again.drop 1) read read_again) :
    ReadMoved base tokens again read read_again where
  passed := .after_skip moved no_string inner.passed
  same := fun same => inner.same ((Passed.skip moved no_string).kept same)
  key := inner.key

theorem rel_after_skip [Json.Dialect] {tokens again : TokenRest}
    {found found_again : Option (Json × TokenRest)} (moved : TokensMoved base tokens again)
    (no_string : nextKind tokens ≠ .string)
    (inner : Option.Rel (ReadMoved base (tokens.drop 1) (again.drop 1)) found found_again) :
    Option.Rel (ReadMoved base tokens again) found found_again := by
  cases inner with
  | none => exact .none
  | some inner => exact .some (inner.after_skip moved no_string)

-- Both sides see the same kinds of tokens, so they always take the same branch.
theorem readValue_step [Json.Dialect] (positive : 0 < base) (depth : Nat)
    (inner : ∀ less, depth = less + 1 → ReaderMoved base (readValue less)) :
    ReaderMoved base (readValue depth) := by
  intro tokens again moved
  have rest := drop_moved 1 moved
  have steps := moved.length_eq
  unfold readValue
  rw [nextKind_moved moved]
  cases kind : nextKind tokens
  case string =>
    obtain ⟨passed, same⟩ := readStrings_moved positive moved
    exact .some ⟨passed, fun unchanged => congrArg Json.str (same unchanged), rfl⟩
  case number => exact readNumber_moved false moved
  case minus => exact rel_after_skip moved (by simp [kind]) (readNumber_moved true rest)
  case plus => exact rel_after_skip moved (by simp [kind]) (readNumber_moved false rest)
  case identifier =>
    have no_string : nextKind tokens ≠ .string := by simp [kind]
    dsimp only
    rw [nextText_moved moved no_string]
    cases found : nameValue (nextText tokens) with
    | none => exact .none
    | some value => exact .some (scalar_moved moved no_string value (nameValue_scalar _ _ found))
  case leftBracket =>
    cases depth with
    | zero => exact .none
    | succ less =>
        have items := readItems_moved (inner less rfl) .rightBracket (by decide) tokens.length
          _ _ rest
        dsimp only
        rw [← steps]
        apply rel_after_skip moved (by simp [kind])
        apply rel_map _ items
        intro found found_again alike
        exact ⟨alike.passed, fun same => congrArg Json.arr (alike.same same), rfl⟩
  case leftParen =>
    cases depth with
    | zero => exact .none
    | succ less =>
        have items := readItems_moved (inner less rfl) .rightParen (by decide) tokens.length
          _ _ rest
        dsimp only
        rw [← steps]
        apply rel_after_skip moved (by simp [kind])
        exact rel_map (fun _ _ alike => tupleValue_moved alike) items
  case leftBrace =>
    cases depth with
    | zero => exact .none
    | succ less =>
        have members := readEntries_moved (inner less rfl) tokens.length _ _ rest
        dsimp only
        rw [← steps]
        apply rel_after_skip moved (by simp [kind])
        apply rel_map _ members
        intro found found_again alike
        obtain ⟨fewer, kept⟩ := Json.object_members found.1
        obtain ⟨fewer_again, kept_again⟩ := Json.object_members found_again.1
        refine ⟨alike.passed.lose fewer (fun full => kept full base) fewer_again
          (fun full => kept_again full base), ?_, rfl⟩
        exact fun same => congrArg Json.object (alike.same same)
  all_goals exact .none

theorem readValue_moved [Json.Dialect] (positive : 0 < base) (depth : Nat) :
    ReaderMoved base (readValue depth) := by
  induction depth with
  | zero => exact readValue_step positive 0 fun less more => by cases more
  | succ depth ih =>
      apply readValue_step positive
      intro less same
      cases same
      exact ih

structure ValueMoved (own other : List Word) (value again : Json) : Prop where
  same : other = own → again = value
  -- The same value comes of the same words, if no dictionary has lost an entry.
  words : value.memberCount = own.countP (·.1 == .colon) → again = value → other = own

theorem colons_moved {tokens again : TokenRest} (moved : TokensMoved base tokens again) :
    colons again = colons tokens := by
  induction moved with
  | nil => rfl
  | @cons token token_again tokens again first _ ih =>
      have same_kind : token_again.kind = token.kind := first.kind
      unfold colons at ih ⊢
      rw [List.countP_cons, List.countP_cons, same_kind, ih]

-- The tokens end at the only token of that kind.
theorem finished_rest {tokens rest : TokenRest} {last : Token}
    (inside : ∀ token ∈ tokens, token.kind ≠ .finish) (suffix : rest <:+ tokens ++ [last])
    (finished : nextKind rest = .finish) : rest = [] ∨ rest = [last] := by
  rcases List.suffix_concat_iff.mp suffix with none_left | ⟨before, rfl, own⟩
  · exact .inl none_left
  · cases before with
    | nil => exact .inr rfl
    | cons token before => exact absurd finished (inside token (own.subset List.mem_cons_self))

theorem literalOfTokens_moved [Json.Dialect] (positive : 0 < base) (tokens again : List Token)
    (last last_again : Token) (moved : TokensMoved base tokens again)
    (inside : ∀ token ∈ tokens, token.kind ≠ .finish) (ends : last.word = (.finish, []))
    (ends_again : last_again.word = (.finish, [])) :
    Option.Rel (ValueMoved (tokens.map Token.word) (again.map Token.word))
      (literalOfTokens (tokens ++ [last])) (literalOfTokens (again ++ [last_again])) := by
  have last_same : last_again.word = last.word := ends_again.trans ends.symm
  have all_moved : TokensMoved base (tokens ++ [last]) (again ++ [last_again]) :=
    List.rel_append moved (.cons (.inl last_same) .nil)
  have all_same : SameWords (tokens ++ [last]) (again ++ [last_again]) ↔ SameWords tokens again := by
    unfold SameWords
    rw [List.map_append, List.map_append, List.map_singleton, List.map_singleton, last_same]
    exact List.append_left_inj _
  have value := readValue_moved positive maxNesting _ _ all_moved
  unfold literalOfTokens
  generalize readValue maxNesting (tokens ++ [last]) = found at value
  generalize readValue maxNesting (again ++ [last_again]) = found_again at value
  cases value with
  | none => exact .none
  | @some read read_again value =>
      obtain ⟨read, rest⟩ := read
      obtain ⟨read_again, rest_again⟩ := read_again
      obtain ⟨passed, same, _⟩ := value
      dsimp only at passed same ⊢
      rw [nextKind_moved passed.moved]
      by_cases finished : nextKind rest = .finish
      · rw [if_pos finished, if_pos finished]
        have none_left : colons rest = 0 ∧ SameWords rest rest_again := by
          have rest_moved := passed.moved
          rcases finished_rest inside passed.suffix finished with rfl | rfl
          · cases rest_moved
            exact ⟨rfl, rfl⟩
          · cases rest_moved with
            | cons first others =>
                cases others
                have no_string : last.word.1 ≠ .string := by
                  rw [ends]
                  decide
                refine ⟨?_, congrArg (· :: []) (first.other no_string)⟩
                have kind : last.kind = .finish := congrArg Prod.fst ends
                simp [colons, kind]
        refine .some ⟨fun unchanged => same (all_same.mpr unchanged), fun full unchanged => ?_⟩
        subst unchanged
        have own : read_again.memberCount + colons rest = colons (tokens ++ [last]) := by
          have kind : last.kind = .finish := congrArg Prod.fst ends
          rw [full, none_left.1, List.countP_map]
          simp [colons, kind, Function.comp_def]
        have other : read_again.memberCount + colons rest_again =
            colons (again ++ [last_again]) := by
          rw [colons_moved passed.moved, own, colons_moved all_moved]
        exact all_same.mp ((passed.heavier own other).2 (Nat.le_refl _) none_left.2)
      · rw [if_neg finished, if_neg finished]
        exact .none

theorem lexemes_words (offset : Nat) (parts : List Piece) :
    (lexemesFrom offset parts).map Token.word = parts.filterMap Piece.word? := by
  induction parts generalizing offset with
  | nil => rfl
  | cons piece parts ih =>
      cases piece with
      | gap raw => exact ih _
      | lexeme kind text raw => exact congrArg _ (ih _)

theorem unterminated_iff (offset : Nat) (parts : List Piece) :
    unterminatedFrom offset parts = none ↔ (parts.all (!·.isInvalid)) = true := by
  induction parts generalizing offset with
  | nil => simp [unterminatedFrom]
  | cons piece parts ih =>
      unfold unterminatedFrom
      by_cases invalid : piece.isInvalid = true
      · simp [invalid]
      · simp [invalid, ih]

-- The scan of a text whose strings are closed.
theorem scan_closed (text : Bytes) (closed : stringsClosed text = true) :
    ∃ tokens last, scanTokens text = ⟨tokens ++ [last], none⟩ ∧ tokens.map Token.word = words text ∧
      last.word = (.finish, []) := by
  refine ⟨lexemesFrom 0 (pieces text), ⟨.finish, [], text.length⟩, ?_, lexemes_words 0 _, rfl⟩
  unfold scanTokens
  dsimp only
  rw [(unterminated_iff 0 (pieces text)).mpr closed]

-- The scan of a text with a string left open.
theorem scan_open (text : Bytes) (left : stringsClosed text = false) :
    ∃ tokens offset, scanTokens text = ⟨tokens, some offset⟩ ∧
      tokens.map Token.word = words text := by
  have some_open : unterminatedFrom 0 (pieces text) ≠ none := by
    intro none_open
    have closed : stringsClosed text = true := (unterminated_iff 0 _).mp none_open
    rw [left] at closed
    cases closed
  obtain ⟨offset, found⟩ := Option.ne_none_iff_exists'.mp some_open
  refine ⟨lexemesFrom 0 (pieces text), offset, ?_, lexemes_words 0 _⟩
  unfold scanTokens
  dsimp only
  rw [found]

theorem literal_closed [Json.Dialect] (text : Bytes) (value : Json)
    (found : literal? text = some value) : stringsClosed text = true := by
  cases closed : stringsClosed text with
  | true => rfl
  | false =>
      obtain ⟨_, offset, scan, _⟩ := scan_open text closed
      unfold literal? at found
      dsimp only at found
      rw [scan] at found
      cases found

-- The texts have the same words but for heavier strings, or an open string each.
structure TextMoved (base : Nat) (text again : Bytes) : Prop where
  closed : stringsClosed again = stringsClosed text
  words : stringsClosed text = true →
    List.Forall₂ (WordMoved base) (words text) (words again)

theorem tokens_moved {tokens again : TokenRest} {text other : Bytes}
    (own : tokens.map Token.word = words text) (own_again : again.map Token.word = words other)
    (moved : List.Forall₂ (WordMoved base) (words text) (words other)) :
    TokensMoved base tokens again := by
  rwa [← own, ← own_again, List.forall₂_map_left_iff, List.forall₂_map_right_iff] at moved

theorem literal_moved [Json.Dialect] (positive : 0 < base) (text again : Bytes)
    (moved : TextMoved base text again) :
    Option.Rel (ValueMoved (words text) (words again)) (literal? text) (literal? again) := by
  unfold literal?
  cases closed : stringsClosed text with
  | false =>
      obtain ⟨_, offset, scan, _⟩ := scan_open text closed
      obtain ⟨_, offset_again, scan_again, _⟩ := scan_open again (moved.closed.trans closed)
      dsimp only
      rw [scan, scan_again]
      exact .none
  | true =>
      obtain ⟨tokens, last, scan, own, ends⟩ := scan_closed text closed
      obtain ⟨tokens_again, last_again, scan_again, other, ends_again⟩ :=
        scan_closed again (moved.closed.trans closed)
      have inside : ∀ token ∈ tokens, token.kind ≠ .finish := by
        intro token member
        apply words_kind text token.word
        rw [← own]
        exact List.mem_map_of_mem member
      rw [scan, scan_again, ← own, ← other]
      exact literalOfTokens_moved positive tokens tokens_again last last_again
        (tokens_moved own other (moved.words closed)) inside ends ends_again

theorem depth_moved {tokens again : TokenRest} (moved : TokensMoved base tokens again)
    (depth : Int) :
    again.foldl (fun depth token => depth + depthChange token.kind) depth =
      tokens.foldl (fun depth token => depth + depthChange token.kind) depth := by
  induction moved generalizing depth with
  | nil => rfl
  | @cons token token_again _ _ first _ ih =>
      have same_kind : token_again.kind = token.kind := first.kind
      rw [List.foldl_cons, List.foldl_cons, same_kind]
      exact ih _

theorem openBracketDepth_moved (text again : Bytes) (moved : TextMoved base text again) :
    openBracketDepth again = openBracketDepth text := by
  unfold openBracketDepth
  cases closed : stringsClosed text with
  | false =>
      obtain ⟨_, offset, scan, _⟩ := scan_open text closed
      obtain ⟨_, offset_again, scan_again, _⟩ := scan_open again (moved.closed.trans closed)
      dsimp only
      rw [scan, scan_again]
  | true =>
      obtain ⟨tokens, last, scan, own, ends⟩ := scan_closed text closed
      obtain ⟨tokens_again, last_again, scan_again, other, ends_again⟩ :=
        scan_closed again (moved.closed.trans closed)
      have inner := tokens_moved own other (moved.words closed)
      have last_same : last_again.word = last.word := ends_again.trans ends.symm
      have all_moved : TokensMoved base (tokens ++ [last]) (tokens_again ++ [last_again]) :=
        List.rel_append inner (.cons (.inl last_same) .nil)
      rw [scan, scan_again]
      exact depth_moved all_moved 0

end Reading

end EndpointPreview.Notation
