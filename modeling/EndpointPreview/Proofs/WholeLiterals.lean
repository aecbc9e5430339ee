import EndpointPreview.Proofs.ReturnedLiterals
import EndpointPreview.Proofs.Tables
import EndpointPreview.Proofs.WholeTokens

/-!
Literals of a text in UTF-8 have a JSON text: their strings and keys are strings of the text, one
or several of them joined, or the plain texts of numbers and names.
-/

namespace EndpointPreview.Json

open Text Utf8

theorem areText_iff (items : List Json) :
    areText items = true ↔ ∀ item ∈ items, isText item = true := by
  induction items with
  | nil => simp [areText]
  | cons item rest ih => simp [areText, ih]

theorem membersAreText_iff (members : Members) :
    membersAreText members = true ↔
      ∀ entry ∈ members, isValid entry.1 = true ∧ isText entry.2 = true := by
  induction members with
  | nil => simp [membersAreText]
  | cons entry rest ih => simp [membersAreText, ih]

theorem isText_object (members : Members)
    (text : ∀ entry ∈ members, isValid entry.1 = true ∧ isText entry.2 = true) :
    isText (object members) = true := by
  refine (membersAreText_iff _).mpr fun entry member => ?_
  rcases Table.mem_setAll precedes_orders members [] entry member with assigned | none_there
  · exact text entry assigned
  · cases none_there

end EndpointPreview.Json

namespace EndpointPreview.Notation

open Text Utf8

theorem isValid_keyText [Json.Dialect] (value : Json) (name : Bytes)
    (key : keyText value = some name) (text : value.isText = true) : isValid name = true := by
  cases value with
  | null =>
      cases key
      rfl
  | bool value =>
      cases key
      cases value <;> rfl
  | int n =>
      cases key
      exact isValid_plain _ (.signedDecimal n)
  | float bits =>
      cases key
      exact isValid_plain _ (Json.floatText_bytes bits).plain
  | str content =>
      cases key
      exact text
  | arr | obj => cases key

-- What the reader makes of whole strings has a text, and what it leaves is whole.
def ReadsText (read : ValueReader) : Prop :=
  ∀ tokens value rest, WholeTokens tokens → read tokens = some (value, rest) →
    value.isText = true ∧ WholeTokens rest

theorem readItems_text {read : ValueReader} (reads : ReadsText read) (close : TokenKind)
    (steps : Nat) (tokens : TokenRest) (found : ItemList) (whole : WholeTokens tokens)
    (made : readItems read close steps tokens = some found) :
    (∀ item ∈ found.items, item.isText = true) ∧ WholeTokens found.rest := by
  induction steps generalizing tokens found with
  | zero => cases made
  | succ steps ih =>
      unfold readItems at made
      split at made
      · cases made
        exact ⟨fun _ member => absurd member List.not_mem_nil, whole.drop 1⟩
      · split at made
        · cases made
        · rename_i item rest first
          obtain ⟨text, rest_whole⟩ := reads tokens item rest whole first
          split at made
          · obtain ⟨more, later, rfl⟩ := Option.map_eq_some_iff.mp made
            obtain ⟨others, after⟩ := ih (rest.drop 1) more (rest_whole.drop 1) later
            exact ⟨List.forall_mem_cons.mpr ⟨text, others⟩, after⟩
          · split at made
            · cases made
              exact ⟨List.forall_mem_singleton.mpr text, rest_whole.drop 1⟩
            · cases made

theorem tupleValue_text (found : ItemList) (text : ∀ item ∈ found.items, item.isText = true) :
    (tupleValue found).isText = true := by
  unfold tupleValue
  split
  · rename_i item single _
    exact text item (single ▸ List.mem_singleton_self item)
  · exact (Json.areText_iff _).mpr text

theorem readEntry_text [Json.Dialect] {read : ValueReader} (reads : ReadsText read)
    (tokens : TokenRest) (entry : Bytes × Json) (rest : TokenRest) (whole : WholeTokens tokens)
    (made : readEntry read tokens = some (entry, rest)) :
    (isValid entry.1 = true ∧ entry.2.isText = true) ∧ WholeTokens rest := by
  unfold readEntry at made
  split at made
  · cases made
  · rename_i key after first
    obtain ⟨key_text, after_whole⟩ := reads tokens key after whole first
    split at made
    · split at made
      · rename_i value later name second named
        cases made
        obtain ⟨text, rest_whole⟩ := reads _ value rest (after_whole.drop 1) second
        exact ⟨⟨isValid_keyText key name named key_text, text⟩, rest_whole⟩
      · cases made
    · cases made

theorem readEntries_text [Json.Dialect] {read : ValueReader} (reads : ReadsText read) (steps : Nat)
    (tokens : TokenRest) (members : Json.Members) (rest : TokenRest) (whole : WholeTokens tokens)
    (made : readEntries read steps tokens = some (members, rest)) :
    (∀ entry ∈ members, isValid entry.1 = true ∧ entry.2.isText = true) ∧ WholeTokens rest := by
  induction steps generalizing tokens members rest with
  | zero => cases made
  | succ steps ih =>
      unfold readEntries at made
      split at made
      · cases made
        exact ⟨fun _ member => absurd member List.not_mem_nil, whole.drop 1⟩
      · split at made
        · cases made
        · rename_i entry after first
          obtain ⟨text, after_whole⟩ := readEntry_text reads tokens entry after whole first
          split at made
          · obtain ⟨⟨more, last⟩, later, same⟩ := Option.map_eq_some_iff.mp made
            cases same
            obtain ⟨others, last_whole⟩ := ih (after.drop 1) more rest (after_whole.drop 1) later
            exact ⟨List.forall_mem_cons.mpr ⟨text, others⟩, last_whole⟩
          · split at made
            · cases made
              exact ⟨List.forall_mem_singleton.mpr text, after_whole.drop 1⟩
            · cases made

theorem readStrings_whole (tokens : TokenRest) (whole : WholeTokens tokens) :
    isValid (readStrings tokens).1 = true ∧ WholeTokens (readStrings tokens).2 := by
  induction tokens with
  | nil => exact ⟨rfl, whole⟩
  | cons token rest ih =>
      unfold readStrings
      split
      · rename_i string
        obtain ⟨joined, after⟩ := ih (whole.drop 1)
        exact ⟨isValid_append _ _ (whole token List.mem_cons_self string) joined, after⟩
      · exact ⟨rfl, whole⟩

theorem numberValue_text (negative : Bool) (written : Bytes) (value : Json)
    (found : numberValue negative written = some value) : value.isText = true := by
  unfold numberValue at found
  dsimp only at found
  split_ifs at found
  all_goals
    obtain ⟨number, _, rfl⟩ := Option.map_eq_some_iff.mp found
    rfl

theorem nameValue_text (name : Bytes) (value : Json) (found : nameValue name = some value) :
    value.isText = true := by
  unfold nameValue at found
  split_ifs at found
  all_goals
    cases found
    rfl

theorem readNumber_text (negative : Bool) : ReadsText (readNumber negative) := by
  intro tokens value rest whole made
  unfold readNumber at made
  split at made
  · obtain ⟨number, found, same⟩ := Option.map_eq_some_iff.mp made
    cases same
    exact ⟨numberValue_text negative _ value found, whole.drop 1⟩
  · cases made

theorem readValue_text [Json.Dialect] (depth : Nat) : ReadsText (readValue depth) := by
  induction depth using Nat.strong_induction_on with
  | _ depth ih =>
      intro tokens value rest whole made
      unfold readValue at made
      split at made
      · cases made
        exact readStrings_whole tokens whole
      · exact readNumber_text false tokens value rest whole made
      · exact readNumber_text true _ value rest (whole.drop 1) made
      · exact readNumber_text false _ value rest (whole.drop 1) made
      · obtain ⟨named, found, same⟩ := Option.map_eq_some_iff.mp made
        cases same
        exact ⟨nameValue_text _ value found, whole.drop 1⟩
      · split at made
        · cases made
        · rename_i inner
          obtain ⟨found, items, same⟩ := Option.map_eq_some_iff.mp made
          cases same
          obtain ⟨text, after⟩ :=
            readItems_text (ih inner inner.lt_succ_self) _ _ _ found (whole.drop 1) items
          exact ⟨(Json.areText_iff _).mpr text, after⟩
      · split at made
        · cases made
        · rename_i inner
          obtain ⟨found, items, same⟩ := Option.map_eq_some_iff.mp made
          cases same
          obtain ⟨text, after⟩ :=
            readItems_text (ih inner inner.lt_succ_self) _ _ _ found (whole.drop 1) items
          exact ⟨tupleValue_text found text, after⟩
      · split at made
        · cases made
        · rename_i inner
          obtain ⟨⟨members, last⟩, entries, same⟩ := Option.map_eq_some_iff.mp made
          cases same
          obtain ⟨text, after⟩ :=
            readEntries_text (ih inner inner.lt_succ_self) _ _ members _ (whole.drop 1) entries
          exact ⟨Json.isText_object members text, after⟩
      · cases made

theorem literal_text [Json.Dialect] (text : Bytes) (ends : EndsWhole text) (value : Json)
    (found : literal? text = some value) : value.isText = true := by
  unfold literal? at found
  dsimp only at found
  split at found
  · cases found
  · unfold literalOfTokens at found
    split at found
    · rename_i made rest read
      split at found
      · cases found
        exact (readValue_text maxNesting _ value rest (scanTokens_whole text ends) read).1
      · cases found
    · cases found

theorem unwrapJsonify_whole (expression : Bytes) (ends : EndsWhole expression) :
    EndsWhole (unwrapJsonify expression) := by
  unfold unwrapJsonify
  split
  · rename_i call
    have back := ends.suffix (List.drop_suffix jsonifyCall.length expression)
    generalize argued : expression.drop jsonifyCall.length = argument at back
    cases argument using List.reverseRecOn with
    | nil => exact back
    | append_singleton argument last =>
        have closes : last = byte ')' := by
          have final := congrArg List.getLast? argued
          rw [Bool.and_eq_true, beq_iff_eq] at call
          rw [List.getLast?_drop, List.getLast?_concat, call.2] at final
          split at final
          · cases final
          · exact (Option.some.inj final).symm
        rw [List.dropLast_concat]
        refine back.plain_end ?_
        rw [closes]
        decide
  · exact ends

theorem joinUntilBalanced_whole (expression : Bytes) (rows : List Bytes)
    (ends : EndsWhole expression) (valid : ∀ row ∈ rows, isValid row = true) :
    EndsWhole (joinUntilBalanced expression rows) := by
  induction rows generalizing expression with
  | nil => exact ends
  | cons row later ih =>
      obtain ⟨own, all⟩ := List.forall_mem_cons.mp valid
      unfold joinUntilBalanced
      split
      · exact ends
      · refine ih _ (ends.append ?_) all
        exact isValid_append [newline] row (by decide) own

theorem returned_whole (statement : Bytes) (ends : EndsWhole statement) :
    EndsWhole (returned statement) := (ends.suffix (List.drop_suffix _ _)).trim

theorem returnedTextAt_whole (base : Nat) (rows : List Bytes)
    (valid : ∀ row ∈ rows, isValid row = true) (text : Bytes)
    (found : returnedTextAt? base rows = some text) : EndsWhole text := by
  induction rows with
  | nil => cases found
  | cons row later ih =>
      obtain ⟨own, all⟩ := List.forall_mem_cons.mp valid
      unfold returnedTextAt? at found
      split at found
      · cases found
        apply unwrapJsonify_whole
        apply EndsWhole.trim
        exact joinUntilBalanced_whole _ later (returned_whole _ (EndsWhole.of_valid own).trim) all
      · exact ih all found

structure Endpoint.Whole (endpoint : Endpoint) : Prop where
  route : isValid endpoint.route = true
  body : isValid endpoint.body = true
  inlineBody : EndsWhole endpoint.inlineBody

theorem returnLiteral_isText [Json.Dialect] (endpoint : Endpoint) (count : 0 ≤ endpoint.headerLines)
    (whole : endpoint.Whole) (value : Json) (found : endpoint.returnLiteral? = some value) :
    value.isText = true := by
  rw [returnLiteral_text endpoint count] at found
  obtain ⟨text, returns, literal⟩ := Option.bind_eq_some_iff.mp found
  refine literal_text text ?_ value literal
  unfold Endpoint.returnedText? at returns
  split at returns
  · cases returns
    exact unwrapJsonify_whole _ (returned_whole _ whole.inlineBody)
  · obtain ⟨base, _, below⟩ := Option.bind_eq_some_iff.mp returns
    refine returnedTextAt_whole base _ ?_ text below
    intro row member
    apply isValid_lines endpoint.body whole.body
    unfold Endpoint.innerLines linesAfter at member
    split at member
    · cases member
    · exact List.mem_of_mem_drop member

end EndpointPreview.Notation
