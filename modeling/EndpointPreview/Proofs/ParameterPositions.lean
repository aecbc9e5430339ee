import EndpointPreview.Proofs.ParameterTexts
import EndpointPreview.Proofs.Pieces
import EndpointPreview.Proofs.Positions

/-!
Parameter lists read by positions. Three loops go over the bytes of a text and count its
brackets: one looks for the end of the list, one cuts it at its commas, one looks for the
`=` of a default. Inside quotes a backslash makes them step over two bytes at once, where
the state of the other reading remembers the backslash for one byte.
-/

namespace EndpointPreview.ByPosition

open Text Notation

def escapes (state : Nesting) (b : UInt8) : Bool := state.quote.isSome && b == backslash

def closeFrom (text : Bytes) (position : Nat) (state : Nesting) : Checked (Option Nat) :=
  if position < text.length then do
    let b ← itemAt text position
    if escapes state b then closeFrom text (position + 2) state
    else if (state.step b).depth == 0 && isClosing b && state.quote.isNone then
      return some (position + 1)
    else closeFrom text (position + 1) (state.step b)
  else return none
termination_by text.length - position

/-- The parts between top-level commas; `current` is what was read of the first one. -/
def partsFrom (text : Bytes) (position : Nat) (state : Nesting) (current : Bytes) :
    Checked (List Bytes) :=
  if position < text.length then do
    let b ← itemAt text position
    if escapes state b && position + 1 < text.length then do
      let escaped ← itemAt text (position + 1)
      partsFrom text (position + 2) state (current ++ [b, escaped])
    else if b == byte ',' && state.atTop then do
      let later ← partsFrom text (position + 1) state []
      return current :: later
    else partsFrom text (position + 1) (state.step b) (current ++ [b])
  else return [current]
termination_by text.length - position

def afterComparison (text : Bytes) (position : Nat) : Checked Bool := do
  if 0 < position then return isComparison (← itemAt text (← minus position 1))
  else return false

def comparesAt (text : Bytes) (position : Nat) : Checked Bool := do
  if position + 1 < text.length then
    if (← itemAt text (position + 1)) == byte '=' then return true
    else afterComparison text position
  else afterComparison text position

def assignFrom (text : Bytes) (position : Nat) (state : Nesting) : Checked (Option Nat) :=
  if position < text.length then do
    let b ← itemAt text position
    if escapes state b then assignFrom text (position + 2) state
    else if b == byte '=' && state.atTop then do
      if ← comparesAt text position then assignFrom text (position + 1) (state.step b)
      else return some position
    else assignFrom text (position + 1) (state.step b)
  else return none
termination_by text.length - position

theorem step_escape (state : Nesting) (unescaped : state.escaped = false) (b next : UInt8)
    (escape : escapes state b = true) : (state.step b).step next = state := by
  obtain ⟨depth, quote, escaped⟩ := state
  simp only [escapes, Bool.and_eq_true, beq_iff_eq] at escape unescaped
  obtain ⟨quoted, rfl⟩ := escape
  obtain ⟨quote, rfl⟩ := Option.isSome_iff_exists.mp quoted
  subst unescaped
  rfl

theorem step_unescaped (state : Nesting) (unescaped : state.escaped = false) (b : UInt8)
    (plain : ¬ escapes state b = true) : (state.step b).escaped = false := by
  obtain ⟨depth, quote, escaped⟩ := state
  subst unescaped
  unfold Nesting.step
  cases quote with
  | none =>
      dsimp only
      split_ifs <;> rfl
  | some quote =>
      have other : ¬ (b == backslash) = true := by simpa [escapes] using plain
      dsimp only
      rw [if_neg (by simp), if_neg other]
      split_ifs <;> rfl

-- The steps of a loop over a text: a byte at a time, and two where the first escapes.
inductive Steps : Nesting → Bytes → Prop where
  | done (state : Nesting) : Steps state []
  | last (state : Nesting) (b : UInt8) (escape : escapes state b = true) : Steps state [b]
  | escaped (state : Nesting) (b next : UInt8) (rest : Bytes) (escape : escapes state b = true)
      (back : (state.step b).step next = state) (later : Steps state rest) :
      Steps state (b :: next :: rest)
  | byte (state : Nesting) (b : UInt8) (rest : Bytes) (plain : ¬ escapes state b = true)
      (later : Steps (state.step b) rest) : Steps state (b :: rest)

theorem steps (state : Nesting) (unescaped : state.escaped = false) (text : Bytes) :
    Steps state text := by
  induction measure : text.length using Nat.strong_induction_on generalizing state text with
  | _ size ih =>
      subst measure
      cases text with
      | nil => exact .done state
      | cons b rest =>
          by_cases escape : escapes state b = true
          · cases rest with
            | nil => exact .last state b escape
            | cons next rest =>
                have fewer : rest.length < (b :: next :: rest).length := by
                  rw [List.length_cons, List.length_cons]
                  omega
                exact .escaped state b next rest escape (step_escape state unescaped b next escape)
                  (ih _ fewer state unescaped rest rfl)
          · have fewer : rest.length < (b :: rest).length := by simp
            exact .byte state b rest escape
              (ih _ fewer _ (step_unescaped state unescaped b escape) rest rfl)

/-- Inside quotes nothing is at the top level. -/
theorem escapes_quoted {state : Nesting} {b : UInt8} (escape : escapes state b = true) :
    state.quote.isNone = false ∧ state.atTop = false ∧ (state.step b).quote.isNone = false := by
  obtain ⟨depth, quote, escaped⟩ := state
  simp only [escapes, Bool.and_eq_true, beq_iff_eq] at escape
  obtain ⟨quoted, rfl⟩ := escape
  obtain ⟨quote, rfl⟩ := Option.isSome_iff_exists.mp quoted
  refine ⟨rfl, Bool.and_false _, ?_⟩
  cases escaped <;> rfl

theorem map_next (found : Option Nat) (position : Nat) :
    found.map (position + 1 + ·) = (found.map (· + 1)).map (position + ·) := by
  rw [Option.map_map]
  congr 1
  funext length
  simp only [Function.comp_apply]
  omega

theorem closeFrom_eq {text rest : Bytes} {position : Nat} {state : Nesting}
    (steps : Steps state rest) (stands : text.drop position = rest) :
    closeFrom text position state = .ok ((closedLength? state rest).map (position + ·)) := by
  induction steps generalizing position with
  | done state =>
      rw [closeFrom, if_neg (Nat.not_lt.mpr (List.drop_eq_nil_iff.mp stands))]
      rfl
  | last state b escape =>
      have ended : text.length ≤ position + 1 := List.drop_eq_nil_iff.mp (drop_next stands)
      rw [closeFrom, if_pos (lt_length stands), itemAt_eq stands, ok_bind, if_pos escape, closeFrom,
        if_neg (by omega)]
      simp [closedLength?, escapes_quoted escape]
  | escaped state b next rest escape back later ih =>
      obtain ⟨unquoted, _, still⟩ := escapes_quoted escape
      rw [closeFrom, if_pos (lt_length stands), itemAt_eq stands, ok_bind, if_pos escape,
        ih (drop_next (drop_next stands)), map_next, map_next]
      simp only [closedLength?, unquoted, still, back, Bool.and_false, Bool.false_eq_true,
        ↓reduceIte]
  | byte state b rest plain later ih =>
      rw [closeFrom, if_pos (lt_length stands), itemAt_eq stands, ok_bind, if_neg plain,
        ih (drop_next stands), closedLength?, map_next]
      split <;> rfl

def continued (current : Bytes) : List Bytes → List Bytes
  | [] => [current]
  | part :: later => (current ++ part) :: later

theorem splitTopFrom_cons (state : Nesting) (b : UInt8) (rest : Bytes) :
    splitTopFrom state (b :: rest) =
      if b == byte ',' && state.atTop then [] :: splitTopFrom state rest
      else continued [b] (splitTopFrom (state.step b) rest) := by
  rw [splitTopFrom]
  split
  · rfl
  · cases splitTopFrom (state.step b) rest <;> rfl

theorem continued_continued (current more : Bytes) (parts : List Bytes) :
    continued current (continued more parts) = continued (current ++ more) parts := by
  cases parts with
  | nil => rfl
  | cons part later => simp [continued]

theorem continued_nil (state : Nesting) (text : Bytes) :
    continued [] (splitTopFrom state text) = splitTopFrom state text := by
  cases text with
  | nil => rfl
  | cons b rest =>
      rw [splitTopFrom_cons]
      split
      · rfl
      · rw [continued_continued, List.nil_append]

theorem step_comma (state : Nesting) (b : UInt8) (comma : (b == byte ',' && state.atTop) = true) :
    state.step b = state := by
  obtain ⟨depth, quote, escaped⟩ := state
  simp only [Nesting.atTop, Bool.and_eq_true, beq_iff_eq, Option.isNone_iff_eq_none] at comma
  obtain ⟨rfl, -, rfl⟩ := comma
  rfl

theorem partsFrom_eq {text rest : Bytes} {position : Nat} {state : Nesting} (current : Bytes)
    (steps : Steps state rest) (stands : text.drop position = rest) :
    partsFrom text position state current = .ok (continued current (splitTopFrom state rest)) := by
  induction steps generalizing position current with
  | done state =>
      rw [partsFrom, if_neg (Nat.not_lt.mpr (List.drop_eq_nil_iff.mp stands))]
      simp [splitTopFrom, continued]
  | last state b escape =>
      obtain ⟨_, inside, _⟩ := escapes_quoted escape
      have ended : text.length ≤ position + 1 := List.drop_eq_nil_iff.mp (drop_next stands)
      rw [partsFrom, if_pos (lt_length stands), itemAt_eq stands, ok_bind, splitTopFrom_cons, inside,
        if_neg (by simp [ended]), if_neg (by simp), if_neg (by simp), partsFrom,
        if_neg (Nat.not_lt.mpr ended)]
      simp [splitTopFrom, continued]
  | escaped state b next rest escape back later ih =>
      obtain ⟨_, inside, still⟩ := escapes_quoted escape
      have still_inside : (state.step b).atTop = false := by simp [Nesting.atTop, still]
      have behind := drop_next stands
      rw [partsFrom, if_pos (lt_length stands), itemAt_eq stands, ok_bind,
        if_pos (by simp [escape, lt_length behind]), itemAt_eq behind, ok_bind,
        ih _ (drop_next behind), splitTopFrom_cons, inside, if_neg (by simp), splitTopFrom_cons,
        still_inside, back, if_neg (by simp), continued_continued, continued_continued,
        List.append_assoc]
      rfl
  | byte state b rest plain later ih =>
      have no_escape : ¬ (escapes state b && position + 1 < text.length) = true := by simp [plain]
      rw [partsFrom, if_pos (lt_length stands), itemAt_eq stands, ok_bind, if_neg no_escape,
        splitTopFrom_cons]
      by_cases comma : (b == byte ',' && state.atTop) = true
      · have same := step_comma state b comma
        rw [same] at ih
        rw [if_pos comma, if_pos comma, ih [] (drop_next stands), ok_bind, continued_nil]
        simp [continued]
      · rw [if_neg comma, if_neg comma, ih _ (drop_next stands), continued_continued]

theorem afterComparison_eq (passed rest : Bytes) :
    afterComparison (passed ++ rest) passed.length =
      .ok ((passed.getLast?.map isComparison).getD false) := by
  induction passed using List.reverseRecOn with
  | nil => rfl
  | append_singleton passed last _ =>
      have there : (passed ++ [last] ++ rest).drop passed.length = last :: rest := by
        rw [List.append_assoc, List.drop_left]
        rfl
      rw [afterComparison, List.length_append, List.length_singleton, if_pos (Nat.succ_pos _),
        minus_eq (Nat.le_add_left 1 _), ok_bind, Nat.add_sub_cancel, itemAt_eq there, ok_bind,
        List.getLast?_concat]
      rfl

theorem comparesAt_eq (passed rest : Bytes) (b : UInt8) :
    comparesAt (passed ++ b :: rest) passed.length =
      .ok (rest.head? == some (byte '=') || (passed.getLast?.map isComparison).getD false) := by
  have stands : (passed ++ b :: rest).drop passed.length = b :: rest := List.drop_left
  rw [comparesAt, afterComparison_eq]
  cases rest with
  | nil =>
      rw [if_neg (by simp)]
      rfl
  | cons next rest =>
      have behind := drop_next stands
      rw [if_pos (lt_length behind), itemAt_eq behind, ok_bind, List.head?_cons,
        Option.some_beq_some]
      cases next == byte '=' <;> rfl

theorem splitDefaultFrom_step {state : Nesting} {b : UInt8} (rest : Bytes)
    (previous : Option UInt8) (stays : (b == byte '=' && state.atTop) = false) :
    splitDefaultFrom state previous (b :: rest) =
      (splitDefaultFrom (state.step b) (some b) rest).map
        fun (before, after) => (b :: before, after) := by
  rw [splitDefaultFrom, stays]
  exact if_neg (by simp)

theorem map_cons (found : Option (Bytes × Bytes)) (position : Nat) (b : UInt8) :
    (found.map fun (before, after) => (b :: before, after)).map (position + ·.1.length) =
      found.map (position + 1 + ·.1.length) := by
  rw [Option.map_map]
  congr 1
  funext cut
  simp only [Function.comp_apply, List.length_cons]
  omega

theorem assignFrom_eq {rest : Bytes} {state : Nesting} (passed : Bytes)
    (steps : Steps state rest) :
    assignFrom (passed ++ rest) passed.length state =
      .ok ((splitDefaultFrom state passed.getLast? rest).map fun cut =>
        passed.length + cut.1.length) := by
  induction steps generalizing passed with
  | done state =>
      rw [assignFrom, if_neg (by simp)]
      rfl
  | last state b escape =>
      obtain ⟨_, inside, _⟩ := escapes_quoted escape
      have stands : (passed ++ [b]).drop passed.length = [b] := List.drop_left
      rw [assignFrom, if_pos (lt_length stands), itemAt_eq stands, ok_bind, if_pos escape, assignFrom,
        if_neg (by simp), splitDefaultFrom_step [] _ (by simp [inside])]
      rfl
  | escaped state b next rest escape back later ih =>
      obtain ⟨_, inside, still⟩ := escapes_quoted escape
      have still_inside : (state.step b).atTop = false := by simp [Nesting.atTop, still]
      have stands : (passed ++ b :: next :: rest).drop passed.length = b :: next :: rest :=
        List.drop_left
      have behind := ih (passed ++ [b, next])
      rw [List.append_assoc, List.length_append, List.getLast?_append] at behind
      rw [assignFrom, if_pos (lt_length stands), itemAt_eq stands, ok_bind, if_pos escape,
        splitDefaultFrom_step _ _ (by simp [inside]),
        splitDefaultFrom_step _ _ (by simp [still_inside]), back]
      rw [map_cons, map_cons]
      exact behind
  | byte state b rest plain later ih =>
      have stands : (passed ++ b :: rest).drop passed.length = b :: rest := List.drop_left
      have behind := ih (passed ++ [b])
      rw [List.append_assoc, List.singleton_append, List.length_append, List.length_singleton,
        List.getLast?_concat] at behind
      rw [assignFrom, if_pos (lt_length stands), itemAt_eq stands, ok_bind, if_neg plain,
        comparesAt_eq, ok_bind, behind]
      by_cases assigns : (b == byte '=' && state.atTop) = true
      · have condition (compared : Bool) :
            (b == byte '=' && state.atTop && rest.head? != some (byte '=') && !compared) =
              !(rest.head? == some (byte '=') || compared) := by
          rw [assigns, Bool.true_and, Bool.not_or]
          rfl
        rw [if_pos assigns, splitDefaultFrom, condition]
        split
        · rename_i compares
          rw [compares, if_neg (by simp), map_cons]
        · rename_i single
          rw [Bool.not_eq_true] at single
          rw [single]
          rfl
      · rw [if_neg assigns, splitDefaultFrom_step rest _ (by simpa using assigns), map_cons]

def findByte (mark : UInt8) (text : Bytes) : Option Nat := text.findIdx? (· == mark)

def splitTopLevel (text : Bytes) : Checked (List Bytes) := partsFrom text 0 .outside []

def declared (kind : ParameterKind) (default : Option Bytes) (declaration : Bytes) :
    Checked Parameter := do
  match findByte (byte ':') declaration with
  | none => return ⟨← trim declaration, kind, default, none⟩
  | some colon =>
      let name ← trim (← part declaration 0 colon)
      let typeText ← trim (← textFrom declaration (colon + 1))
      return ⟨name, kind, default, Parameter.nonEmpty typeText⟩

def ofPart (token : Bytes) : Checked Parameter := do
  match ← assignFrom token 0 .outside with
  | some assign =>
      let default ← trim (← textFrom token (assign + 1))
      declared .defaulted (some default) (← part token 0 assign)
  | none =>
      if ← opensWith (ascii "**") token then declared .variadicKeyword none (← textFrom token 2)
      else if ← firstIs (byte '*') token then
        declared .variadicPositional none (← textFrom token 1)
      else declared .required none token

def ofParts : List Bytes → Checked (List Parameter)
  | [] => return []
  | raw :: rest => do
      let token ← trim raw
      if token.isEmpty || Parameter.isSeparator token then ofParts rest
      else
        let parameter ← ofPart token
        return parameter :: (← ofParts rest)

def parameters (text : Bytes) : Checked (List Parameter) := do
  if (← trim text).isEmpty then return [] else ofParts (← splitTopLevel text)

theorem findByte_eq (mark : UInt8) (text : Bytes) :
    findByte mark text = (cutAt? mark text).map (·.1.length) := by
  induction text with
  | nil => rfl
  | cons b rest ih =>
      rw [findByte, List.findIdx?_cons, cutAt?]
      by_cases same : (b == mark) = true
      · have stops : ¬ (b != mark) = true := by simp [bne, same]
        rw [if_pos same, List.dropWhile_cons, List.takeWhile_cons, if_neg stops, if_neg stops]
        rfl
      · have goes_on : (b != mark) = true := by simp [bne, same]
        rw [if_neg same, List.dropWhile_cons, List.takeWhile_cons, if_pos goes_on, if_pos goes_on]
        change (findByte mark rest).map (· + 1) = _
        rw [ih, cutAt?]
        cases rest.dropWhile (· != mark) <;> rfl

theorem part_before (before after : Bytes) (mark : UInt8) :
    part (before ++ mark :: after) 0 before.length = .ok before := by
  rw [part_eq (Nat.zero_le _), List.drop_zero, List.take_left]

theorem textFrom_behind (before after : Bytes) (mark : UInt8) :
    textFrom (before ++ mark :: after) (before.length + 1) = .ok after := by
  rw [textFrom_eq (by simp), drop_next List.drop_left]

theorem declared_eq (kind : ParameterKind) (default : Option Bytes) (declaration : Bytes) :
    declared kind default declaration = .ok (Parameter.declared kind default declaration) := by
  rw [declared, findByte_eq, Parameter.declared]
  cases cut : cutAt? (byte ':') declaration with
  | none =>
      dsimp only [Option.map_none]
      rw [trim_eq]
      rfl
  | some sides =>
      obtain ⟨name, typeText⟩ := sides
      obtain rfl := cutAt_whole _ _ _ _ cut
      dsimp only [Option.map_some]
      rw [part_before, ok_bind, trim_eq, ok_bind, textFrom_behind, ok_bind, trim_eq]
      rfl

theorem ofPart_eq (token : Bytes) (solid : token ≠ []) :
    ofPart token = .ok (Parameter.ofPart token) := by
  have assigned := assignFrom_eq [] (steps .outside rfl token)
  rw [List.nil_append, List.length_nil, List.getLast?_nil] at assigned
  rw [ofPart, assigned, ok_bind, Parameter.ofPart, splitDefault?]
  cases cut : splitDefaultFrom .outside none token with
  | none =>
      have front (start : Bytes) (opens : startsWith start token = true) :
          start.length ≤ token.length := (List.isPrefixOf_iff_prefix.mp opens).length_le
      dsimp only [Option.map_none]
      rw [opensWith_eq, ok_bind, firstIs_eq _ solid]
      by_cases keyword : startsWith (ascii "**") token = true
      · have two : 2 ≤ token.length := front _ keyword
        rw [if_pos keyword, if_pos keyword, textFrom_eq two, ok_bind, declared_eq]
      · rw [if_neg keyword, if_neg keyword, ok_bind, show [byte '*'] = ascii "*" from rfl]
        by_cases positional : startsWith (ascii "*") token = true
        · have one : 1 ≤ token.length := front _ positional
          rw [if_pos positional, if_pos positional, textFrom_eq one, ok_bind, declared_eq]
        · rw [if_neg positional, if_neg positional, declared_eq]
  | some sides =>
      obtain ⟨declaration, default⟩ := sides
      obtain rfl := splitDefault_whole _ _ _ _ _ cut
      dsimp only [Option.map_some]
      rw [Nat.zero_add, textFrom_behind, ok_bind, trim_eq, ok_bind, part_before, ok_bind,
        declared_eq]

theorem ofParts_eq (parts : List Bytes) :
    ofParts parts = .ok (((parts.map Text.trim).filter fun part =>
      !part.isEmpty && !Parameter.isSeparator part).map Parameter.ofPart) := by
  induction parts with
  | nil => rfl
  | cons raw rest ih =>
      rw [ofParts, trim_eq, ok_bind, ih, List.map_cons, List.filter_cons, ← Bool.not_or]
      by_cases passed : ((Text.trim raw).isEmpty || Parameter.isSeparator (Text.trim raw)) = true
      · rw [if_pos passed, if_neg (by simp [passed])]
      · have solid : Text.trim raw ≠ [] := by
          intro empty
          exact passed (by rw [empty]; rfl)
        rw [if_neg passed, if_pos (by simpa using passed), ofPart_eq _ solid]
        rfl

-- White space alone has no commas.
theorem splitTopLevel_blank (text : Bytes) (blank : isBlank text = true) :
    Notation.splitTopLevel text = [text] := by
  unfold Notation.splitTopLevel
  induction text with
  | nil => rfl
  | cons space rest ih =>
      simp only [isBlank_cons, Bool.and_eq_true] at blank
      have passed : (space == byte ',') = false ∧ Nesting.outside.step space = .outside := by
        rcases space_cases space blank.1 with rfl | rfl | rfl | rfl | rfl | rfl <;> decide
      rw [splitTopFrom_cons, passed.1, passed.2, if_neg (by simp), ih blank.2]
      rfl

theorem splitTopLevel_eq (text : Bytes) :
    splitTopLevel text = .ok (Notation.splitTopLevel text) := by
  rw [splitTopLevel, partsFrom_eq [] (steps .outside rfl text) (List.drop_zero), continued_nil]
  rfl

theorem parameters_eq (text : Bytes) : parameters text = .ok (Parameter.parse text) := by
  rw [parameters, trim_eq, ok_bind, splitTopLevel_eq, ok_bind, ofParts_eq, Parameter.parse]
  split
  · rename_i empty
    have blank := (trim_eq_nil_iff text).mp (List.isEmpty_iff.mp empty)
    rw [splitTopLevel_blank text blank, List.map_singleton, List.isEmpty_iff.mp empty]
    rfl
  · rfl

end EndpointPreview.ByPosition
