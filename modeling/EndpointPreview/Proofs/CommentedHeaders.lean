import EndpointPreview.Proofs.ClosedTexts
import EndpointPreview.Proofs.ParameterTexts

/-!
Comments in the rows of a header. The text of a parameter list is read as it stands, so a comment
behind one of its rows is read as a part of the list. If it closes the brackets and strings that it
opens, the list ends where it did, and the comment is found in its text; behind the row that closes
the list it is no part of the list, and lengthens the body behind the colon at most.
-/

namespace EndpointPreview.Notation

open Text

def IsComment (text : Bytes) : Prop := (trim text).head? = some (byte '#')

instance (text : Bytes) : Decidable (IsComment text) :=
  inferInstanceAs (Decidable ((trim text).head? = some (byte '#')))

theorem IsComment.solid {text : Bytes} (comment : IsComment text) : isBlank text = false := by
  rw [← Bool.not_eq_true, ← trim_eq_nil_iff]
  intro empty
  rw [IsComment, empty] at comment
  cases comment

def SameInside (text other : Bytes) : Prop :=
  ∃ lead trail, isBlank lead = true ∧ isBlank trail = true ∧ text ++ trail = lead ++ other

theorem SameInside.refl (text : Bytes) : SameInside text text := ⟨[], [], rfl, rfl, by simp⟩

theorem SameInside.isComment {text other : Bytes} (same : SameInside text other)
    (comment : IsComment other) : IsComment text := by
  obtain ⟨lead, trail, before, after, whole⟩ := same
  rw [IsComment, ← trim_trail text trail after, whole, trim_lead lead other before]
  exact comment

theorem SameInside.apart {text other : Bytes} (same : SameInside text other) {b : UInt8}
    (plain : b ∉ other) (solid : isSpace b = false) : b ∉ text := by
  obtain ⟨lead, trail, before, after, whole⟩ := same
  intro member
  have inside : b ∈ lead ++ other := whole ▸ List.mem_append_left trail member
  rcases List.mem_append.mp inside with space | own
  · rw [(isBlank_iff lead).mp before b space] at solid
    cases solid
  · exact plain own

/-- Behind a text that is not blank a comment stays, but for white space at its end. -/
theorem trim_commented (text comment : Bytes) (solid : isBlank text = false)
    (marked : IsComment comment) :
    ∃ tail, trim (text ++ comment) = trim text ++ tail ∧ SameInside tail comment := by
  obtain ⟨lead, trail, before, after, whole⟩ := trim_between text
  have front := (trimmed_ends (trim text) (trim_trim text)).1
  have some_front : ¬ ((trim text).dropWhile isSpace).isEmpty = true := by
    rw [front, List.isEmpty_iff, trim_eq_nil_iff, solid]
    exact Bool.false_ne_true
  have some_back : isBlank (trail ++ comment) = false := by simp [marked.solid]
  refine ⟨dropEndWhile isSpace (trail ++ comment), ?_, trail,
    (trail ++ comment).rtakeWhile isSpace, after, ?_, List.rdropWhile_append_rtakeWhile⟩
  · conv_lhs => rw [whole, List.append_assoc, List.append_assoc, trim_lead _ _ before]
    rw [trim, List.dropWhile_append, if_neg some_front, front, dropEnd_keeps _ _ some_back]
  · exact (isBlank_iff _).mpr fun b member => List.mem_rtakeWhile_imp member

theorem indentFrom_solid (column : Nat) (text more : Bytes) (solid : isBlank text = false) :
    indentFrom column (text ++ more) = indentFrom column text := by
  induction text generalizing column with
  | nil => cases solid
  | cons b rest ih =>
      have later (space : isSpace b = true) : isBlank rest = false := by
        simpa [space] using solid
      rw [List.cons_append, indentFrom, indentFrom]
      split
      · rename_i space
        exact ih _ (later (by rw [beq_iff_eq.mp space]; rfl))
      · split
        · rename_i tab
          exact ih _ (later (by rw [beq_iff_eq.mp tab]; rfl))
        · rfl

-- A run of bytes that ends inside a text ends there whatever is appended.
theorem run_inside (inClass : UInt8 → Bool) (text more : Bytes)
    (ends : text.dropWhile inClass ≠ []) :
    (text ++ more).takeWhile inClass = text.takeWhile inClass ∧
      (text ++ more).dropWhile inClass = text.dropWhile inClass ++ more := by
  have stops : ¬ (text.dropWhile inClass).isEmpty = true := by simpa using ends
  refine ⟨?_, by rw [List.dropWhile_append, if_neg stops]⟩
  have parts := congrArg List.length (List.takeWhile_append_dropWhile (p := inClass) (l := text))
  have behind := List.length_pos_iff.mpr ends
  rw [List.length_append] at parts
  rw [List.takeWhile_append, if_neg (by omega)]

theorem openDefinition_append (stripped name opened more : Bytes)
    (opens : openDefinition? stripped = some (name, opened)) :
    openDefinition? (stripped ++ more) = some (name, opened ++ more) := by
  have kept (inClass : UInt8 → Bool) (text : Bytes) (left : text.dropWhile inClass ≠ []) :
      text ≠ [] := by
    rintro rfl
    exact left rfl
  unfold openDefinition? at opens ⊢
  dsimp only at opens ⊢
  split at opens
  · rename_i shape
    cases opens
    have word := shape
    simp only [Bool.and_eq_true] at word
    obtain ⟨rest, rfl⟩ := List.isPrefixOf_iff_prefix.mp word.1.1.1
    change _ = some (((rest.dropWhile isSpace).takeWhile isWordByte), _)
    have opened : ((rest.dropWhile isSpace).dropWhile isWordByte).dropWhile isSpace ≠ [] := by
      intro nothing
      have bracket := word.2
      change ((((rest.dropWhile isSpace).dropWhile isWordByte).dropWhile isSpace).head? == _) = true
        at bracket
      rw [nothing] at bracket
      cases bracket
    have named := kept _ _ opened
    have written := kept _ _ named
    have drop (text : Bytes) : (ascii "def" ++ text).drop 3 = text := rfl
    have head : (rest ++ more).head? = rest.head? :=
      List.head?_append_of_ne_nil _ (kept _ _ written)
    rw [List.append_assoc, drop, (run_inside _ _ more written).2, (run_inside _ _ more named).1,
      (run_inside _ _ more named).2, (run_inside _ _ more opened).2, head,
      List.head?_append_of_ne_nil _ opened]
    exact if_pos shape
  · cases opens

structure KeepsLevel (text : Bytes) : Prop where
  level : ∀ depth, 0 < depth → text.foldl Nesting.step (.level depth) = .level depth
  stays : ∀ depth, 0 < depth → closedLength? (.level depth) text = none

theorem ClosedText.keepsLevel {text : Bytes} (closed : ClosedText (fun _ => True) text) :
    KeepsLevel text :=
  ⟨fun depth _ => closed.passes depth, closed.stays⟩

theorem quoted_level (depth : Int) : (Nesting.level depth).Quoted := nofun

-- White space closes no string, so a list that is outside strings behind it was so before it.
theorem level_before_space (state : Nesting) (b : UInt8) (depth : Int) (quoted : state.Quoted)
    (space : isSpace b = true) (behind : state.step b = .level depth) : state = .level depth := by
  obtain ⟨own_depth, quote, escaped⟩ := state
  cases quote with
  | none =>
      have same : Nesting.step ⟨own_depth, none, escaped⟩ b = ⟨own_depth, none, escaped⟩ := by
        rcases space_cases b space with rfl | rfl | rfl | rfl | rfl | rfl <;> rfl
      exact same.symm.trans behind
  | some quote =>
      exfalso
      revert behind
      rcases quoted quote rfl with rfl | rfl <;> cases escaped <;>
        rcases space_cases b space with rfl | rfl | rfl | rfl | rfl | rfl <;> exact nofun

theorem level_before_blank (state : Nesting) (gap : Bytes) (depth : Int) (quoted : state.Quoted)
    (blank : isBlank gap = true) (behind : gap.foldl Nesting.step state = .level depth) :
    state = .level depth := by
  induction gap generalizing state with
  | nil => exact behind
  | cons b gap ih =>
      rw [isBlank_cons, Bool.and_eq_true] at blank
      exact level_before_space state b depth quoted blank.1
        (ih _ (quoted_step state b quoted) blank.2 behind)

theorem SameInside.keepsLevel {text comment : Bytes} (same : SameInside text comment)
    (closed : ClosedText (fun _ => True) comment) : KeepsLevel text := by
  obtain ⟨lead, trail, before, after, whole⟩ := same
  have padded : ClosedText (fun _ => True) (text ++ trail) := by
    rw [whole]
    exact (ClosedText.blank before fun _ _ => trivial).append closed
  constructor
  · intro depth positive
    refine level_before_blank _ trail depth (quoted_foldl text _ (quoted_level depth)) after ?_
    rw [← List.foldl_append, padded.passes]
  · intro depth positive
    have stays := padded.stays depth positive
    rw [closedLength_append, Option.or_eq_none_iff] at stays
    exact stays.1

def textBelow (rows : List Bytes) : Bytes := rows.flatMap (newline :: ·)

theorem textBelow_append (rows more : List Bytes) :
    textBelow (rows ++ more) = textBelow rows ++ textBelow more := List.flatMap_append

theorem closeList_none (text : Bytes) (extraLines : Nat) (later : List Bytes) :
    closeList? text extraLines later = none ↔
      closedLength? .outside (text ++ textBelow later) = none := by
  induction later generalizing text extraLines with
  | nil => simp [closeList?, textBelow]
  | cons row later ih =>
      have whole : text ++ textBelow (row :: later) = text ++ newline :: row ++ textBelow later := by
        simp [textBelow]
      cases here : closedLength? .outside text with
      | some length =>
          have closed : closedLength? .outside (text ++ textBelow (row :: later)) = some length := by
            rw [closedLength_append, here]
            rfl
          rw [closed, closeList?, here]
          simp
      | none => rw [closeList?, here, whole, ih]

-- The list is closed in the row that stands so many rows below its first one, and not before.
structure ClosesBelow (text : Bytes) (later : List Bytes) (count length : Nat) : Prop where
  fits : count ≤ later.length
  closes : closedLength? .outside (text ++ textBelow (later.take count)) = some length
  before : ∀ fewer < count, closedLength? .outside (text ++ textBelow (later.take fewer)) = none

theorem closeList_some (text : Bytes) (extraLines : Nat) (later : List Bytes) (closed : ClosedList)
    (closes : closeList? text extraLines later = some closed) :
    ∃ count, ClosesBelow text later count closed.length ∧ closed.extraLines = extraLines + count ∧
      closed.text = text ++ textBelow (later.take count) := by
  induction later generalizing text extraLines with
  | nil =>
      obtain ⟨length, found, rfl⟩ := Option.map_eq_some_iff.mp closes
      exact ⟨0, ⟨Nat.le_refl _, by simpa [textBelow] using found, nofun⟩, rfl, by simp [textBelow]⟩
  | cons row later ih =>
      unfold closeList? at closes
      split at closes
      · rename_i length found
        cases closes
        exact ⟨0, ⟨Nat.zero_le _, by simpa [textBelow] using found, nofun⟩, rfl,
          by simp [textBelow]⟩
      · rename_i stays
        obtain ⟨count, below, rows, whole⟩ := ih _ _ closes
        have longer (some_rows : List Bytes) : text ++ newline :: row ++ textBelow some_rows =
            text ++ textBelow (row :: some_rows) := by simp [textBelow]
        refine ⟨count + 1, ⟨by simpa using below.fits, ?_, fun fewer less => ?_⟩, by omega, ?_⟩
        · rw [List.take_succ_cons, ← longer]
          exact below.closes
        · cases fewer with
          | zero => simpa [textBelow] using stays
          | succ fewer =>
              rw [List.take_succ_cons, ← longer]
              exact below.before fewer (by omega)
        · rw [whole, List.take_succ_cons, longer]

theorem ClosesBelow.unique {text : Bytes} {later : List Bytes} {count other length longer : Nat}
    (below : ClosesBelow text later count length) (also : ClosesBelow text later other longer) :
    count = other ∧ length = longer := by
  have apart {count other length longer : Nat} (below : ClosesBelow text later count length)
      (also : ClosesBelow text later other longer) : ¬ count < other := fun less => by
    have closes := below.closes
    rw [also.before count less] at closes
    cases closes
  obtain rfl : count = other := Nat.le_antisymm (Nat.not_lt.mp (apart also below))
    (Nat.not_lt.mp (apart below also))
  exact ⟨rfl, Option.some.inj (below.closes.symm.trans also.closes)⟩

theorem ClosesBelow.closeList {text : Bytes} {later : List Bytes} {count length : Nat}
    (below : ClosesBelow text later count length) (extraLines : Nat) :
    closeList? text extraLines later =
      some ⟨text ++ textBelow (later.take count), length, extraLines + count⟩ := by
  cases found : closeList? text extraLines later with
  | none =>
      have parts : text ++ textBelow later =
          text ++ textBelow (later.take count) ++ textBelow (later.drop count) := by
        rw [List.append_assoc, ← textBelow_append, List.take_append_drop]
      rw [closeList_none, parts, closedLength_append, below.closes] at found
      cases found
  | some closed =>
      obtain ⟨other, also, rows, whole⟩ := closeList_some _ _ _ _ found
      obtain ⟨rfl, same⟩ := below.unique also
      rw [same, ← whole, ← rows]

def Nesting.Inside (state : Nesting) : Prop :=
  0 < state.depth ∧ (state.quote = none → state.escaped = false)

theorem inside_step (state : Nesting) (b : UInt8) (rest : Bytes) (inside : state.Inside)
    (stays : closedLength? state (b :: rest) = none) :
    (state.step b).Inside ∧ closedLength? (state.step b) rest = none := by
  rw [closedLength?] at stays
  split at stays
  · cases stays
  · rename_i open_still
    refine ⟨?_, Option.map_eq_none_iff.mp stays⟩
    obtain ⟨depth, quote, escaped⟩ := state
    obtain ⟨deep, plain⟩ := inside
    cases quote with
    | some quote =>
        unfold Nesting.step
        dsimp only
        split_ifs
        · exact ⟨deep, fun unquoted => absurd unquoted (Option.some_ne_none _)⟩
        · exact ⟨deep, fun unquoted => absurd unquoted (Option.some_ne_none _)⟩
        · exact ⟨deep, fun _ => by simp_all⟩
        · exact ⟨deep, fun unquoted => absurd unquoted (Option.some_ne_none _)⟩
    | none =>
        obtain rfl : escaped = false := plain rfl
        revert open_still
        unfold Nesting.step
        dsimp only
        split_ifs with opens brackets closes
        · exact fun _ => ⟨deep, fun unquoted => absurd unquoted (Option.some_ne_none _)⟩
        · exact fun _ => ⟨Int.add_pos deep Int.one_pos, fun _ => rfl⟩
        · intro open_still
          have deeper : depth - 1 ≠ 0 := by simpa [closes] using open_still
          exact ⟨by dsimp only at deep ⊢; omega, fun _ => rfl⟩
        · exact fun _ => ⟨deep, fun _ => rfl⟩

theorem inside_foldl (state : Nesting) (text : Bytes) (inside : state.Inside)
    (stays : closedLength? state text = none) : (text.foldl Nesting.step state).Inside := by
  induction text generalizing state with
  | nil => exact inside
  | cons b rest ih =>
      obtain ⟨stepped, later⟩ := inside_step state b rest inside stays
      exact ih _ stepped later

def EndsPlain (opened : Bytes) (rows : List Bytes) : Prop :=
  ((opened ++ textBelow rows).foldl Nesting.step .outside).quote = none

instance (opened : Bytes) (rows : List Bytes) : Decidable (EndsPlain opened rows) :=
  inferInstanceAs (Decidable (((opened ++ textBelow rows).foldl Nesting.step .outside).quote = none))

-- The list that starts here is still open behind these rows, outside a string.
structure OpenBehind (opened : Bytes) (rows : List Bytes) : Prop where
  stays : closedLength? .outside (opened ++ textBelow rows) = none
  unquoted : EndsPlain opened rows

theorem OpenBehind.level {opened : Bytes} {rows : List Bytes} (behind : OpenBehind opened rows)
    (first : opened.head? = some (byte '(')) :
    ∃ depth, 0 < depth ∧
      (opened ++ textBelow rows).foldl Nesting.step .outside = .level depth := by
  obtain ⟨rest, rfl⟩ := List.head?_eq_some_iff.mp first
  have stays := behind.stays
  rw [List.cons_append, closedLength?] at stays
  have inside := inside_foldl (Nesting.outside.step (byte '(')) (rest ++ textBelow rows)
    ⟨Int.one_pos, fun _ => rfl⟩ (Option.map_eq_none_iff.mp stays)
  have unquoted := behind.unquoted
  rw [EndsPlain] at unquoted
  rw [List.cons_append, List.foldl_cons] at unquoted ⊢
  generalize (rest ++ textBelow rows).foldl Nesting.step _ = state at inside unquoted ⊢
  obtain ⟨depth, quote, escaped⟩ := state
  obtain rfl : quote = none := unquoted
  obtain rfl : escaped = false := inside.2 rfl
  exact ⟨depth, inside.1, rfl⟩

theorem closedLength_inserted (text tail more : Bytes) (depth : Int) (positive : 0 < depth)
    (stays : closedLength? .outside text = none)
    (level : text.foldl Nesting.step .outside = .level depth) (passed : KeepsLevel tail) :
    closedLength? .outside (text ++ tail ++ more) =
      (closedLength? .outside (text ++ more)).map (· + tail.length) := by
  rw [List.append_assoc, closedLength_append _ text, closedLength_append _ text more, stays, level,
    closedLength_append _ tail, passed.stays depth positive, passed.level depth positive]
  simp only [Option.none_or, Option.map_map]
  congr 1
  funext length
  simp only [Function.comp_apply]
  omega

structure CommentedRows (opened : Bytes) (later : List Bytes) (count : Nat) (tail again : Bytes)
    (further : List Bytes) : Prop where
  size : further.length = later.length
  before : ∀ fewer < count,
    again ++ textBelow (further.take fewer) = opened ++ textBelow (later.take fewer)
  own : again ++ textBelow (further.take count) = opened ++ textBelow (later.take count) ++ tail
  after : further.drop count = later.drop count

namespace CommentedRows

variable {opened tail again : Bytes} {later further : List Bytes} {count : Nat}
  (rows : CommentedRows opened later count tail again further)
include rows

theorem behind (more : Nat) : again ++ textBelow (further.take (count + more)) =
    opened ++ textBelow (later.take count) ++ tail ++ textBelow ((later.drop count).take more) := by
  rw [List.take_add, textBelow_append, ← List.append_assoc, rows.own, rows.after]

/-- The list ends where it did when the text is passed over. -/
theorem closesBelow (open_list : OpenBehind opened (later.take count))
    (first : opened.head? = some (byte '(')) (passed : KeepsLevel tail) {total length : Nat}
    (below : ClosesBelow opened later total length) :
    count < total ∧ ClosesBelow again further total (length + tail.length) := by
  obtain ⟨depth, positive, level⟩ := open_list.level first
  have inserted (more : Nat) : closedLength? .outside (again ++ textBelow (further.take (count + more))) =
      (closedLength? .outside (opened ++ textBelow (later.take (count + more)))).map
        (· + tail.length) := by
    rw [rows.behind, closedLength_inserted _ tail _ depth positive open_list.stays level passed,
      List.take_add, textBelow_append, List.append_assoc opened]
  have past : count < total := by
    by_contra early
    obtain ⟨more, rfl⟩ := Nat.exists_eq_add_of_le (Nat.not_lt.mp early)
    have stays := open_list.stays
    rw [List.take_add, textBelow_append, ← List.append_assoc, closedLength_append,
      below.closes] at stays
    cases stays
  refine ⟨past, ⟨rows.size ▸ below.fits, ?_, fun fewer less => ?_⟩⟩
  · obtain ⟨more, rfl⟩ := Nat.exists_eq_add_of_lt past
    rw [Nat.add_assoc, inserted, ← Nat.add_assoc, below.closes]
    rfl
  · rcases Nat.lt_or_ge fewer count with early | late
    · rw [rows.before fewer early, below.before fewer less]
    · obtain ⟨more, rfl⟩ := Nat.exists_eq_add_of_le late
      rw [inserted, below.before _ less]
      rfl

theorem closeList_stays (open_list : OpenBehind opened (later.take count))
    (first : opened.head? = some (byte '(')) (passed : KeepsLevel tail)
    (never : closeList? opened 0 later = none) : closeList? again 0 further = none := by
  obtain ⟨depth, positive, level⟩ := open_list.level first
  have whole : again ++ textBelow further =
      opened ++ textBelow (later.take count) ++ tail ++ textBelow (later.drop count) := by
    rw [← rows.own, List.append_assoc, ← rows.after, ← textBelow_append, List.take_append_drop]
  rw [closeList_none] at never ⊢
  rw [whole, closedLength_inserted _ tail _ depth positive open_list.stays level passed,
    List.append_assoc, ← textBelow_append, List.take_append_drop, never]
  rfl

/-- What stands behind the row that closes the list is no part of the list. -/
theorem closesHere {length : Nat} (below : ClosesBelow opened later count length) :
    ClosesBelow again further count length := by
  refine ⟨rows.size ▸ below.fits, ?_, fun fewer less => ?_⟩
  · rw [rows.own, closedLength_append, below.closes]
    rfl
  · rw [rows.before fewer less, below.before fewer less]

end CommentedRows

/-- The same definition with a comment behind one of its rows. -/
theorem commented_rows (line : Bytes) (later : List Bytes) (name opened : Bytes) (count : Nat)
    (row comment : Bytes) (opens : openDefinition? (trim line) = some (name, opened))
    (place : (line :: later)[count]? = some row) (marked : IsComment comment) :
    ∃ first further again tail, (line :: later).set count (row ++ comment) = first :: further ∧
      indent first = indent line ∧ isBlank first = false ∧
      openDefinition? (trim first) = some (name, again) ∧ SameInside tail comment ∧
      CommentedRows opened later count tail again further := by
  have solid := definition_solid line name opened opens
  cases count with
  | zero =>
      obtain rfl : line = row := Option.some.inj place
      obtain ⟨tail, whole, same⟩ := trim_commented line comment solid marked
      refine ⟨line ++ comment, later, opened ++ tail, tail, rfl, indentFrom_solid 0 line comment solid,
        by simp [solid], ?_, same, ?_⟩
      · rw [whole]
        exact openDefinition_append _ _ _ tail opens
      · exact ⟨rfl, nofun, by simp [textBelow], rfl⟩
  | succ count =>
      rw [List.getElem?_cons_succ] at place
      obtain ⟨inside, own⟩ := List.getElem?_eq_some_iff.mp place
      refine ⟨line, later.set count (row ++ comment), opened, comment, rfl, rfl, solid, opens,
        .refl comment, ?_⟩
      refine ⟨List.length_set, fun fewer less => ?_, ?_, ?_⟩
      · rw [List.take_set_of_le (Nat.le_of_lt_succ less)]
      · rw [List.take_add_one, List.take_add_one, List.take_set_of_le (Nat.le_refl count),
          List.getElem?_set_self inside, place]
        simp [textBelow]
      · exact List.drop_set_of_lt (Nat.lt_succ_self count)

/-- The text with the comment in it, but for white space at the comment's ends. -/
def Inserts (comment text longer : Bytes) : Prop :=
  ∃ front tail back, text = front ++ back ∧ longer = front ++ tail ++ back ∧ SameInside tail comment

theorem ofClosed_inserted (name front tail back : Bytes) (inside extraLines : Nat) :
    let closed : ClosedList := ⟨front ++ back, front.length + inside + 1, extraLines⟩
    let longer : ClosedList := ⟨front ++ tail ++ back, front.length + inside + 1 + tail.length,
      extraLines⟩
    (∃ problem, Header.ofClosed name closed = .malformed problem ∧
      Header.ofClosed name longer = .malformed problem) ∨
    ∃ header, Header.ofClosed name closed = .found header ∧ header.lineCount = extraLines + 1 ∧
      header.parameterText = (front ++ back.take inside).drop 1 ∧
      Header.ofClosed name longer =
        .found { header with parameterText := (front ++ tail ++ back.take inside).drop 1 } := by
  intro closed longer
  have rest : longer.text.drop longer.length = closed.text.drop closed.length := by
    have more : front.length + inside + 1 + tail.length =
        (front ++ tail).length + (inside + 1) := by
      rw [List.length_append]
      omega
    simp only [closed, longer]
    rw [more, List.drop_length_add_append, Nat.add_assoc, List.drop_length_add_append]
  have own : closed.text.take (closed.length - 1) = front ++ back.take inside := by
    simp only [closed]
    rw [Nat.add_sub_cancel, List.take_length_add_append]
  have with_tail : longer.text.take (longer.length - 1) = front ++ tail ++ back.take inside := by
    have more : front.length + inside + 1 + tail.length - 1 = (front ++ tail).length + inside := by
      rw [List.length_append]
      omega
    simp only [longer]
    rw [more, List.take_length_add_append]
  unfold Header.ofClosed
  dsimp only
  rw [rest, own, with_tail]
  cases cutAt? (byte ':') (trim (closed.text.drop closed.length)) with
  | none => exact .inl ⟨_, rfl, rfl⟩
  | some cut =>
      dsimp only
      split
      · exact .inr ⟨_, rfl, rfl, rfl, rfl⟩
      · exact .inl ⟨_, rfl, rfl⟩

theorem inlineAfter_commented (body tail : Bytes) (marked : IsComment tail) :
    inlineAfter body <+: inlineAfter (body ++ tail) ∧
      (inlineAfter body = [] → inlineAfter (body ++ tail) = []) := by
  by_cases blank : isBlank body = true
  · have dropped : inlineAfter (body ++ tail) = [] := by
      refine if_pos (beq_iff_eq.mpr ?_)
      rw [trim_lead body tail blank]
      exact marked
    have nothing : inlineAfter body = [] := by
      unfold inlineAfter
      rw [(trim_eq_nil_iff body).mpr blank]
      rfl
    rw [dropped, nothing]
    exact ⟨List.prefix_rfl, fun _ => rfl⟩
  · obtain ⟨more, whole, _⟩ := trim_commented body tail (by simpa using blank) marked
    have written : trim body ≠ [] := fun empty => blank ((trim_eq_nil_iff body).mp empty)
    unfold inlineAfter
    dsimp only
    rw [whole, List.head?_append_of_ne_nil _ written]
    split
    · exact ⟨List.prefix_rfl, fun _ => rfl⟩
    · exact ⟨List.prefix_append _ _, fun empty => absurd empty written⟩

theorem ofClosed_commented (name text tail : Bytes) (length extraLines : Nat)
    (fits : length ≤ text.length) (marked : IsComment tail) (header : Header)
    (found : Header.ofClosed name ⟨text, length, extraLines⟩ = .found header) :
    ∃ body, Header.ofClosed name ⟨text ++ tail, length, extraLines⟩ =
        .found { header with inlineBody := body } ∧
      header.inlineBody <+: body ∧ (header.inlineBody = [] → body = []) := by
  obtain ⟨_, _, before, body, cut, ends, inlined⟩ := ofClosed_found _ _ _ found
  dsimp only [ClosedList.ending] at cut ends
  have whole := cutAt_whole _ _ _ _ cut
  have solid : isBlank (text.drop length) = false := by
    rw [← isBlank_trim, whole, isBlank_append, isBlank_cons,
      show isSpace (byte ':') = false from rfl, Bool.false_and, Bool.and_false]
  obtain ⟨more, longer, same⟩ := trim_commented (text.drop length) tail solid marked
  have rest : trim ((text ++ tail).drop length) = before ++ byte ':' :: (body ++ more) := by
    rw [List.drop_append_of_le_length fits, longer, whole, List.append_assoc, List.cons_append]
  have still_ends : endsHeader (trim ((text ++ tail).drop length)) = true := by
    rw [List.drop_append_of_le_length fits, longer, endsHeader, Bool.or_eq_true]
    refine (Bool.or_eq_true_iff.mp ends).imp (fun front => ?_) fun front => ?_
    all_goals
      exact List.isPrefixOf_iff_prefix.mpr
        ((List.isPrefixOf_iff_prefix.mp front).trans (List.prefix_append _ _))
  obtain ⟨kept, none_kept⟩ := inlineAfter_commented body more (same.isComment marked)
  refine ⟨inlineAfter (body ++ more), ?_, inlined ▸ kept, inlined ▸ none_kept⟩
  have again : cutAt? (byte ':') (trim ((text ++ tail).drop length)) = some (before, body ++ more) := by
    rw [rest, cutAt_mark _ _ _ (cutAt_before _ _ _ _ cut)]
  have own : (text ++ tail).take (length - 1) = text.take (length - 1) :=
    List.take_append_of_le_length (by omega)
  unfold Header.ofClosed at found ⊢
  dsimp only at found ⊢
  rw [cut] at found
  dsimp only at found
  rw [if_pos ends] at found
  cases found
  rw [again, own]
  exact if_pos still_ends

-- A comment starts with white space or its mark.
theorem IsComment.head {tail : Bytes} (marked : IsComment tail) :
    ∀ b ∈ tail.head?, isSpace b = true ∨ b = byte '#' := by
  intro b first
  obtain ⟨rest, rfl⟩ := List.head?_eq_some_iff.mp first
  by_cases space : isSpace b = true
  · exact .inl space
  · have own := head_trim (b :: rest)
    rw [List.dropWhile_cons_of_neg space, marked] at own
    exact .inr (Option.some.inj own).symm

theorem endsHeader_commented (rest tail : Bytes) (marked : IsComment tail)
    (ends : endsHeader (rest ++ tail) = true) : endsHeader rest = true := by
  have inside (word : Bytes) (apart : word.all (fun b => !isSpace b && b != byte '#') = true)
      (front : startsWith word (rest ++ tail) = true) : startsWith word rest = true := by
    refine List.isPrefixOf_iff_prefix.mpr
      (prefix_inside (fun b first member => ?_) (List.isPrefixOf_iff_prefix.mp front))
    have own := List.all_eq_true.mp apart b member
    rcases marked.head b first with space | rfl
    · simp [space] at own
    · simp at own
  rw [endsHeader, Bool.or_eq_true] at ends ⊢
  exact ends.imp (inside _ (by decide)) (inside _ (by decide))

theorem ofClosed_missing (name text tail : Bytes) (length extraLines : Nat)
    (fits : length ≤ text.length) (marked : IsComment tail) (plain : byte ':' ∉ tail)
    (problem : HeaderProblem)
    (missing : Header.ofClosed name ⟨text, length, extraLines⟩ = .malformed problem) :
    Header.ofClosed name ⟨text ++ tail, length, extraLines⟩ = .malformed problem := by
  have no_colon (rest : Bytes) (apart : byte ':' ∉ rest) : cutAt? (byte ':') (trim rest) = none :=
    cutAt_none _ _ fun member => apart (mem_of_mem_trim _ _ member)
  unfold Header.ofClosed at missing ⊢
  dsimp only at missing ⊢
  rw [List.drop_append_of_le_length fits]
  by_cases colon : byte ':' ∈ trim (text.drop length)
  · obtain ⟨before, body, whole, apart⟩ := List.eq_append_cons_of_mem colon
    have cut := cutAt_mark (byte ':') before body apart
    rw [← whole] at cut
    rw [cut] at missing
    dsimp only at missing
    have no_end : ¬ endsHeader (trim (text.drop length ++ tail)) = true := by
      intro ends
      have solid : isBlank (text.drop length) = false := by
        rw [← Bool.not_eq_true, ← trim_eq_nil_iff, whole]
        simp
      obtain ⟨more, longer, same⟩ := trim_commented (text.drop length) tail solid marked
      rw [longer] at ends
      rw [if_pos (endsHeader_commented _ _ (same.isComment marked) ends)] at missing
      cases missing
    split at missing
    · cases missing
    · split
      · rw [if_neg no_end]
        exact missing
      · exact missing
  · have absent : byte ':' ∉ text.drop length ++ tail := by
      rw [List.mem_append, not_or]
      refine ⟨fun member => colon ?_, plain⟩
      rw [← List.count_pos_iff, count_trim _ _ rfl]
      exact List.count_pos_iff.mpr member
    rw [cutAt_none _ _ colon] at missing
    rw [no_colon _ absent]
    exact missing

-- The list of a header is open behind every row but the last one.
theorem header_stays_open {line name opened : Bytes} {later : List Bytes} {header : Header}
    {count : Nat} (found : Header.read line later = .found header)
    (opens : openDefinition? (trim line) = some (name, opened)) (early : count + 1 < header.lineCount)
    (unquoted : EndsPlain opened (later.take count)) : OpenBehind opened (later.take count) := by
  obtain ⟨opened', closed, word, closes, shape⟩ := read_found line later header found
  obtain ⟨-, rfl⟩ := Prod.mk.inj (Option.some.inj (opens.symm.trans word))
  obtain ⟨total, below, extra, _⟩ := closeList_some _ _ _ _ closes
  have lines := (ofClosed_found _ _ _ shape).2.1
  exact ⟨below.before count (by omega), unquoted⟩

/-- A comment behind a row that leaves the list open, outside a string. The header ends where it
did, and so does what is wrong with it; a header that is found has the comment in its list. -/
theorem read_inside (line : Bytes) (later : List Bytes) (name opened : Bytes) (count : Nat)
    (row comment : Bytes) (opens : openDefinition? (trim line) = some (name, opened))
    (place : (line :: later)[count]? = some row) (marked : IsComment comment)
    (open_list : OpenBehind opened (later.take count)) (closed : ClosedText (fun _ => True) comment) :
    ∃ first further, (line :: later).set count (row ++ comment) = first :: further ∧
      indent first = indent line ∧ isBlank first = false ∧
      ((∃ problem, Header.read line later = .malformed problem ∧
          Header.read first further = .malformed problem) ∨
        ∃ header text, Header.read line later = .found header ∧ count + 1 < header.lineCount ∧
          Inserts comment header.parameterText text ∧
          Header.read first further = .found { header with parameterText := text }) := by
  obtain ⟨first, further, again, tail, whole, column, solid, opens_again, same, rows⟩ :=
    commented_rows line later name opened count row comment opens place marked
  have bracket := openDefinition_bracket _ _ _ opens
  have passed := same.keepsLevel closed
  refine ⟨first, further, whole, column, solid, ?_⟩
  unfold Header.read
  simp only [opens, opens_again]
  cases found : closeList? opened 0 later with
  | none =>
      rw [rows.closeList_stays open_list bracket passed found]
      exact .inl ⟨_, rfl, rfl⟩
  | some closed =>
      obtain ⟨total, below, extra, text⟩ := closeList_some _ _ _ _ found
      obtain ⟨past, longer⟩ := rows.closesBelow open_list bracket passed below
      obtain ⟨more, rfl⟩ := Nat.exists_eq_add_of_lt past
      obtain ⟨bytes, opened_with⟩ := List.head?_eq_some_iff.mp bracket
      let front := opened ++ textBelow (later.take count)
      let back := textBelow ((later.drop count).take (more + 1))
      have own : closed.text = front ++ back := by
        rw [text, Nat.add_assoc, List.take_add, textBelow_append, ← List.append_assoc]
      -- The list is open behind the row, so it is closed some bytes further down.
      obtain ⟨inside, ends⟩ : ∃ inside, closed.length = front.length + inside + 1 := by
        have closes := below.closes
        rw [← text, own, closedLength_append, open_list.stays, Option.none_or] at closes
        obtain ⟨length, later_closes, same⟩ := Option.map_eq_some_iff.mp closes
        obtain ⟨inside, _, _, _, counted, _⟩ := closedLength_whole _ _ _ later_closes
        exact ⟨inside.length, by omega⟩
      have closed_eq : closed = ⟨front ++ back, front.length + inside + 1, closed.extraLines⟩ := by
        rw [← own, ← ends]
      have longer_text : again ++ textBelow (further.take (count + more + 1)) =
          front ++ tail ++ back := by
        rw [Nat.add_assoc]
        exact rows.behind (more + 1)
      have inserted := ofClosed_inserted name front tail back inside closed.extraLines
      rw [longer.closeList 0, longer_text, ends, ← extra]
      dsimp only at inserted ⊢
      rw [← closed_eq] at inserted
      obtain ⟨problem, malformed, again⟩ | ⟨header, header_found, lines, parameters, again⟩ := inserted
      · exact .inl ⟨problem, malformed, again⟩
      · refine .inr ⟨header, _, header_found, by omega, ?_, again⟩
        refine ⟨front.drop 1, tail, back.take inside, ?_, ?_, same⟩
        · rw [parameters]
          simp only [front, opened_with]
          rfl
        · simp only [front, opened_with]
          rfl

/-- A comment behind the row that closes the list of a header. It lengthens the body behind the
header's colon at most. -/
theorem read_behind (line : Bytes) (later : List Bytes) (header : Header) (count : Nat)
    (row comment : Bytes) (found : Header.read line later = .found header)
    (ends : header.lineCount = count + 1)
    (place : (line :: later)[count]? = some row) (marked : IsComment comment) :
    ∃ first further body, (line :: later).set count (row ++ comment) = first :: further ∧
      indent first = indent line ∧ isBlank first = false ∧
      Header.read first further = .found { header with inlineBody := body } ∧
      header.inlineBody <+: body ∧ (header.inlineBody = [] → body = []) := by
  obtain ⟨opened, closed, opens, closes, shape⟩ := read_found line later header found
  obtain ⟨first, further, again, tail, whole, column, solid, opens_again, same, rows⟩ :=
    commented_rows line later header.name opened count row comment opens place marked
  obtain ⟨total, below, extra, text⟩ := closeList_some _ _ _ _ closes
  have lines := (ofClosed_found _ _ _ shape).2.1
  obtain rfl : total = count := by omega
  have fits := closedLength_bounds _ _ _ below.closes
  rw [← text] at fits
  obtain ⟨body, again_found, kept, none_kept⟩ :=
    ofClosed_commented header.name closed.text tail closed.length closed.extraLines fits
      (same.isComment marked) header shape
  refine ⟨first, further, body, whole, column, solid, ?_, kept, none_kept⟩
  unfold Header.read
  simp only [opens_again]
  rw [(rows.closesHere below).closeList 0, rows.own, ← text, ← extra]
  exact again_found

/-- A comment without a colon, behind the row that closes the list of a malformed definition. -/
theorem malformed_behind (line : Bytes) (later : List Bytes) (name opened : Bytes) (count : Nat)
    (row comment : Bytes) (opens : openDefinition? (trim line) = some (name, opened))
    (place : (line :: later)[count]? = some row) (marked : IsComment comment)
    (plain : byte ':' ∉ comment) {length : Nat} (ends : ClosesBelow opened later count length)
    (problem : HeaderProblem) (malformed : Header.read line later = .malformed problem) :
    ∃ first further, (line :: later).set count (row ++ comment) = first :: further ∧
      indent first = indent line ∧ isBlank first = false ∧
      Header.read first further = .malformed problem := by
  obtain ⟨first, further, again, tail, whole, column, solid, opens_again, same, rows⟩ :=
    commented_rows line later name opened count row comment opens place marked
  have fits := closedLength_bounds _ _ _ ends.closes
  refine ⟨first, further, whole, column, solid, ?_⟩
  unfold Header.read at malformed ⊢
  simp only [opens] at malformed
  simp only [opens_again]
  rw [ends.closeList 0] at malformed
  rw [(rows.closesHere ends).closeList 0, rows.own]
  exact ofClosed_missing name _ tail length _ fits (same.isComment marked) (same.apart plain rfl) problem
    malformed

end EndpointPreview.Notation
