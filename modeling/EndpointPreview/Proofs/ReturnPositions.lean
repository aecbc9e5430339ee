import EndpointPreview.Notation.ReturnLiteral
import EndpointPreview.Notation.Source
import EndpointPreview.Proofs.LiteralCursors

/-!
Returned literals by positions. One index goes over the lines of a body from its header on, and
remembers the indentation of the first line with text. The expression of a `return` takes further
lines as long as its brackets are open and there are lines, and the argument of a `jsonify` call
is cut out at a length that is counted down from that of the expression.
-/

namespace EndpointPreview.ByPosition

open Text Notation

-- The argument when the expression is one `jsonify` call, else the expression.
def unwrapJsonify (expression : Bytes) : Checked Bytes := do
  if !(← opensWith jsonifyCall expression) then return expression
  if (← lastItem expression) == byte ')' then
    part expression jsonifyCall.length (← minus (← minus expression.length jsonifyCall.length) 1)
  else return expression

def expressionLiteral [Json.Dialect] (expression : Bytes) : Checked (Option Json) := do
  if expression.isEmpty then return none else literal (← unwrapJsonify expression)

def returned (statement : Bytes) : Checked Bytes := do
  trim (← textFrom statement returnWord.length)

-- Appends the lines from `next` on to the expression until its brackets balance.
def joinBalanced (rows : List Bytes) (next : Nat) (expression : Bytes) : Checked Bytes := do
  if (← openBracketDepth expression) = 0 then return expression
  if next < rows.length then
    let row ← itemAt rows next
    joinBalanced rows (next + 1) (expression ++ newline :: row)
  else return expression
termination_by rows.length - next

/-- The literal of the first `return` from a line on at the indentation `base`, or at that of the
first line with text when no base is known yet. -/
def returnFrom [Json.Dialect] (rows : List Bytes) (index : Nat) (base : Option Nat) : Checked
    (Option Json) :=
  if index < rows.length then do
    let line ← itemAt rows index
    if isBlank line then returnFrom rows (index + 1) base
    else
      let depth := base.getD (indent line)
      if indent line = depth then
        let stripped ← trim line
        if ← opensWithWord returnWord stripped then
          let expression ← joinBalanced rows (index + 1) (← returned stripped)
          expressionLiteral (← trim expression)
        else returnFrom rows (index + 1) (some depth)
      else returnFrom rows (index + 1) (some depth)
  else return none
termination_by rows.length - index

def returnLiteral [Json.Dialect] (endpoint : Endpoint) : Checked (Option Json) := do
  if ← opensWithWord returnWord endpoint.inlineBody then
    expressionLiteral (← returned endpoint.inlineBody)
  else returnFrom (← lines endpoint.body) endpoint.headerLines.toNat none

theorem unwrapJsonify_eq (expression : Bytes) :
    unwrapJsonify expression = .ok (Notation.unwrapJsonify expression) := by
  rw [unwrapJsonify, opensWith_eq, ok_bind, Notation.unwrapJsonify]
  by_cases call : startsWith jsonifyCall expression = true
  swap
  · rw [if_pos (by simp [call]), if_neg (by simp [call])]
    rfl
  obtain ⟨rest, rfl⟩ := List.isPrefixOf_iff_prefix.mp call
  cases rest using List.reverseRecOn with
  | nil => rfl
  | append_singleton argument last =>
      rw [if_neg (by simp [call]), call, Bool.true_and, List.drop_left, List.dropLast_concat,
        ← List.append_assoc, lastItem_eq, ok_bind, List.getLast?_concat, Option.some_beq_some]
      split
      · have length : (jsonifyCall ++ argument ++ [last]).length =
            jsonifyCall.length + (argument.length + 1) := by simp
        have inside : jsonifyCall.length ≤ (jsonifyCall ++ argument ++ [last]).length := by
          rw [length]
          exact Nat.le_add_right _ _
        rw [length, minus_add, ok_bind, minus_eq (Nat.le_add_left 1 _), ok_bind,
          Nat.add_sub_cancel, part_eq inside, List.append_assoc, List.drop_left, List.take_left]
      · rfl

theorem expressionLiteral_eq [Json.Dialect] (expression : Bytes) :
    expressionLiteral expression = .ok (expressionLiteral? expression) := by
  rw [expressionLiteral, expressionLiteral?]
  split
  · rfl
  · rw [unwrapJsonify_eq, ok_bind, literal_eq]

theorem opensReturn_eq (stripped : Bytes) :
    opensWithWord returnWord stripped = .ok (isReturn stripped) :=
  opensWithWord_eq returnWord stripped

theorem returned_eq {statement : Bytes} (returns : isReturn statement = true) :
    returned statement = .ok (Notation.returned statement) := by
  have front := (Bool.and_eq_true_iff.mp returns).1
  have fits := (List.isPrefixOf_iff_prefix.mp front).length_le
  rw [returned, textFrom_eq fits, ok_bind, trim_eq, Notation.returned]

theorem joinBalanced_eq {rows later : List Bytes} {next : Nat} (stands : rows.drop next = later)
    (expression : Bytes) :
    joinBalanced rows next expression = .ok (joinUntilBalanced expression later) := by
  induction later generalizing next expression with
  | nil =>
      have done : ¬ next < rows.length := Nat.not_lt.mpr (List.drop_eq_nil_iff.mp stands)
      rw [joinBalanced, openBracketDepth_eq, ok_bind, if_neg done]
      split <;> rfl
  | cons row later ih =>
      rw [joinBalanced, openBracketDepth_eq, ok_bind, if_pos (lt_length stands), itemAt_eq stands,
        ok_bind, ih (drop_next stands), joinUntilBalanced]
      split <;> rfl

variable [Json.Dialect]

-- The literal of the first `return` in these lines at the indentation known so far.
def returnBehind (base : Option Nat) (rows : List Bytes) : Option Json :=
  match base with
  | none => returnIn rows
  | some depth => returnAt depth rows

section rows

variable {line : Bytes} {later : List Bytes}

theorem returnBehind_blank (base : Option Nat) (blank : isBlank line = true) :
    returnBehind base (line :: later) = returnBehind base later := by
  have skipped (depth : Nat) : returnAt depth (line :: later) = returnAt depth later := by
    rw [returnAt, if_neg (by simp [blank])]
  cases base with
  | none =>
      dsimp only [returnBehind, returnIn]
      rw [List.find?_cons_of_neg (by simp [blank])]
      split
      · rfl
      · rw [skipped]
  | some depth => exact skipped depth

theorem returnBehind_solid (base : Option Nat) (solid : ¬ isBlank line = true) :
    returnBehind base (line :: later) = returnAt (base.getD (indent line)) (line :: later) := by
  cases base with
  | none =>
      dsimp only [returnBehind, returnIn]
      rw [List.find?_cons_of_pos (by simp [solid])]
      rfl
  | some depth => rfl

end rows

theorem returnFrom_eq {rows rest : List Bytes} {index : Nat}
    (stands : rows.drop index = rest) (base : Option Nat) :
    returnFrom rows index base = .ok (returnBehind base rest) := by
  induction rest generalizing index base with
  | nil =>
      rw [returnFrom, if_neg (Nat.not_lt.mpr (List.drop_eq_nil_iff.mp stands))]
      cases base <;> rfl
  | cons line later ih =>
      have behind := drop_next stands
      rw [returnFrom, if_pos (lt_length stands), itemAt_eq stands, ok_bind]
      by_cases blank : isBlank line = true
      · rw [if_pos blank, ih behind, returnBehind_blank base blank]
      rw [if_neg blank, returnBehind_solid base blank, returnAt]
      generalize base.getD (indent line) = depth
      dsimp only
      by_cases level : indent line = depth
      swap
      · rw [if_neg level, if_neg (by simp [level]), ih behind]
        rfl
      rw [if_pos level, trim_eq, ok_bind, opensReturn_eq, ok_bind]
      by_cases returns : isReturn (Text.trim line) = true
      · rw [if_pos returns, if_pos (by simp [blank, level, returns]), returned_eq returns, ok_bind,
          joinBalanced_eq behind, ok_bind, trim_eq, ok_bind, expressionLiteral_eq]
      · rw [if_neg returns, if_neg (by simp [returns]), ih behind]
        rfl

theorem returnLiteral_eq (endpoint : Endpoint) :
    returnLiteral endpoint = .ok endpoint.returnLiteral? := by
  rw [returnLiteral, opensReturn_eq, ok_bind, Endpoint.returnLiteral?]
  split
  · rename_i returns
    rw [returned_eq returns, ok_bind, expressionLiteral_eq]
  · rw [lines_eq, ok_bind, returnFrom_eq rfl]
    rfl

end EndpointPreview.ByPosition
