import EndpointPreview.Notation.Decorator
import EndpointPreview.Proofs.LiteralReading
import EndpointPreview.Proofs.TokenPositions

/-!
Tokens read through a cursor. A cursor holds all tokens, closed by a finish token, and the
index of the next one; it stops at the last token. It stands where a list of remaining
tokens begins, and reading either gives the same, so the reader of decorators never asks
for a token that is not there.
-/

namespace EndpointPreview.ByPosition

open Text Notation

structure Cursor where
  tokens : List Token
  index : Nat
  deriving DecidableEq, Repr

def finishToken : Token := ⟨.finish, [], 0⟩

namespace Cursor

/-- At the first of the tokens, which are closed by a finish token if they are not yet. -/
def start (tokens : List Token) : Checked Cursor := do
  if tokens.isEmpty then return ⟨[finishToken], 0⟩
  if (← lastItem tokens).kind = .finish then return ⟨tokens, 0⟩
  else return ⟨tokens ++ [finishToken], 0⟩

def peek (cursor : Cursor) : Checked Token :=
  if cursor.index < cursor.tokens.length then itemAt cursor.tokens cursor.index
  else lastItem cursor.tokens

def advance (cursor : Cursor) : Checked Cursor := do
  let last ← minus cursor.tokens.length 1
  return if cursor.index < last then { cursor with index := cursor.index + 1 } else cursor

end Cursor

/-- The cursor is at the beginning of the remaining tokens, from which the finish token that
closes them may be missing. -/
inductive Stands : Cursor → TokenRest → Prop where
  | intro (passed ahead close : List Token) (last : Token) (kind : last.kind = .finish)
      (closes : close = [] ∨ close = [last]) :
      Stands ⟨passed ++ ahead ++ [last], passed.length⟩ (ahead ++ close)

namespace Stands

variable {cursor : Cursor} {rest : TokenRest}

theorem length_le (stands : Stands cursor rest) : rest.length ≤ cursor.tokens.length := by
  obtain ⟨passed, ahead, close, last, _, closes⟩ := stands
  have missing : close.length ≤ 1 := by rcases closes with rfl | rfl <;> simp
  simp only [List.length_append, List.length_singleton]
  omega

theorem peek (stands : Stands cursor rest) :
    ∃ token, cursor.peek = .ok token ∧ token.kind = nextKind rest ∧
      (nextKind rest ≠ .finish → token.text = nextText rest) := by
  have here (passed later : List Token) (token : Token) :
      (Cursor.mk (passed ++ token :: later) passed.length).peek = .ok token := by
    have there : (passed ++ token :: later).drop passed.length = token :: later := List.drop_left
    rw [Cursor.peek, if_pos (lt_length there), itemAt_eq there]
  obtain ⟨passed, ahead, close, last, kind, closes⟩ := stands
  rw [List.append_assoc]
  cases ahead with
  | nil =>
      refine ⟨last, here passed [] last, ?_⟩
      rcases closes with rfl | rfl
      · exact ⟨kind, fun other => absurd rfl other⟩
      · exact ⟨rfl, fun _ => rfl⟩
  | cons token later => exact ⟨token, here passed (later ++ [last]) token, rfl, fun _ => rfl⟩

theorem advance (stands : Stands cursor rest) :
    ∃ next, cursor.advance = .ok next ∧ Stands next (rest.drop 1) := by
  obtain ⟨passed, ahead, close, last, kind, closes⟩ := stands
  rw [Cursor.advance, List.length_append, List.length_singleton,
    minus_eq (Nat.le_add_left 1 _), Nat.add_sub_cancel, ok_bind]
  cases ahead with
  | nil =>
      have stays : ¬ passed.length < (passed ++ []).length := by simp
      refine ⟨_, congrArg pure (if_neg stays), ?_⟩
      have none_left : ([] ++ close).drop 1 = [] := by
        rcases closes with rfl | rfl <;> rfl
      rw [none_left]
      exact .intro passed [] [] last kind (.inl rfl)
  | cons token later =>
      have moves : passed.length < (passed ++ token :: later).length := by simp
      refine ⟨_, congrArg pure (if_pos moves), ?_⟩
      have next := Stands.intro (passed ++ [token]) later close last kind closes
      rw [List.length_append, List.length_singleton, List.append_assoc passed,
        List.singleton_append] at next
      exact next

end Stands

theorem start_stands (tokens : List Token) :
    ∃ cursor, Cursor.start tokens = .ok cursor ∧ Stands cursor tokens := by
  induction tokens using List.reverseRecOn with
  | nil => exact ⟨_, rfl, .intro [] [] [] finishToken rfl (.inl rfl)⟩
  | append_singleton tokens last _ =>
      have nonempty : ¬ (tokens ++ [last]).isEmpty = true := by simp
      rw [Cursor.start, if_neg nonempty, lastItem_eq, ok_bind]
      by_cases kind : last.kind = .finish
      · rw [if_pos kind]
        exact ⟨_, rfl, .intro [] tokens [last] last kind (.inr rfl)⟩
      · rw [if_neg kind]
        have closed := Stands.intro [] (tokens ++ [last]) [] finishToken rfl (.inl rfl)
        rw [List.append_nil] at closed
        exact ⟨_, rfl, closed⟩

/-- A reading that may refuse its tokens, by positions and over the remaining tokens: either
both refuse for the same reason or both give related results. -/
inductive Agrees {Error First Second : Type} (related : First → Second → Prop) :
    ExceptT Error Checked First → Except Error Second → Prop where
  | ok {own : First} {value : Second} (same : related own value) :
      Agrees related (pure own) (.ok value)
  | error (error : Error) : Agrees related (throw error) (.error error)

theorem Agrees.bind {Error First Second Next Other : Type} {related : First → Second → Prop}
    {after : Next → Other → Prop} {checked : ExceptT Error Checked First}
    {plain : Except Error Second} {next : First → ExceptT Error Checked Next}
    {other : Second → Except Error Other} (agrees : Agrees related checked plain)
    (goes_on : ∀ own value, related own value → Agrees after (next own) (other value)) :
    Agrees after (checked >>= next) (plain >>= other) := by
  cases agrees with
  | ok same =>
      rw [pure_bind]
      exact goes_on _ _ same
  | error error => exact .error error

theorem Agrees.run {Error Value : Type} {checked : ExceptT Error Checked Value}
    {plain : Except Error Value} (agrees : Agrees Eq checked plain) : checked.run = .ok plain := by
  cases agrees with
  | ok same =>
      rw [same]
      rfl
  | error error => rfl

/-- A step that does not fault goes on with its value. -/
theorem lift_bind {Error First Next : Type} {step : Checked First} {value : First}
    (done : step = .ok value) (next : First → ExceptT Error Checked Next) :
    (do let found ← step; next found) = next value := by
  rw [done]
  rfl

abbrev DecoratorReading := ExceptT DecoratorError Checked

-- The text of the next token, which must have the kind, and the cursor behind it.
def takeKind (kind : TokenKind) (wanted : String) (cursor : Cursor) :
    DecoratorReading (Bytes × Cursor) := do
  let token ← cursor.peek
  if token.kind = kind then return (token.text, ← cursor.advance)
  else if token.kind = .invalid then throw .openString
  else if token.kind = .finish then throw (.ended (ascii wanted))
  else throw (.unexpected (ascii wanted) token.text)

def takeName (name : String) (cursor : Cursor) : DecoratorReading Cursor := do
  let token ← cursor.peek
  let wanted := ascii "'" ++ ascii name ++ ascii "'"
  if token.kind = .identifier ∧ token.text = ascii name then cursor.advance
  else if token.kind = .finish then throw (.ended wanted)
  else throw (.unexpected wanted token.text)

def takeMethod (cursor : Cursor) : DecoratorReading (Bytes × Cursor) := do
  let cursor ← takeName "methods" cursor
  let (_, cursor) ← takeKind .assign "'='" cursor
  let (_, cursor) ← takeKind .leftBracket "'['" cursor
  let (method, cursor) ← takeKind .string "a quoted method" cursor
  if (← cursor.peek).kind = .comma then throw .severalMethods
  let (_, cursor) ← takeKind .rightBracket "']'" cursor
  if method = [] then throw .emptyMethod
  return (method, cursor)

def takeMethodPart (cursor : Cursor) : DecoratorReading (Bytes × Cursor) := do
  if (← cursor.peek).kind = .comma then takeMethod (← cursor.advance)
  else return (defaultMethod, cursor)

def takeDecorator (cursor : Cursor) : DecoratorReading Decorator := do
  let (_, cursor) ← takeKind .atSign "'@'" cursor
  let cursor ← takeName "endpoint" cursor
  let (_, cursor) ← takeKind .leftParen "'('" cursor
  let (route, cursor) ← takeKind .string "a quoted route" cursor
  if route = [] then throw .emptyRoute
  let (method, cursor) ← takeMethodPart cursor
  let (_, cursor) ← takeKind .rightParen "')'" cursor
  let token ← cursor.peek
  if token.kind ≠ .finish then throw (.trailing token.text)
  return ⟨route, method⟩

def readDecorator (line : Bytes) : Checked (Except DecoratorError Decorator) := do
  let scan ← scanTokens line
  (takeDecorator (← Cursor.start scan.tokens)).run

def Taken (own : Bytes × Cursor) (value : Bytes × TokenRest) : Prop :=
  own.1 = value.1 ∧ Stands own.2 value.2

theorem takeKind_agrees (kind : TokenKind) (wanted : String) (real : kind ≠ .finish)
    {cursor : Cursor} {rest : TokenRest} (stands : Stands cursor rest) :
    Agrees Taken (takeKind kind wanted cursor) (Notation.takeKind kind wanted rest) := by
  obtain ⟨token, found, same_kind, same_text⟩ := stands.peek
  obtain ⟨next, moved, behind⟩ := stands.advance
  unfold takeKind Notation.takeKind mismatch
  rw [lift_bind found, same_kind]
  by_cases ended : nextKind rest = .finish
  · simp only [ended, Ne.symm real, ↓reduceIte, reduceCtorEq]
    exact .error _
  · rw [same_text ended]
    split
    · rw [lift_bind moved]
      exact .ok ⟨rfl, behind⟩
    · split <;> exact .error _

theorem takeName_agrees (name : String) {cursor : Cursor} {rest : TokenRest}
    (stands : Stands cursor rest) :
    Agrees Stands (takeName name cursor) (Notation.takeName name rest) := by
  obtain ⟨token, found, same_kind, same_text⟩ := stands.peek
  obtain ⟨next, moved, behind⟩ := stands.advance
  unfold takeName Notation.takeName mismatch
  rw [lift_bind found]
  dsimp only
  rw [same_kind, moved]
  by_cases ended : nextKind rest = .finish
  · simp only [ended, reduceCtorEq, false_and, ↓reduceIte]
    exact .error _
  · rw [same_text ended]
    split
    · exact .ok behind
    · exact .error _

theorem takeMethod_agrees {cursor : Cursor} {rest : TokenRest} (stands : Stands cursor rest) :
    Agrees Taken (takeMethod cursor) (Notation.takeMethod rest) := by
  refine (takeName_agrees "methods" stands).bind fun _ _ stands => ?_
  refine (takeKind_agrees .assign "'='" (by decide) stands).bind fun _ _ taken => ?_
  refine (takeKind_agrees .leftBracket "'['" (by decide) taken.2).bind fun _ _ taken => ?_
  refine (takeKind_agrees .string "a quoted method" (by decide) taken.2).bind ?_
  rintro ⟨method, cursor⟩ ⟨_, rest⟩ ⟨rfl, stands⟩
  obtain ⟨token, found, same_kind, _⟩ := stands.peek
  dsimp only
  rw [lift_bind found, same_kind]
  split
  · exact .error _
  · refine (takeKind_agrees .rightBracket "']'" (by decide) stands).bind fun _ _ taken => ?_
    split
    · exact .error _
    · exact .ok ⟨rfl, taken.2⟩

theorem takeMethodPart_agrees {cursor : Cursor} {rest : TokenRest} (stands : Stands cursor rest) :
    Agrees Taken (takeMethodPart cursor) (Notation.takeMethodPart rest) := by
  obtain ⟨token, found, same_kind, _⟩ := stands.peek
  obtain ⟨next, moved, behind⟩ := stands.advance
  unfold takeMethodPart Notation.takeMethodPart
  rw [lift_bind found, same_kind]
  split
  · rw [lift_bind moved]
    exact takeMethod_agrees behind
  · exact .ok ⟨rfl, stands⟩

theorem takeDecorator_agrees {cursor : Cursor} {rest : TokenRest} (stands : Stands cursor rest) :
    Agrees Eq (takeDecorator cursor) (Decorator.ofTokens rest) := by
  refine (takeKind_agrees .atSign "'@'" (by decide) stands).bind fun _ _ taken => ?_
  refine (takeName_agrees "endpoint" taken.2).bind fun _ _ stands => ?_
  refine (takeKind_agrees .leftParen "'('" (by decide) stands).bind fun _ _ taken => ?_
  refine (takeKind_agrees .string "a quoted route" (by decide) taken.2).bind ?_
  rintro ⟨route, cursor⟩ ⟨_, rest⟩ ⟨rfl, stands⟩
  dsimp only
  split
  · exact .error _
  · refine (takeMethodPart_agrees stands).bind ?_
    rintro ⟨method, cursor⟩ ⟨_, rest⟩ ⟨rfl, stands⟩
    refine (takeKind_agrees .rightParen "')'" (by decide) stands).bind fun _ _ taken => ?_
    obtain ⟨token, found, same_kind, same_text⟩ := taken.2.peek
    rw [lift_bind found, same_kind]
    split
    · rename_i more
      rw [same_text more]
      exact .error _
    · exact .ok rfl

theorem readDecorator_eq (line : Bytes) : readDecorator line = .ok (Decorator.ofLine line) := by
  obtain ⟨cursor, started, stands⟩ := start_stands (Notation.scanTokens line).tokens
  rw [readDecorator, scanTokens_eq, ok_bind, started, ok_bind, (takeDecorator_agrees stands).run,
    Decorator.ofLine]

end EndpointPreview.ByPosition
