import EndpointPreview.Proofs.Headers
import EndpointPreview.Proofs.Pieces

/-!
Texts with balanced brackets and closed quotes. A scan that counts brackets and remembers the open
quote comes out of such a text in the state in which it went in. Between, it stands at the level of
the text only at the bytes that the text has there itself, so a mark that is none of them does not
end what the scan reads.
-/

namespace EndpointPreview.Notation

open Text

def isEnclosing (b : UInt8) : Bool :=
  b == singleQuote || b == doubleQuote || isOpening b || isClosing b

theorem isEnclosing_space (b : UInt8) (space : isSpace b = true) : isEnclosing b = false := by
  rcases space_cases b space with rfl | rfl | rfl | rfl | rfl | rfl <;> rfl

-- What stands between two quotes: a backslash takes the byte after it along.
inductive QuotedText (quote : UInt8) : Bytes → Prop where
  | empty : QuotedText quote []
  | byte (b : UInt8) (rest : Bytes) (plain : b ≠ backslash) (inside : b ≠ quote)
      (later : QuotedText quote rest) : QuotedText quote (b :: rest)
  | escaped (b : UInt8) (rest : Bytes) (later : QuotedText quote rest) :
      QuotedText quote (backslash :: b :: rest)

theorem QuotedText.plain {quote : UInt8} {text : Bytes}
    (bytes : ∀ b ∈ text, b ≠ backslash ∧ b ≠ quote) : QuotedText quote text := by
  induction text with
  | nil => exact .empty
  | cons b rest ih =>
      obtain ⟨⟨plain, inside⟩, others⟩ := List.forall_mem_cons.mp bytes
      exact .byte b rest plain inside (ih others)

/-- Brackets are balanced, whatever their kinds, and quotes are closed. The bytes outside them all
are of the class `top`. -/
inductive ClosedText : (UInt8 → Prop) → Bytes → Prop where
  | empty (top : UInt8 → Prop) : ClosedText top []
  | byte (top : UInt8 → Prop) (b : UInt8) (rest : Bytes) (plain : isEnclosing b = false)
      (own : top b) (later : ClosedText top rest) : ClosedText top (b :: rest)
  | quoted (top : UInt8 → Prop) (quote : UInt8) (inside rest : Bytes)
      (opens : quote = singleQuote ∨ quote = doubleQuote) (between : QuotedText quote inside)
      (later : ClosedText top rest) : ClosedText top (quote :: (inside ++ quote :: rest))
  | bracketed (top : UInt8 → Prop) (first last : UInt8) (inside rest : Bytes)
      (opens : isOpening first = true) (closes : isClosing last = true)
      (between : ClosedText (fun _ => True) inside) (later : ClosedText top rest) :
      ClosedText top (first :: (inside ++ last :: rest))

namespace ClosedText

variable {top : UInt8 → Prop} {text rest : Bytes}

theorem plain (bytes : ∀ b ∈ text, isEnclosing b = false ∧ top b) : ClosedText top text := by
  induction text with
  | nil => exact .empty top
  | cons b rest ih =>
      obtain ⟨⟨plain, own⟩, others⟩ := List.forall_mem_cons.mp bytes
      exact .byte top b rest plain own (ih others)

theorem weaken (closed : ClosedText top text) (other : UInt8 → Prop)
    (covers : ∀ b, top b → other b) : ClosedText other text := by
  induction closed with
  | empty top => exact .empty other
  | byte top b rest plain own later ih => exact .byte other b rest plain (covers b own) (ih covers)
  | quoted top quote inside rest opens between later ih =>
      exact .quoted other quote inside rest opens between (ih covers)
  | bracketed top first last inside rest opens closes between later _ ih =>
      exact .bracketed other first last inside rest opens closes between (ih covers)

theorem append (closed : ClosedText top text) (also : ClosedText top rest) :
    ClosedText top (text ++ rest) := by
  induction closed with
  | empty top => exact also
  | byte top b text plain own later ih => exact .byte top b _ plain own (ih also)
  | quoted top quote inside text opens between later ih =>
      rw [List.cons_append, List.append_assoc]
      exact .quoted top quote inside _ opens between (ih also)
  | bracketed top first last inside text opens closes between later _ ih =>
      rw [List.cons_append, List.append_assoc]
      exact .bracketed top first last inside _ opens closes between (ih also)

theorem blank (space : isBlank text = true) (own : ∀ b, isSpace b = true → top b) :
    ClosedText top text := by
  refine plain fun b member => ?_
  have white := (isBlank_iff text).mp space b member
  exact ⟨isEnclosing_space b white, own b white⟩

end ClosedText

namespace Nesting

def level (depth : Int) : Nesting := ⟨depth, none, false⟩

def within (depth : Int) (quote : UInt8) : Nesting := ⟨depth, some quote, false⟩

theorem level_plain (depth : Int) (b : UInt8) (plain : isEnclosing b = false) :
    (level depth).step b = level depth := by
  simp only [isEnclosing, Bool.or_eq_false_iff] at plain
  simp [step, level, plain]

theorem level_quote (depth : Int) (b : UInt8) (opens : b = singleQuote ∨ b = doubleQuote) :
    (level depth).step b = within depth b := by
  simp [step, level, within, opens]

theorem level_opening (depth : Int) (b : UInt8) (opens : isOpening b = true) :
    (level depth).step b = level (depth + 1) := by
  have cases_of : b = byte '(' ∨ b = byte '[' ∨ b = openBrace := by
    simpa [isOpening, or_assoc] using opens
  rcases cases_of with rfl | rfl | rfl <;> rfl

theorem level_closing (depth : Int) (b : UInt8) (closes : isClosing b = true) :
    (level depth).step b = level (depth - 1) := by
  have cases_of : b = byte ')' ∨ b = byte ']' ∨ b = closeBrace := by
    simpa [isClosing, or_assoc] using closes
  rcases cases_of with rfl | rfl | rfl <;> rfl

theorem within_quote (depth : Int) (quote : UInt8)
    (opens : quote = singleQuote ∨ quote = doubleQuote) :
    (within depth quote).step quote = level depth := by
  rcases opens with rfl | rfl <;> rfl

theorem within_byte (depth : Int) (quote b : UInt8) (plain : b ≠ backslash) (inside : b ≠ quote) :
    (within depth quote).step b = within depth quote := by
  simp [step, within, plain, inside]

theorem within_escaped (depth : Int) (quote b : UInt8) :
    ((within depth quote).step backslash).step b = within depth quote := rfl

end Nesting

open Nesting

theorem QuotedText.passes {quote : UInt8} {text : Bytes} (quoted : QuotedText quote text)
    (depth : Int) : text.foldl step (within depth quote) = within depth quote := by
  induction quoted with
  | empty => rfl
  | byte b rest plain inside later ih =>
      rw [List.foldl_cons, within_byte depth quote b plain inside, ih]
  | escaped b rest later ih => rw [List.foldl_cons, List.foldl_cons, within_escaped, ih]

/-- A scan comes out of a closed text as it went in. -/
theorem ClosedText.passes {top : UInt8 → Prop} {text : Bytes} (closed : ClosedText top text)
    (depth : Int) : text.foldl step (level depth) = level depth := by
  induction closed generalizing depth with
  | empty top => rfl
  | byte top b rest plain own later ih => rw [List.foldl_cons, level_plain depth b plain, ih]
  | quoted top quote inside rest opens between later ih =>
      rw [List.foldl_cons, level_quote depth quote opens, List.foldl_append, between.passes,
        List.foldl_cons, within_quote depth quote opens, ih]
  | bracketed top first last inside rest opens closes between later inner ih =>
      rw [List.foldl_cons, level_opening depth first opens, List.foldl_append, inner,
        List.foldl_cons, level_closing _ last closes, Int.add_sub_cancel, ih]

def ClearOf (mark : UInt8) : Nesting → Bytes → Prop
  | _, [] => True
  | state, b :: rest => (b = mark → state.atTop = false) ∧ ClearOf mark (state.step b) rest

theorem ClearOf.first {mark b : UInt8} {state : Nesting} {rest : Bytes}
    (clear : ClearOf mark state (b :: rest)) : (b == mark && state.atTop) = false := by
  by_cases same : b = mark
  · rw [clear.1 same, Bool.and_false]
  · rw [beq_false_of_ne same, Bool.false_and]

theorem clearOf_append (mark : UInt8) (state : Nesting) (text rest : Bytes) :
    ClearOf mark state (text ++ rest) ↔
      ClearOf mark state text ∧ ClearOf mark (text.foldl step state) rest := by
  induction text generalizing state with
  | nil => simp [ClearOf]
  | cons b text ih => rw [List.cons_append, ClearOf, ClearOf, List.foldl_cons, ih, and_assoc]

theorem QuotedText.clearOf {quote : UInt8} {text : Bytes} (quoted : QuotedText quote text)
    (mark : UInt8) (depth : Int) : ClearOf mark (within depth quote) text := by
  have inside (state : Nesting) (open_quote : state.quote = some quote) : state.atTop = false := by
    simp [Nesting.atTop, open_quote]
  induction quoted with
  | empty => trivial
  | byte b rest plain other later ih =>
      refine ⟨fun _ => inside _ rfl, ?_⟩
      rwa [within_byte depth quote b plain other]
  | escaped b rest later ih => exact ⟨fun _ => inside _ rfl, fun _ => inside _ rfl, ih⟩

/-- A closed text is clear of a mark that it does not have at its own level, and of every mark
inside a bracket. -/
theorem ClosedText.clearOf {top : UInt8 → Prop} {text : Bytes} (closed : ClosedText top text)
    {mark : UInt8} (plain : isEnclosing mark = false) (depth : Int) (positive : 0 ≤ depth)
    (apart : top mark → 0 < depth) : ClearOf mark (level depth) text := by
  have not_mark (b : UInt8) (encloses : isEnclosing b = true) : b ≠ mark := by
    rintro rfl
    cases plain.symm.trans encloses
  induction closed generalizing depth with
  | empty top => trivial
  | byte top b rest flat own later ih =>
      refine ⟨?_, ?_⟩
      · rintro rfl
        have deeper := apart own
        simp only [Nesting.atTop, level, Option.isNone_none, Bool.and_true, beq_eq_false_iff_ne]
        omega
      · rw [level_plain depth b flat]
        exact ih depth positive apart
  | quoted top quote inside rest opens between later ih =>
      have own : isEnclosing quote = true := by rcases opens with rfl | rfl <;> rfl
      refine ⟨fun same => absurd same (not_mark quote own), ?_⟩
      rw [level_quote depth quote opens, clearOf_append, between.passes]
      refine ⟨between.clearOf mark depth, fun same => absurd same (not_mark quote own), ?_⟩
      rw [within_quote depth quote opens]
      exact ih depth positive apart
  | bracketed top first last inside rest opens closes between later inner ih =>
      have opening : isEnclosing first = true := by simp [isEnclosing, opens]
      have closing : isEnclosing last = true := by simp [isEnclosing, closes]
      refine ⟨fun same => absurd same (not_mark first opening), ?_⟩
      rw [level_opening depth first opens, clearOf_append, between.passes]
      refine ⟨inner (depth + 1) (by omega) (by omega), fun same => absurd same (not_mark last closing), ?_⟩
      rw [level_closing _ last closes, Int.add_sub_cancel]
      exact ih depth positive apart

-- A mark behind a closed text that has none at its own level is the first one there.
theorem ClosedText.no_longer {top : UInt8 → Prop} {text more rest later : Bytes}
    (closed : ClosedText top text) (also : ClosedText top (text ++ more)) {mark : UInt8}
    (plain : isEnclosing mark = false) (apart : ¬ top mark)
    (same : mark :: rest = more ++ mark :: later) : more = [] := by
  cases more with
  | nil => rfl
  | cons b more =>
      obtain ⟨rfl, -⟩ := List.cons.inj same
      have clear := also.clearOf plain 0 (Int.le_refl 0) fun own => absurd own apart
      rw [clearOf_append, closed.passes 0] at clear
      cases clear.2.1 rfl

theorem ClosedText.first_mark {top : UInt8 → Prop} {text other rest later : Bytes}
    (closed : ClosedText top text) (also : ClosedText top other) {mark : UInt8}
    (plain : isEnclosing mark = false) (apart : ¬ top mark)
    (same : text ++ mark :: rest = other ++ mark :: later) : text = other ∧ rest = later := by
  rcases List.append_eq_append_iff.mp same with ⟨more, rfl, tail⟩ | ⟨more, rfl, tail⟩
  · obtain rfl := closed.no_longer also plain apart tail
    exact ⟨(List.append_nil text).symm, (List.cons.inj tail).2⟩
  · obtain rfl := also.no_longer closed plain apart tail
    exact ⟨List.append_nil other, (List.cons.inj tail).2.symm⟩

theorem QuotedText.stays {quote : UInt8} {text : Bytes} (quoted : QuotedText quote text)
    (depth : Int) : closedLength? (within depth quote) text = none := by
  induction quoted with
  | empty => rfl
  | byte b rest plain inside later ih =>
      rw [closedLength?, within_byte depth quote b plain inside, ih]
      simp [within]
  | escaped b rest later ih =>
      rw [closedLength?, closedLength?, within_escaped, ih]
      simp [within, step]

/-- A closed text inside a list does not close the list. -/
theorem ClosedText.stays {top : UInt8 → Prop} {text : Bytes} (closed : ClosedText top text)
    (depth : Int) (positive : 0 < depth) : closedLength? (level depth) text = none := by
  induction closed generalizing depth with
  | empty top => rfl
  | byte top b rest plain own later ih =>
      have no_closing : isClosing b = false := by
        simp only [isEnclosing, Bool.or_eq_false_iff] at plain
        exact plain.2
      rw [closedLength?, level_plain depth b plain, ih depth positive, no_closing]
      simp
  | quoted top quote inside rest opens between later ih =>
      have no_closing : isClosing quote = false := by rcases opens with rfl | rfl <;> rfl
      rw [closedLength?, level_quote depth quote opens, closedLength_append, between.stays,
        between.passes, closedLength?, within_quote depth quote opens, ih depth positive, no_closing]
      simp
  | bracketed top first last inside rest opens closes between later inner ih =>
      have deeper : ((level depth).depth == 0) = false := by
        simp only [level, beq_eq_false_iff_ne]
        omega
      have further : ((level (depth + 1)).depth == 0) = false := by
        simp only [level, beq_eq_false_iff_ne]
        omega
      rw [closedLength?, level_opening depth first opens, closedLength_append,
        inner (depth + 1) (by omega), between.passes, closedLength?, level_closing _ last closes,
        Int.add_sub_cancel, ih depth positive, deeper, further]
      simp

end EndpointPreview.Notation
