import EndpointPreview.Proofs.Tables
import EndpointPreview.Proofs.Words
import Mathlib.Data.List.Forall2

/-!
What words and values weigh. A byte of a string counts more the later its row, so a string
whose last row grows gets heavier, whatever becomes of the rows before. What is made of some
tokens has at most as many members as there were colons, and while it has as many, heavier
strings make it heavier.
-/

namespace EndpointPreview.Notation

open Text

/-- The number of bytes, where one counts `base` times as much as one in the row before. -/
def rowWeight (base : Nat) : Bytes → Nat
  | [] => 0
  | b :: rest => if b = newline then base * rowWeight base rest else 1 + rowWeight base rest

theorem rowWeight_append (base : Nat) (text more : Bytes) :
    rowWeight base (text ++ more) =
      rowWeight base text + Nat.pow base (text.count newline) * rowWeight base more := by
  induction text with
  | nil => simp [rowWeight]
  | cons b text ih =>
      rw [List.cons_append, rowWeight, rowWeight, ih]
      by_cases breaks : b = newline
      · subst breaks
        have further : Nat.pow base (text.count newline + 1) =
            base * Nat.pow base (text.count newline) := Nat.pow_succ'
        rw [if_pos rfl, if_pos rfl, List.count_cons_self, further, Nat.mul_add, Nat.mul_assoc]
      · rw [if_neg breaks, if_neg breaks, List.count_cons_of_ne breaks, Nat.add_assoc]

theorem rowWeight_row (base : Nat) (row : Bytes) (one_row : newline ∉ row) :
    rowWeight base row = row.length := by
  induction row with
  | nil => rfl
  | cons b row ih =>
      rw [List.mem_cons, not_or] at one_row
      rw [rowWeight, if_neg (Ne.symm one_row.1), ih one_row.2, List.length_cons, Nat.add_comm]

def Heavier (base : Nat) (text again : Bytes) : Prop :=
  again.count newline = text.count newline ∧ rowWeight base text < rowWeight base again

def WordMoved (base : Nat) (word again : Word) : Prop :=
  again = word ∨ word.1 = .string ∧ again.1 = .string ∧ Heavier base word.2 again.2

theorem WordMoved.kind {base : Nat} {word again : Word} (moved : WordMoved base word again) :
    again.1 = word.1 := by
  rcases moved with rfl | ⟨string, string_again, _⟩
  · rfl
  · rw [string, string_again]

theorem WordMoved.other {base : Nat} {word again : Word} (moved : WordMoved base word again)
    (no_string : word.1 ≠ .string) : again = word := by
  rcases moved with same | ⟨string, _⟩
  · exact same
  · exact absurd string no_string

end EndpointPreview.Notation

namespace EndpointPreview.Json

open Text

mutual

def total (scalar : Json → Nat) (key : Bytes → Nat) : Json → Nat
  | .arr items => totalItems scalar key items
  | .obj members => totalMembers scalar key members
  | value => scalar value

def totalItems (scalar : Json → Nat) (key : Bytes → Nat) : List Json → Nat
  | [] => 0
  | item :: rest => total scalar key item + totalItems scalar key rest

def totalMembers (scalar : Json → Nat) (key : Bytes → Nat) : Members → Nat
  | [] => 0
  | (name, value) :: rest => key name + total scalar key value + totalMembers scalar key rest

end

def memberCount (value : Json) : Nat := value.total (fun _ => 0) (fun _ => 1)

/-- The weight of all strings and keys; a number weighs what it would as a key. -/
def textWeight [Dialect] (base : Nat) (value : Json) : Nat :=
  value.total (fun scalar => Notation.rowWeight base ((Notation.keyText scalar).getD []))
    (Notation.rowWeight base)

theorem totalMembers_perm (scalar : Json → Nat) (key : Bytes → Nat) {members others : Members}
    (same : members.Perm others) :
    totalMembers scalar key members = totalMembers scalar key others := by
  have sum (members : Members) : totalMembers scalar key members =
      (members.map fun member => key member.1 + total scalar key member.2).sum := by
    induction members with
    | nil => rfl
    | cons member members ih => rw [totalMembers, ih, List.map_cons, List.sum_cons]
  rw [sum, sum]
  exact (same.map _).sum_nat

theorem memberCount_obj (members : Members) :
    memberCount (.obj members) = Table.cost (fun value => 1 + memberCount value) members := by
  induction members with
  | nil => rfl
  | cons member members ih =>
      have step : memberCount (.obj (member :: members)) =
          1 + memberCount member.2 + memberCount (.obj members) := rfl
      rw [step, ih]
      rfl

-- An object is as heavy as its entries, unless one of them is lost.
theorem object_members [Dialect] (members : Members) :
    memberCount (object members) ≤ memberCount (.obj members) ∧
      (memberCount (object members) = memberCount (.obj members) →
        ∀ base, textWeight base (object members) = textWeight base (.obj members)) := by
  obtain ⟨fewer, kept⟩ := Table.ofList_cost precedes
    (fun value => 1 + memberCount value) (fun value => by omega) members
  unfold object
  rw [memberCount_obj, memberCount_obj]
  exact ⟨fewer, fun full base => totalMembers_perm _ _ (kept full)⟩

structure Measure where
  members : Nat
  weight : Nat

namespace Measure

instance : Add Measure := ⟨fun a b => ⟨a.members + b.members, a.weight + b.weight⟩⟩

@[simp] theorem add_members (a b : Measure) : (a + b).members = a.members + b.members := rfl

@[simp] theorem add_weight (a b : Measure) : (a + b).weight = a.weight + b.weight := rfl

theorem nothing_add (made : Measure) : ⟨0, 0⟩ + made = made := by
  change mk (0 + made.members) (0 + made.weight) = made
  rw [Nat.zero_add, Nat.zero_add]

end Measure

def measure [Json.Dialect] (base : Nat) (value : Json) : Measure :=
  ⟨value.memberCount, value.textWeight base⟩

theorem measure_key [Json.Dialect] (base : Nat) (value : Json) (name : Bytes)
    (key : Notation.keyText value = some name) :
    value.measure base = ⟨0, Notation.rowWeight base name⟩ := by
  cases value with
  | arr => cases key
  | obj => cases key
  | str text =>
      cases key
      rfl
  | null =>
      cases key
      rfl
  | bool value =>
      cases key
      rfl
  | int n =>
      cases key
      rfl
  | float bits =>
      cases key
      rfl

end EndpointPreview.Json

namespace EndpointPreview.Notation

open Text

abbrev Token.word (token : Token) : Word := (token.kind, token.text)

section Reading

variable {base : Nat}

abbrev TokensMoved (base : Nat) (tokens again : TokenRest) : Prop :=
  List.Forall₂ (fun token other => WordMoved base token.word other.word) tokens again

abbrev SameWords (tokens again : TokenRest) : Prop := again.map Token.word = tokens.map Token.word

theorem nextKind_moved {tokens again : TokenRest} (moved : TokensMoved base tokens again) :
    nextKind again = nextKind tokens := by
  cases moved with
  | nil => rfl
  | cons first rest => exact first.kind

theorem nextText_moved {tokens again : TokenRest} (moved : TokensMoved base tokens again)
    (no_string : nextKind tokens ≠ .string) : nextText again = nextText tokens := by
  cases moved with
  | nil => rfl
  | cons first rest => exact congrArg Prod.snd (first.other no_string)

theorem drop_moved {tokens again : TokenRest} (count : Nat)
    (moved : TokensMoved base tokens again) :
    TokensMoved base (tokens.drop count) (again.drop count) := List.forall₂_drop count moved

def colons (tokens : TokenRest) : Nat := tokens.countP (·.kind == .colon)

open Json (Measure)

-- Reading has come from the tokens to the rest and made something of those it passed, and the same
-- has happened to tokens with heavier strings. Every member takes a colon. While no colon was
-- passed without a member left of it, the same weight tells of the same words.
structure Passed (base : Nat) (tokens again rest rest_again : TokenRest)
    (made made_again : Measure) : Prop where
  suffix : rest <:+ tokens
  moved : TokensMoved base rest rest_again
  kept : SameWords tokens again → SameWords rest rest_again
  fits : made.members + colons rest ≤ colons tokens
  fits_again : made_again.members + colons rest_again ≤ colons again
  heavier : made.members + colons rest = colons tokens →
    made_again.members + colons rest_again = colons again →
    made.weight ≤ made_again.weight ∧
      (made_again.weight ≤ made.weight → SameWords rest rest_again → SameWords tokens again)

namespace Passed

variable {tokens again middle middle_again rest rest_again : TokenRest}
variable {made made_again more more_again : Measure}

theorem trans (first : Passed base tokens again middle middle_again made made_again)
    (second : Passed base middle middle_again rest rest_again more more_again) :
    Passed base tokens again rest rest_again (made + more) (made_again + more_again) where
  suffix := second.suffix.trans first.suffix
  moved := second.moved
  kept := fun same => second.kept (first.kept same)
  fits := by
    have here := first.fits
    have there := second.fits
    rw [Measure.add_members]
    omega
  fits_again := by
    have here := first.fits_again
    have there := second.fits_again
    rw [Measure.add_members]
    omega
  heavier := by
    -- Neither part can have fewer members than colons when the whole has as many.
    intro full full_again
    rw [Measure.add_members] at full full_again
    rw [Measure.add_weight, Measure.add_weight]
    have fits := first.fits
    have fits' := second.fits
    have again_fits := first.fits_again
    have again_fits' := second.fits_again
    obtain ⟨lighter, same_first⟩ := first.heavier (by omega) (by omega)
    obtain ⟨lighter', same_second⟩ := second.heavier (by omega) (by omega)
    refine ⟨by omega, fun bound same => ?_⟩
    exact same_first (by omega) (same_second (by omega) same)

-- What is lost of the made members is lost for good.
theorem lose (passed : Passed base tokens again rest rest_again made made_again)
    (fewer : more.members ≤ made.members)
    (kept : more.members = made.members → more.weight = made.weight)
    (fewer_again : more_again.members ≤ made_again.members)
    (kept_again : more_again.members = made_again.members →
      more_again.weight = made_again.weight) :
    Passed base tokens again rest rest_again more more_again where
  suffix := passed.suffix
  moved := passed.moved
  kept := passed.kept
  fits := by
    have fits := passed.fits
    omega
  fits_again := by
    have fits := passed.fits_again
    omega
  heavier := by
    intro full full_again
    have fits := passed.fits
    have fits_again := passed.fits_again
    rw [kept (by omega), kept_again (by omega)]
    exact passed.heavier (by omega) (by omega)

theorem token (moved : TokensMoved base tokens again) (no_string : nextKind tokens ≠ .string)
    (made : Measure) (colon : made.members ≤ colons (tokens.take 1)) :
    Passed base tokens again (tokens.drop 1) (again.drop 1) made made := by
  have cut (tokens : TokenRest) : colons (tokens.take 1) + colons (tokens.drop 1) =
      colons tokens := by
    unfold colons
    rw [← List.countP_append, List.take_append_drop]
  have same_first : colons (again.take 1) = colons (tokens.take 1) := by
    cases moved with
    | nil => rfl
    | @cons token token_again _ _ first rest =>
        have same_kind : token_again.kind = token.kind := first.kind
        simp [colons, same_kind]
  have own := cut tokens
  have other := cut again
  refine ⟨List.drop_suffix _ _, drop_moved 1 moved, ?_, by omega, by omega, ?_⟩
  · intro same
    unfold SameWords at same ⊢
    rw [List.map_drop, List.map_drop, same]
  · refine fun _ _ => ⟨Nat.le_refl _, fun _ same => ?_⟩
    cases moved with
    | nil => rfl
    | cons first rest =>
        unfold SameWords at same ⊢
        rw [List.drop_one, List.drop_one, List.tail_cons, List.tail_cons] at same
        rw [List.map_cons, List.map_cons, first.other no_string, same]

/-- A token of some kind that is no string. -/
theorem skip (moved : TokensMoved base tokens again) (no_string : nextKind tokens ≠ .string) :
    Passed base tokens again (tokens.drop 1) (again.drop 1) ⟨0, 0⟩ ⟨0, 0⟩ :=
  token moved no_string ⟨0, 0⟩ (Nat.zero_le _)

theorem after_skip (moved : TokensMoved base tokens again) (no_string : nextKind tokens ≠ .string)
    (passed : Passed base (tokens.drop 1) (again.drop 1) rest rest_again made made_again) :
    Passed base tokens again rest rest_again made made_again := by
  have whole := (skip moved no_string).trans passed
  rwa [Measure.nothing_add, Measure.nothing_add] at whole

end Passed

end Reading

end EndpointPreview.Notation
