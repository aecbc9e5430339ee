import EndpointPreview.Proofs.ClosedTexts
import EndpointPreview.Proofs.ParameterPositions

/-!
A text cut at its top-level commas. A comma is at the top level when what stands before it closes
its quotes and, outside them, as many brackets as it opens. The cuts are these commas and no others,
so the parts joined by commas are the text again, and no part can be cut any further. This holds of
every text, also of one with too many closing brackets or with a quote that stays open.
-/

namespace EndpointPreview.Notation

open Text Nesting
open ByPosition (continued splitTopFrom_cons)

-- The text ends outside quotes and opens so many more brackets there than it closes.
inductive EndsAtDepth : Int → Bytes → Prop where
  | empty : EndsAtDepth 0 []
  | byte {depth : Int} (b : UInt8) {rest : Bytes} (plain : isEnclosing b = false)
      (later : EndsAtDepth depth rest) : EndsAtDepth depth (b :: rest)
  | opening {depth : Int} (b : UInt8) {rest : Bytes} (opens : isOpening b = true)
      (later : EndsAtDepth depth rest) : EndsAtDepth (depth + 1) (b :: rest)
  | closing {depth : Int} (b : UInt8) {rest : Bytes} (closes : isClosing b = true)
      (later : EndsAtDepth depth rest) : EndsAtDepth (depth - 1) (b :: rest)
  | quoted {depth : Int} (quote : UInt8) {inside rest : Bytes}
      (opens : quote = singleQuote ∨ quote = doubleQuote) (between : QuotedText quote inside)
      (later : EndsAtDepth depth rest) : EndsAtDepth depth (quote :: (inside ++ quote :: rest))

theorem EndsAtDepth.passes {depth : Int} {text : Bytes} (ends : EndsAtDepth depth text)
    (start : Int) : text.foldl step (level start) = level (start + depth) := by
  induction ends generalizing start with
  | empty => rw [Int.add_zero]; rfl
  | byte b plain later ih => rw [List.foldl_cons, level_plain start b plain, ih]
  | opening b opens later ih =>
      rw [List.foldl_cons, level_opening start b opens, ih, Int.add_assoc, Int.add_comm 1]
  | closing b closes later ih =>
      rw [List.foldl_cons, level_closing start b closes, ih]
      congr 1
      omega
  | quoted quote opens between later ih =>
      rw [List.foldl_cons, level_quote start quote opens, List.foldl_append, between.passes,
        List.foldl_cons, within_quote start quote opens, ih]

/-- A scan that leaves a quote has passed its closing mark. -/
theorem within_leaves {depth stop : Int} {quote : UInt8} {text : Bytes}
    (opens : quote = singleQuote ∨ quote = doubleQuote)
    (leaves : text.foldl step (within depth quote) = level stop) :
    ∃ inside rest, text = inside ++ quote :: rest ∧ QuotedText quote inside ∧
      rest.foldl step (level depth) = level stop := by
  induction measure : text.length using Nat.strong_induction_on generalizing text with
  | _ size ih =>
      subst measure
      cases text with
      | nil => cases leaves
      | cons b rest =>
          by_cases escape : b = backslash
          · subst escape
            cases rest with
            | nil => cases leaves
            | cons next rest =>
                rw [List.foldl_cons, List.foldl_cons, within_escaped] at leaves
                have fewer : rest.length < (backslash :: next :: rest).length := by
                  rw [List.length_cons, List.length_cons]
                  omega
                obtain ⟨inside, behind, rfl, between, later⟩ := ih _ fewer leaves rfl
                exact ⟨backslash :: next :: inside, behind, rfl, .escaped next inside between,
                  later⟩
          · rw [List.foldl_cons] at leaves
            by_cases own : b = quote
            · subst own
              rw [within_quote depth b opens] at leaves
              exact ⟨[], rest, rfl, .empty, leaves⟩
            · rw [within_byte depth quote b escape own] at leaves
              obtain ⟨inside, behind, rfl, between, later⟩ :=
                ih _ (Nat.lt_succ_self _) leaves rfl
              exact ⟨b :: inside, behind, rfl, .byte b inside escape own between, later⟩

theorem endsAtDepth_of_passes (start stop : Int) (text : Bytes)
    (passes : text.foldl step (level start) = level stop) : EndsAtDepth (stop - start) text := by
  induction measure : text.length using Nat.strong_induction_on generalizing text start with
  | _ size ih =>
      subst measure
      cases text with
      | nil =>
          cases passes
          rw [Int.sub_self]
          exact .empty
      | cons b rest =>
          rw [List.foldl_cons] at passes
          have fewer : rest.length < (b :: rest).length := Nat.lt_succ_self _
          by_cases quotes : b = singleQuote ∨ b = doubleQuote
          · rw [level_quote start b quotes] at passes
            obtain ⟨inside, behind, rfl, between, later⟩ := within_leaves quotes passes
            refine .quoted b quotes between (ih _ ?_ _ _ later rfl)
            rw [List.length_cons, List.length_append, List.length_cons]
            omega
          · by_cases opens : isOpening b = true
            · rw [level_opening start b opens] at passes
              have further := EndsAtDepth.opening b opens (ih _ fewer _ _ passes rfl)
              rwa [show stop - (start + 1) + 1 = stop - start by omega] at further
            · by_cases closes : isClosing b = true
              · rw [level_closing start b closes] at passes
                have further := EndsAtDepth.closing b closes (ih _ fewer _ _ passes rfl)
                rwa [show stop - (start - 1) - 1 = stop - start by omega] at further
              · have plain : isEnclosing b = false := by
                  simpa [isEnclosing, opens, closes] using quotes
                rw [level_plain start b plain] at passes
                exact .byte b plain (ih _ fewer _ _ passes rfl)

def Nesting.Settled (state : Nesting) : Prop := state.quote = none → state.escaped = false

theorem Nesting.Settled.step {state : Nesting} (settled : state.Settled) (b : UInt8) :
    (state.step b).Settled := by
  obtain ⟨depth, quote, escaped⟩ := state
  unfold Nesting.Settled at settled ⊢
  unfold Nesting.step
  cases quote with
  | none =>
      obtain rfl := settled rfl
      dsimp only
      split_ifs <;> exact fun _ => rfl
  | some quote =>
      dsimp only
      split_ifs with after
      · exact nofun
      · exact nofun
      · exact fun _ => by simpa using after
      · exact nofun

theorem Nesting.Settled.atTop {state : Nesting} (settled : state.Settled) :
    state.atTop = true ↔ state = .outside := by
  obtain ⟨depth, quote, escaped⟩ := state
  constructor
  · intro top
    simp only [Nesting.atTop, Bool.and_eq_true, beq_iff_eq, Option.isNone_iff_eq_none] at top
    obtain ⟨rfl, rfl⟩ := top
    obtain rfl := settled rfl
    rfl
  · rintro ⟨⟩
    rfl

theorem Nesting.Settled.foldl {state : Nesting} (settled : state.Settled) (text : Bytes) :
    (text.foldl Nesting.step state).Settled := by
  induction text generalizing state with
  | nil => exact settled
  | cons b rest ih => exact ih (settled.step b)

theorem settled_outside : Nesting.outside.Settled := fun _ => rfl

/-- A scan is back at the top level behind the texts that end at depth zero. -/
theorem atTop_iff (text : Bytes) :
    (text.foldl step .outside).atTop = true ↔ EndsAtDepth 0 text := by
  rw [(settled_outside.foldl text).atTop]
  exact ⟨fun back => endsAtDepth_of_passes 0 0 text back, fun ends => ends.passes 0⟩

def seams : List Bytes → List Nat
  | [] => []
  | [_] => []
  | part :: next :: later => part.length :: (seams (next :: later)).map (· + (part.length + 1))

def IsTopComma (text : Bytes) (position : Nat) : Prop :=
  text[position]? = some (byte ',') ∧ EndsAtDepth 0 (text.take position)

-- A text is read from a state on as its first part and those behind the commas.
inductive Parted : Nesting → Bytes → Bytes → List Bytes → Prop where
  | done (state : Nesting) : Parted state [] [] []
  | comma {rest part : Bytes} {later : List Bytes} (more : Parted .outside rest part later) :
      Parted .outside (byte ',' :: rest) [] (part :: later)
  | kept (state : Nesting) (b : UInt8) {rest part : Bytes} {later : List Bytes}
      (inside : ¬ (b == byte ',' && state.atTop) = true)
      (more : Parted (state.step b) rest part later) : Parted state (b :: rest) (b :: part) later

theorem splitTopFrom_parted (state : Nesting) (settled : state.Settled) (text : Bytes) :
    ∃ part later, splitTopFrom state text = part :: later ∧ Parted state text part later := by
  induction text generalizing state with
  | nil => exact ⟨[], [], rfl, .done state⟩
  | cons b rest ih =>
      rw [splitTopFrom_cons]
      by_cases comma : (b == byte ',' && state.atTop) = true
      · obtain ⟨part, later, parts, parted⟩ := ih state settled
        rw [if_pos comma, parts]
        rw [Bool.and_eq_true, beq_iff_eq, settled.atTop] at comma
        obtain ⟨rfl, rfl⟩ := comma
        exact ⟨_, _, rfl, .comma parted⟩
      · obtain ⟨part, later, parts, parted⟩ := ih _ (settled.step b)
        rw [if_neg comma, parts]
        exact ⟨_, _, rfl, .kept state b comma parted⟩

namespace Parted

variable {state : Nesting} {text part : Bytes} {later : List Bytes}

theorem joined (parted : Parted state text part later) :
    joinWith (ascii ",") (part :: later) = text := by
  induction parted with
  | done state => rfl
  | comma more ih => exact congrArg (byte ',' :: ·) ih
  | @kept state b rest part later inside more ih =>
      have first : joinWith (ascii ",") ((b :: part) :: later) =
          b :: joinWith (ascii ",") (part :: later) := by cases later <;> rfl
      rw [first, ih]

theorem seams_cons (b : UInt8) (part : Bytes) (later : List Bytes) :
    seams ((b :: part) :: later) = (seams (part :: later)).map (· + 1) := by
  cases later with
  | nil => rfl
  | cons next later =>
      rw [seams, seams, List.map_cons, List.map_map, List.length_cons]
      rfl

/-- The cuts are where the scan comes to a comma at the top level. -/
theorem mem_seams (parted : Parted state text part later) (position : Nat) :
    position ∈ seams (part :: later) ↔ text[position]? = some (byte ',') ∧
      ((text.take position).foldl step state).atTop = true := by
  induction parted generalizing position with
  | done state => simp [seams]
  | @comma rest part later more ih =>
      have same : Nesting.outside.step (byte ',') = .outside := rfl
      rw [seams]
      cases position with
      | zero => simp [Nesting.atTop, Nesting.outside]
      | succ position =>
          rw [List.take_succ_cons, List.foldl_cons, same, List.getElem?_cons_succ, ← ih]
          simp
  | @kept state b rest part later inside more ih =>
      rw [seams_cons]
      cases position with
      | zero => simpa using inside
      | succ position =>
          rw [List.take_succ_cons, List.foldl_cons, List.getElem?_cons_succ, ← ih]
          simp

/-- No part can be cut any further. -/
theorem uncut (parted : Parted state text part later) :
    splitTopFrom state part = [part] ∧ ∀ other ∈ later, splitTopLevel other = [other] := by
  induction parted with
  | done state => exact ⟨rfl, nofun⟩
  | comma more ih => exact ⟨rfl, List.forall_mem_cons.mpr ih⟩
  | kept state b inside more ih =>
      refine ⟨?_, ih.2⟩
      rw [splitTopFrom_cons, if_neg inside, ih.1]
      rfl

/-- The parts of a text that comes back to the top level do so as well. -/
theorem back (parted : Parted state text part later)
    (whole : text.foldl step state = .outside) :
    part.foldl step state = .outside ∧ ∀ other ∈ later, other.foldl step .outside = .outside := by
  induction parted with
  | done state => exact ⟨whole, nofun⟩
  | comma more ih => exact ⟨rfl, List.forall_mem_cons.mpr (ih whole)⟩
  | kept state b inside more ih => exact ih whole

end Parted

theorem splitTopLevel_parted (text : Bytes) :
    ∃ part later, splitTopLevel text = part :: later ∧ Parted .outside text part later :=
  splitTopFrom_parted .outside settled_outside text

theorem mem_seams_iff (text : Bytes) (position : Nat) :
    position ∈ seams (splitTopLevel text) ↔ IsTopComma text position := by
  obtain ⟨part, later, parts, parted⟩ := splitTopLevel_parted text
  rw [parts, parted.mem_seams, atTop_iff]
  rfl

/-- The one loop over the bytes cuts a text at its top-level commas: joined by commas the parts are
the text, the cuts are the commas behind what ends outside quotes at depth zero, and no part has
such a comma of its own. The parts of a text with balanced brackets and closed quotes are balanced
and closed. -/
theorem splitTopLevel_cuts (text : Bytes) :
    ByPosition.splitTopLevel text = .ok (splitTopLevel text) ∧
      joinWith (ascii ",") (splitTopLevel text) = text ∧
      (∀ position, position ∈ seams (splitTopLevel text) ↔ IsTopComma text position) ∧
      (∀ part ∈ splitTopLevel text, ∀ position, ¬ IsTopComma part position) ∧
      (EndsAtDepth 0 text → ∀ part ∈ splitTopLevel text, EndsAtDepth 0 part) := by
  obtain ⟨first, later, parts, parted⟩ := splitTopLevel_parted text
  refine ⟨ByPosition.splitTopLevel_eq text, ?joined, mem_seams_iff text, ?uncut, ?balanced⟩
  case joined =>
    rw [parts]
    exact parted.joined
  case uncut =>
    intro part member position comma
    have all : ∀ other ∈ first :: later, splitTopLevel other = [other] :=
      List.forall_mem_cons.mpr parted.uncut
    rw [← mem_seams_iff, all part (parts ▸ member)] at comma
    cases comma
  case balanced =>
    intro balanced part member
    have all : ∀ other ∈ first :: later, other.foldl step .outside = .outside :=
      List.forall_mem_cons.mpr (parted.back (balanced.passes 0))
    exact endsAtDepth_of_passes 0 0 part (all part (parts ▸ member))

/-- The commas in a string and in a list are no cuts. -/
theorem splitTopLevel_cuts_nested :
    EndsAtDepth 0 (ascii "k=',\\'(',v=[1,2]") ∧
      ascii "k=',\\'('" ∈ splitTopLevel (ascii "k=',\\'(',v=[1,2]") ∧
      EndsAtDepth 0 (ascii "k=',\\'('") ∧
      ∀ position, ¬ IsTopComma (ascii "k=',\\'('") position := by
  have balanced : EndsAtDepth 0 (ascii "k=',\\'(',v=[1,2]") := (atTop_iff _).mp (by decide)
  have member : ascii "k=',\\'('" ∈ splitTopLevel (ascii "k=',\\'(',v=[1,2]") := by decide
  obtain ⟨_, _, _, uncut, parts⟩ := splitTopLevel_cuts (ascii "k=',\\'(',v=[1,2]")
  exact ⟨balanced, member, parts balanced _ member, uncut _ member⟩

end EndpointPreview.Notation
