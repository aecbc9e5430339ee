import EndpointPreview.Proofs.GeneratedModule
import Mathlib.Data.List.Chain
import Mathlib.Data.List.Forall2

/-!
Helpers read again from a module. The module writes them one after the other as they stood in the
source, so one that stands deeper than the one before it becomes a part of that one. Up to the first
such place each helper is read again as it was.
-/

namespace EndpointPreview.Notation

open Text

def Helper.depth (helper : Helper) : Nat := ((lines helper.body).head?.map indent).getD 0

-- The same helper, but for carriage returns at the ends of its rows.
structure Helper.Kept (before after : Helper) : Prop where
  name : after.name = before.name
  rows : (lines after.body).map stripReturns = (lines before.body).map stripReturns

namespace Helper.Written

variable {helper : Helper} {line : Bytes} {extra body : List Bytes}

theorem depth (written : helper.Written line extra body) : helper.depth = indent line := by
  rw [Helper.depth, written.text]
  rfl

theorem continuesBlock_iff (written : helper.Written line extra body) (depth : Nat) :
    continuesBlock depth line = true ↔ depth < helper.depth := by
  rw [continuesBlock, written.rows.line_solid, written.depth]
  simp

/-- The rows that a helper takes when it is read again before these rows. -/
theorem findings (written : helper.Written line extra body) (lineNumber : Nat)
    (rest : List Bytes) :
    ∃ again next, again.name = helper.name ∧
      again.body = unlines (dropBlankEnd (lines helper.body ++
        [] :: rest.takeWhile (continuesBlock helper.depth))) ∧
      findingsFrom lineNumber none (lines helper.body ++ [] :: rest) =
        .helper again :: findingsFrom next none
          (rest.dropWhile (continuesBlock helper.depth)) := by
  rw [written.depth, written.text]
  let taken := rest.takeWhile (continuesBlock (indent line))
  let stop := rest.dropWhile (continuesBlock (indent line))
  have whole : line :: extra ++ body ++ [] :: rest =
      line :: (extra ++ ((body ++ [] :: taken) ++ stop)) := by
    simp [taken, stop]
  obtain ⟨header, read, name, count⟩ := written.rows.header ((body ++ [] :: taken) ++ stop)
  have inside : ∀ row ∈ body ++ [] :: taken, continuesBlock (indent line) row = true := by
    refine List.forall_mem_append.mpr ⟨written.rows.inside, List.forall_mem_cons.mpr ⟨rfl, ?_⟩⟩
    exact fun row member => List.mem_takeWhile_imp member
  have stops : ∀ row ∈ stop.head?, continuesBlock (indent line) row = false := by
    intro row first
    have outside := List.head?_dropWhile_not (continuesBlock (indent line)) rest
    rw [first] at outside
    exact outside
  obtain ⟨block, next, rows, function⟩ := findings_function lineNumber none line extra _ stop header
    written.rows.unmarked read count inside stops
  refine ⟨_, next, name, ?_, whole ▸ function⟩
  rw [rows, ← List.append_assoc]

theorem kept (written : helper.Written line extra body) {again : Helper}
    (name : again.name = helper.name)
    (text : again.body = unlines (dropBlankEnd (lines helper.body ++ [[]]))) :
    helper.Kept again := by
  obtain ⟨before, last, whole, solid⟩ := written.rows.solid
  have own : dropBlankEnd (lines helper.body ++ [[]]) = line :: extra ++ body := by
    rw [written.text, whole, dropBlankEnd_after before _ last solid]
    exact List.append_nil _
  have chomped : stripReturns ∘ chompReturn = stripReturns := funext stripReturns_chompReturn
  refine ⟨name, ?_⟩
  rw [text, own, written.rows.lines_unlines, List.map_map, chomped, written.text]

end Helper.Written

/-- A helper that takes another row with it is not what it was. -/
theorem Helper.not_kept {helper again : Helper} {first : Bytes} {more : List Bytes}
    (solid : isBlank first = false)
    (single : ∀ row ∈ first :: more, newline ∉ row)
    (text : again.body = unlines (dropBlankEnd (lines helper.body ++ [] :: first :: more))) :
    ¬ helper.Kept again := by
  intro kept
  let rows := dropBlankEnd (lines helper.body ++ [] :: first :: more)
  have parts : rows = lines helper.body ++ [[]] ++ [first] ++ dropBlankEnd more := by
    rw [← dropBlankEnd_after _ more first solid]
    simp [rows]
  have all_single : ∀ row ∈ rows, newline ∉ row := by
    intro row member
    rcases List.mem_append.mp ((dropBlankEnd_sublist _).subset member) with own | behind
    · exact newline_not_mem_lines helper.body row own
    · rcases List.mem_cons.mp behind with rfl | later
      · exact List.not_mem_nil
      · exact single row later
  have ends : ∀ row ∈ rows.getLast?, row ≠ [] := by
    rintro row last rfl
    cases dropBlankEnd_last _ _ last
  have same := congrArg List.length kept.rows
  rw [text, List.length_map, List.length_map, lines_unlines rows all_single ends, List.length_map,
    parts] at same
  simp only [List.length_append, List.length_singleton] at same
  omega

def Helper.Apart (first second : Helper) : Prop := second.depth ≤ first.depth

def helpersFrom (lineNumber : Nat) (rows : List Bytes) : List Helper :=
  (findingsFrom lineNumber none rows).filterMap Finding.helper?

/-- The helpers are found again, in order and with nothing before or between them. -/
def FoundAgain (helpers found : List Helper) : Prop :=
  ∃ again, again <+: found ∧ List.Forall₂ Helper.Kept helpers again

theorem foundAgain_nil (found : List Helper) : FoundAgain [] found :=
  ⟨[], List.nil_prefix, .nil⟩

theorem foundAgain_cons (helper first : Helper) (helpers later : List Helper) :
    FoundAgain (helper :: helpers) (first :: later) ↔
      helper.Kept first ∧ FoundAgain helpers later := by
  constructor
  · rintro ⟨_, front, pairs⟩
    obtain ⟨own, again, kept, rest, rfl⟩ := List.forall₂_cons_left_iff.mp pairs
    obtain ⟨rfl, behind⟩ := List.cons_prefix_cons.mp front
    exact ⟨kept, again, behind, rest⟩
  · rintro ⟨kept, again, front, rest⟩
    exact ⟨first :: again, List.cons_prefix_cons.mpr ⟨rfl, front⟩, .cons kept rest⟩

theorem helpersFrom_cons {lineNumber next : Nat} {rows later : List Bytes} {first : Helper}
    (found : findingsFrom lineNumber none rows = .helper first :: findingsFrom next none later) :
    helpersFrom lineNumber rows = first :: helpersFrom next later := by
  unfold helpersFrom
  rw [found]
  rfl

theorem helperRows_cons (helper : Helper) (helpers : List Helper) (stop : List Bytes) :
    helperRows (helper :: helpers) ++ stop =
      lines helper.body ++ [] :: (helperRows helpers ++ stop) := by
  simp [helperRows]

/-- What a helper takes of the rows behind it: nothing when the next helper stands apart. -/
theorem behind_helper (depth : Nat) (helpers : List Helper) (stop : List Bytes)
    (written : ∀ helper ∈ helpers, ∃ line extra body, helper.Written line extra body)
    (margin : AtMargin stop) :
    (∀ next ∈ helpers.head?, next.depth ≤ depth) ∧
        (∀ row ∈ (helperRows helpers ++ stop).head?, continuesBlock depth row = false) ∨
      (¬ ∀ next ∈ helpers.head?, next.depth ≤ depth) ∧
        ∃ first more, helperRows helpers ++ stop = first :: more ∧ isBlank first = false ∧
          continuesBlock depth first = true := by
  cases helpers with
  | nil => exact .inl ⟨by simp, margin_stops depth stop margin⟩
  | cons next helpers =>
      obtain ⟨line, extra, body, own⟩ := written next List.mem_cons_self
      have front : helperRows (next :: helpers) ++ stop =
          line :: (extra ++ body ++ [] :: (helperRows helpers ++ stop)) := by
        rw [helperRows_cons, own.text]
        simp
      have iff := own.continuesBlock_iff depth
      by_cases deeper : continuesBlock depth line = true
      · exact .inr ⟨by simpa using iff.mp deeper, line, _, front, own.rows.line_solid, deeper⟩
      · refine .inl ⟨by simpa using (not_congr iff).mp deeper, ?_⟩
        rw [front]
        rintro row ⟨⟩
        simpa using deeper

/-- The first helpers are found again exactly when they and the next one stand apart. -/
theorem foundAgain_iff (helpers : List Helper) (stop : List Bytes)
    (written : ∀ helper ∈ helpers, ∃ line extra body, helper.Written line extra body)
    (margin : AtMargin stop) (single : ∀ row ∈ helperRows helpers ++ stop, newline ∉ row)
    (lineNumber count : Nat) :
    FoundAgain (helpers.take count) (helpersFrom lineNumber (helperRows helpers ++ stop)) ↔
      (helpers.take (count + 1)).IsChain Helper.Apart := by
  induction helpers generalizing lineNumber count with
  | nil => simp [foundAgain_nil]
  | cons helper helpers ih =>
      obtain ⟨⟨line, extra, body, own⟩, others⟩ := List.forall_mem_cons.mp written
      cases count with
      | zero => simp [foundAgain_nil]
      | succ count =>
          obtain ⟨again, next, name, text, found⟩ :=
            own.findings lineNumber (helperRows helpers ++ stop)
          rw [helperRows_cons] at single ⊢
          have later_single : ∀ row ∈ helperRows helpers ++ stop, newline ∉ row := by
            intro row member
            exact single row (List.mem_append_right _ (List.mem_cons_of_mem _ member))
          have heads : (helpers.take (count + 1)).head? = helpers.head? := by cases helpers <;> rfl
          rw [helpersFrom_cons found, List.take_succ_cons, List.take_succ_cons, foundAgain_cons,
            List.isChain_cons, heads]
          rcases behind_helper helper.depth helpers stop others margin with
            ⟨apart, stops⟩ | ⟨deeper, first, more, front, solid, continues⟩
          · have nothing : (helperRows helpers ++ stop).takeWhile (continuesBlock helper.depth) =
                [] := takeWhile_stops helper.depth [] _ (by simp) stops
            have parts : (helperRows helpers ++ stop).takeWhile (continuesBlock helper.depth) ++
                (helperRows helpers ++ stop).dropWhile (continuesBlock helper.depth) =
                  helperRows helpers ++ stop := List.takeWhile_append_dropWhile
            rw [nothing, List.nil_append] at parts
            rw [nothing] at text
            rw [parts]
            exact and_congr (iff_of_true (own.kept name text) apart) (ih others later_single next count)
          · have changed : ¬ helper.Kept again := by
              rw [front, List.takeWhile_cons_of_pos continues] at text
              refine Helper.not_kept solid ?_ text
              intro row member
              apply later_single row
              rw [front]
              exact List.mem_cons.mpr ((List.mem_cons.mp member).imp_right (List.takeWhile_subset _ ·))
            exact iff_of_false (fun both => changed both.1) (fun both => deeper both.1)

theorem helpers_module (parsed : ParsedSource)
    (found : ∀ helper ∈ parsed.helpers, FunctionFound (.helper helper)) :
    ∃ stop next, AtMargin stop ∧
      (∀ row ∈ helperRows parsed.helpers ++ stop, newline ∉ row) ∧
      (parse (renderModule parsed)).helpers =
        passThrough :: helpersFrom next (helperRows parsed.helpers ++ stop) := by
  obtain ⟨stop, rows, margin, _⟩ :=
    lines_module parsed [] parsed.endpoints rfl found (by simp) (by simp)
  rw [List.flatMap_nil, List.nil_append] at rows
  have single := newline_not_mem_lines (renderModule parsed)
  rw [rows] at single
  obtain ⟨next, opened⟩ := findings_opening ([[]] ++ (helperRows parsed.helpers ++ stop))
  have blank := findings_plain next [[]] (helperRows parsed.helpers ++ stop) (by decide)
  refine ⟨stop, next + 1, margin, ?_, ?_⟩
  · intro row member
    exact single row (List.mem_append_right _ (List.mem_append_right _ member))
  · change (findings (renderModule parsed)).filterMap Finding.helper? = _
    rw [findings, rows, opened, blank]
    rfl

/-- The helpers of a source stand in its module behind the helper of the opening. The first `count`
of them are read again as they were exactly when none of them, nor the one behind them, stands deeper
than the one before it. -/
theorem parse_renderModule_helpers (source : Bytes) :
    ∃ later, (parse (renderModule (parse source))).helpers = passThrough :: later ∧
      ∀ count, FoundAgain ((parse source).helpers.take count) later ↔
        ((parse source).helpers.take (count + 1)).IsChain Helper.Apart := by
  have found := helper_found source
  obtain ⟨stop, next, margin, single, whole⟩ := helpers_module (parse source) found
  exact ⟨_, whole, foundAgain_iff _ stop (fun helper member => written_found helper (found helper member))
    margin single next⟩

/-- The method of a class stands deeper than the function before it and becomes a part of it. -/
theorem nested_helper_absorbed :
    let source := ascii "def a():\n    return 1\n\nclass C:\n    def b(self):\n        return 2\n"
    (parse source).helpers.map Helper.name = [ascii "a", ascii "b"] ∧
      (parse (renderModule (parse source))).helpers.map Helper.name =
        [ascii "endpoint", ascii "a"] ∧
      ¬ ∃ again, again.Sublist (parse (renderModule (parse source))).helpers.tail ∧
        List.Forall₂ Helper.Kept (parse source).helpers again := by
  intro source
  have before : (parse source).helpers.map Helper.name = [ascii "a", ascii "b"] := by
    decide +kernel
  have after : (parse (renderModule (parse source))).helpers.map Helper.name =
      [ascii "endpoint", ascii "a"] := by decide +kernel
  refine ⟨before, after, ?_⟩
  rintro ⟨again, inside, kept⟩
  have two : (parse source).helpers.length = 2 := by simpa using congrArg List.length before
  have one : (parse (renderModule (parse source))).helpers.length = 2 := by
    simpa using congrArg List.length after
  have fewer := inside.length_le
  rw [List.length_tail, one, ← kept.length_eq, two] at fewer
  omega

end EndpointPreview.Notation
