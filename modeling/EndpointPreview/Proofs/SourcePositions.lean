import EndpointPreview.Notation.Source
import EndpointPreview.Proofs.HeaderPositions
import EndpointPreview.Proofs.TokenCursors

/-!
A source read by positions. One index goes over its lines; a function that was begun stays
open and takes line by line what belongs to its block, until a line ends it or the lines
are used up. The lines of a header are taken by their count, all of which stand in the
source, and each turn of the loop passes at least one line.
-/

namespace EndpointPreview.ByPosition

open Text Notation

structure OpenFunction where
  name : Bytes
  parameters : List Parameter
  rows : List Bytes
  depth : Nat
  line : Nat
  lineCount : Nat
  inlineBody : Bytes
  decorator : Option Decorator
  deriving DecidableEq, Repr

namespace OpenFunction

def finding (function : OpenFunction) (body : Bytes) : Finding :=
  match function.decorator with
  | some decorator =>
      .endpoint
        { name := function.name
          route := decorator.route
          method := decorator.method
          parameters := function.parameters
          body := body
          line := function.line
          headerLines := function.lineCount
          inlineBody := function.inlineBody }
  | none =>
      .helper
        { name := function.name
          parameters := function.parameters
          body := body
          line := function.line }

def close (function : OpenFunction) : Checked Finding := do
  let rows ← dropBlankEnd function.rows
  return function.finding (← unlines rows)

def closedWith (function : OpenFunction) (more : List Bytes) : Finding :=
  function.finding (Text.unlines (Text.dropBlankEnd (function.rows ++ more)))

def add (function : OpenFunction) (row : Bytes) : OpenFunction :=
  { function with rows := function.rows ++ [row] }

theorem close_eq (function : OpenFunction) : function.close = .ok (function.closedWith []) := by
  rw [close, dropBlankEnd_eq, ok_bind, unlines_eq, closedWith, List.append_nil]
  rfl

theorem closedWith_add (function : OpenFunction) (row : Bytes) (more : List Bytes) :
    (function.add row).closedWith more = function.closedWith (row :: more) := by
  unfold closedWith add
  rw [List.append_assoc]
  rfl

end OpenFunction

def rowsFrom (rows : List Bytes) (index : Nat) : Nat → Checked (List Bytes)
  | 0 => return []
  | count + 1 => do
      let row ← itemAt rows index
      return row :: (← rowsFrom rows (index + 1) count)

-- Where the loop goes on: the index of a line, the open function and the decorator that waits.
structure Place where
  index : Nat
  current : Option OpenFunction
  pending : Option Pending
  deriving DecidableEq, Repr

def keepsPending (stripped : Bytes) : Checked Bool := do
  if stripped.isEmpty then return true
  if ← firstIs (byte '#') stripped then return true
  firstIs (byte '@') stripped

-- A line outside the blocks: what it reports, and where the loop goes on.
def rowAt (rows : List Bytes) (index : Nat) (line : Bytes) (pending : Option Pending) :
    Checked (List Finding × Place) := do
  let stripped ← trim line
  let lineNumber := index + 1
  if ← opensWithWord marker stripped then
    match ← readDecorator stripped with
    | .ok decorator =>
        return (dropPending pending .anotherDecorator,
          ⟨index + 1, none, some ⟨decorator, lineNumber⟩⟩)
    | .error error =>
        return ([.diagnostic ⟨lineNumber, .unrecognized error⟩], ⟨index + 1, none, pending⟩)
  else
    match ← headerAt rows index with
    | .found header =>
        let parameters ← parameters header.parameterText
        let headerRows ← rowsFrom rows index header.lineCount
        let function : OpenFunction :=
          { name := header.name
            parameters := parameters
            rows := headerRows
            depth := indent line
            line := lineNumber
            lineCount := header.lineCount
            inlineBody := header.inlineBody
            decorator := pending.map Pending.decorator }
        return ([], ⟨index + header.lineCount, some function, none⟩)
    | .malformed problem =>
        return ([.diagnostic ⟨lineNumber, .header problem⟩], ⟨index + 1, none, none⟩)
    | .absent =>
        if ← keepsPending stripped then return ([], ⟨index + 1, none, pending⟩)
        else return (dropPending pending .notBeforeDefinition, ⟨index + 1, none, none⟩)

/-- The findings from a place on, with at most `steps` turns of the loop. -/
def findingsFrom (rows : List Bytes) : Nat → Place → Checked (List Finding)
  | 0, _ => .error .endless
  | steps + 1, place =>
      if place.index < rows.length then do
        let line ← itemAt rows place.index
        match place.current with
        | none =>
            let (reports, next) ← rowAt rows place.index line place.pending
            return reports ++ (← findingsFrom rows steps next)
        | some function =>
            if continuesBlock function.depth line then
              findingsFrom rows steps
                { place with index := place.index + 1, current := some (function.add line) }
            else
              let closed ← function.close
              let (reports, next) ← rowAt rows place.index line place.pending
              return closed :: (reports ++ (← findingsFrom rows steps next))
      else
        match place.current with
        | none => return dropPending place.pending .endOfInput
        | some function => do
            let closed ← function.close
            return closed :: dropPending place.pending .endOfInput

def findings (source : Bytes) : Checked (List Finding) := do
  let rows ← lines source
  findingsFrom rows (rows.length + 1) ⟨0, none, none⟩

def parse (source : Bytes) : Checked ParsedSource := do
  return .ofFindings (← findings source)

theorem rowsFrom_eq (rows : List Bytes) (index count : Nat)
    (fits : count ≤ (rows.drop index).length) :
    rowsFrom rows index count = .ok ((rows.drop index).take count) := by
  induction count generalizing index with
  | zero => rfl
  | succ count ih =>
      cases stands : rows.drop index with
      | nil => simp [stands] at fits
      | cons row rest =>
          have behind := drop_next stands
          rw [stands, List.length_cons] at fits
          rw [rowsFrom, itemAt_eq stands, ok_bind,
            ih (index + 1) (by rw [behind]; exact Nat.le_of_succ_le_succ fits), behind]
          rfl

theorem keepsPending_eq (stripped : Bytes) :
    keepsPending stripped = .ok (Notation.keepsPending stripped) := by
  by_cases empty : stripped = []
  · rw [empty]
    rfl
  · rw [keepsPending, if_neg (by simpa using empty), firstIs_eq _ empty, ok_bind,
      firstIs_eq _ empty, Notation.keepsPending, List.isEmpty_eq_false_iff.mpr empty,
      Bool.false_or]
    change (if startsWith (ascii "#") stripped = true then _ else _) = _
    split
    · rename_i comment
      rw [comment]
      rfl
    · rename_i other
      rw [Bool.not_eq_true] at other
      rw [other]
      rfl

theorem marked_eq (stripped : Bytes) :
    opensWithWord marker stripped = .ok (startsWithMarker stripped) :=
  opensWithWord_eq marker stripped

-- What the other reading finds from a place on, when these lines stand there.
def resumed (current : Option OpenFunction) (lineNumber : Nat) (pending : Option Pending)
    (rows : List Bytes) : List Finding :=
  match current with
  | none => Notation.findingsFrom lineNumber pending rows
  | some function =>
      let body := rows.takeWhile (continuesBlock function.depth)
      function.closedWith body ::
        Notation.findingsFrom (lineNumber + body.length) pending (rows.drop body.length)

section turns

variable {rows rest : List Bytes} {index : Nat} {line : Bytes}

/-- A header opens a function with its lines, and the lines of the block follow. -/
theorem opened_resumed (pending : Option Pending) {header : Header}
    (found : Header.read line rest = .found header) (stands : rows.drop index = line :: rest) :
    let function : OpenFunction :=
      { name := header.name
        parameters := Parameter.parse header.parameterText
        rows := (rows.drop index).take header.lineCount
        depth := indent line
        line := index + 1
        lineCount := header.lineCount
        inlineBody := header.inlineBody
        decorator := pending.map Pending.decorator }
    let block := Block.take line (header.lineCount - 1) rest
    resumed (some function) (index + header.lineCount + 1) none
        (rows.drop (index + header.lineCount)) =
      functionFinding pending (index + 1) header block ::
        Notation.findingsFrom (index + 1 + 1 + block.laterLines) none
          (rest.drop block.laterLines) := by
  obtain ⟨extra, count⟩ := Nat.exists_eq_add_of_lt (header_rows line rest header found).1
  rw [Nat.zero_add] at count
  have behind : rows.drop (index + header.lineCount) = rest.drop extra := by
    rw [← List.drop_drop, stands, count, List.drop_succ_cons]
  dsimp only [resumed, Block.take]
  rw [behind, stands, count, Nat.add_sub_cancel, List.take_succ_cons, List.drop_drop]
  congr 1
  · cases pending <;> simp only [functionFinding, count] <;> rfl
  · congr 1
    omega

/-- A line outside the blocks passes one line at least, and what it reports is what is found. -/
theorem rowAt_resumed (pending : Option Pending) (stands : rows.drop index = line :: rest) :
    ∃ reports next, rowAt rows index line pending = .ok (reports, next) ∧ index < next.index ∧
      reports ++ resumed next.current (next.index + 1) next.pending (rows.drop next.index) =
        Notation.findingsFrom (index + 1) pending (line :: rest) := by
  have behind := drop_next stands
  rw [rowAt, trim_eq, ok_bind, marked_eq, ok_bind, Notation.findingsFrom]
  by_cases marked : startsWithMarker (Text.trim line) = true
  · rw [if_pos marked, if_pos marked, readDecorator_eq, ok_bind]
    cases Decorator.ofLine (Text.trim line) with
    | ok decorator => exact ⟨_, _, rfl, Nat.lt_succ_self index, by rw [behind]; rfl⟩
    | error error => exact ⟨_, _, rfl, Nat.lt_succ_self index, by rw [behind]; rfl⟩
  rw [if_neg marked, if_neg marked, headerAt_eq stands, ok_bind]
  cases found : Header.read line rest with
  | found header =>
      obtain ⟨positive, fits, -⟩ := header_rows line rest header found
      have inside : header.lineCount ≤ (rows.drop index).length := by
        rw [stands, List.length_cons]
        omega
      dsimp only
      rw [parameters_eq, ok_bind, rowsFrom_eq rows index _ inside, ok_bind]
      exact ⟨_, _, rfl, Nat.lt_add_of_pos_right positive, opened_resumed pending found stands⟩
  | malformed problem => exact ⟨_, _, rfl, Nat.lt_succ_self index, by rw [behind]; rfl⟩
  | absent =>
      dsimp only
      rw [keepsPending_eq, ok_bind]
      split
      · exact ⟨_, _, rfl, Nat.lt_succ_self index, by rw [behind]; rfl⟩
      · exact ⟨_, _, rfl, Nat.lt_succ_self index, by rw [behind]; rfl⟩

theorem resumed_continues (function : OpenFunction) (lineNumber : Nat)
    (pending : Option Pending) (continues : continuesBlock function.depth line = true) :
    resumed (some function) lineNumber pending (line :: rest) =
      resumed (some (function.add line)) (lineNumber + 1) pending rest := by
  dsimp only [resumed]
  rw [List.takeWhile_cons_of_pos continues, List.length_cons, List.drop_succ_cons,
    function.closedWith_add line, Nat.add_assoc lineNumber 1, Nat.add_comm 1]
  rfl

theorem resumed_closes (function : OpenFunction) (lineNumber : Nat) (pending : Option Pending)
    (stops : ¬ continuesBlock function.depth line = true) :
    resumed (some function) lineNumber pending (line :: rest) =
      function.closedWith [] :: Notation.findingsFrom lineNumber pending (line :: rest) := by
  dsimp only [resumed]
  rw [List.takeWhile_cons_of_neg stops]
  rfl

end turns

/-- Each turn passes a line, so one turn more than there are lines is enough. -/
theorem findingsFrom_eq (rows : List Bytes) (steps : Nat) (place : Place)
    (enough : (rows.drop place.index).length < steps) :
    findingsFrom rows steps place =
      .ok (resumed place.current (place.index + 1) place.pending (rows.drop place.index)) := by
  induction steps generalizing place with
  | zero => cases enough
  | succ steps ih =>
      obtain ⟨index, current, pending⟩ := place
      dsimp only at enough ⊢
      rw [List.length_drop] at enough
      cases stands : rows.drop index with
      | nil =>
          rw [findingsFrom, if_neg (Nat.not_lt.mpr (List.drop_eq_nil_iff.mp stands))]
          cases current with
          | none => rw [resumed, Notation.findingsFrom]; rfl
          | some function =>
              dsimp only [resumed]
              rw [function.close_eq, List.takeWhile_nil, List.drop_nil, Notation.findingsFrom]
              rfl
      | cons line rest =>
          have inside := lt_length stands
          rw [findingsFrom, if_pos inside, itemAt_eq stands, ok_bind]
          obtain ⟨reports, next, turn, further, same⟩ := rowAt_resumed pending stands
          have again := ih next (by rw [List.length_drop]; omega)
          cases current with
          | none =>
              dsimp only
              rw [turn, ok_bind]
              dsimp only
              rw [again, ok_bind, same]
              rfl
          | some function =>
              dsimp only
              by_cases continues : continuesBlock function.depth line = true
              · rw [if_pos continues, resumed_continues function _ pending continues,
                  ih _ (by rw [List.length_drop]; dsimp only; omega)]
                dsimp only
                rw [drop_next stands]
              · rw [if_neg continues, resumed_closes function _ pending continues,
                  function.close_eq, ok_bind, turn, ok_bind]
                dsimp only
                rw [again, ok_bind, same]
                rfl

theorem findings_eq (source : Bytes) : findings source = .ok (Notation.findings source) := by
  let rows := Text.lines source
  rw [findings, lines_eq, ok_bind,
    findingsFrom_eq rows (rows.length + 1) ⟨0, none, none⟩ (Nat.lt_succ_self _)]
  rfl

theorem parse_eq (source : Bytes) : parse source = .ok (Notation.parse source) := by
  rw [parse, findings_eq]
  rfl

end EndpointPreview.ByPosition
