import EndpointPreview.Proofs.FunctionBlocks
import EndpointPreview.Proofs.ModuleReading
import EndpointPreview.Proofs.Reindentation
import EndpointPreview.Proofs.Seams

/-!
What a function leaves open. A block ends at the next row that is not deeper than its header, even
where a bracket or a string goes on there. Only such a row cuts through one: blank rows close
nothing, so whatever is open behind a block is closed past its dedent or never. In a module the
rows of a function leave open what they left open in the source.
-/

namespace EndpointPreview.Notation

open Text

def rowsDepth (rows : List Bytes) : Int := openBracketDepth (unlines rows)

theorem isBlank_flatMap (rows : List Bytes) (blank : ∀ row ∈ rows, isBlank row = true) :
    isBlank (rows.flatMap (newline :: ·)) = true := by
  rw [isBlank_iff]
  intro b member
  obtain ⟨row, inside, own⟩ := List.mem_flatMap.mp member
  rcases List.mem_cons.mp own with rfl | space
  · exact isSpace_newline
  · exact (isBlank_iff row).mp (blank row inside) b space

theorem rowsDepth_blank (rows gap : List Bytes) (nonempty : rows ≠ [])
    (blank : ∀ row ∈ gap, isBlank row = true) : rowsDepth (rows ++ gap) = rowsDepth rows := by
  obtain ⟨first, later, rfl⟩ := List.exists_cons_of_ne_nil nonempty
  unfold rowsDepth
  rw [List.cons_append, unlines_flatMap, unlines_flatMap, List.flatMap_append, ← List.append_assoc]
  exact openBracketDepth_trailing _ _ (isBlank_flatMap gap blank)

theorem openBracketDepth_reindented {text again : Bytes} (moved : Reindented text again) :
    openBracketDepth again = openBracketDepth text :=
  openBracketDepth_moved text again (words_reindented text again moved).text

/-- Nothing is open behind the rows, or what the rows after them close is closed only past a row
that is not deeper than `depth`. -/
def ClosesPastDedent (depth : Nat) (rows later : List Bytes) : Prop :=
  rowsDepth rows = 0 ∨ ∀ count, rowsDepth (rows ++ later.take count) = 0 →
    ∃ row, (later.take count).find? (!isBlank ·) = some row ∧ indent row ≤ depth

theorem closes_past_dedent (depth : Nat) (rows later : List Bytes)
    (dedents : ∀ row ∈ later.find? (!isBlank ·), indent row ≤ depth) :
    ClosesPastDedent depth rows later := by
  by_cases closed : rowsDepth rows = 0
  · exact .inl closed
  refine .inr fun count closes => ?_
  have nonempty : rows ≠ [] := by
    rintro rfl
    exact closed rfl
  cases first : (later.take count).find? (!isBlank ·) with
  | none =>
      -- Blank rows close nothing.
      have blank : ∀ row ∈ later.take count, isBlank row = true := by
        simpa using List.find?_eq_none.mp first
      rw [rowsDepth_blank rows _ nonempty blank] at closes
      exact absurd closes closed
  | some row =>
      refine ⟨row, rfl, dedents row ?_⟩
      rw [← List.take_append_drop count later, List.find?_append, first]
      rfl

-- The statements of an endpoint: the one behind its colon and the rows below its header.
def Endpoint.statements (endpoint : Endpoint) : List Bytes :=
  (if endpoint.inlineBody = [] then [] else [endpoint.inlineBody]) ++ endpoint.innerLines

theorem shiftLines_moved (rows : List Bytes) (single : ∀ row ∈ rows, newline ∉ row) :
    Reindented (rows.flatMap (newline :: ·)) ((rows.map shiftLine).flatMap (newline :: ·)) := by
  induction rows with
  | nil => exact .done
  | cons row rows ih =>
      obtain ⟨one_row, others⟩ := List.forall_mem_cons.mp single
      exact (shiftLine_moved row one_row).append (ih others) (breaks_start rows)

theorem innerLines_single (endpoint : Endpoint) (found : FunctionFound (.endpoint endpoint)) :
    ∀ row ∈ endpoint.innerLines, newline ∉ row := by
  cases found with
  | endpoint line extra body rows text count =>
      rw [innerLines_found endpoint line extra body rows text count]
      intro row member
      obtain ⟨original, inside, rfl⟩ := List.mem_map.mp member
      exact fun breaks => rows.single original (List.mem_append_right _ inside)
        (mem_chompReturn _ _ breaks)

theorem inlineBody_single (endpoint : Endpoint) (found : FunctionFound (.endpoint endpoint)) :
    newline ∉ endpoint.inlineBody := by
  cases found with
  | endpoint _ _ _ _ _ _ _ inline_single => exact inline_single

-- A line break before the first row makes all rows alike.
theorem rowsDepth_breaks (rows : List Bytes) :
    rowsDepth rows = openBracketDepth (rows.flatMap (newline :: ·)) := by
  cases rows with
  | nil => rfl
  | cons row rows =>
      rw [rowsDepth, unlines_flatMap, List.flatMap_cons, List.cons_append]
      exact (openBracketDepth_lead [newline] _ rfl).symm

theorem moduleBody_depth (endpoint : Endpoint) (found : FunctionFound (.endpoint endpoint)) :
    rowsDepth endpoint.moduleBody = rowsDepth endpoint.statements := by
  have moved := shiftLines_moved endpoint.innerLines (innerLines_single endpoint found)
  rw [moduleBody_found endpoint found]
  unfold Endpoint.statements inlineLines
  by_cases written : endpoint.inlineBody = []
  · by_cases below : endpoint.innerLines = []
    · rw [if_pos ⟨written, below⟩, if_pos written, below]
      decide
    · rw [if_neg fun nothing => below nothing.2, written]
      simp only [List.isEmpty_nil, ↓reduceIte, List.nil_append]
      rw [rowsDepth_breaks, rowsDepth_breaks]
      exact openBracketDepth_reindented moved
  · have behind := Reindented.front endpoint.inlineBody (inlineBody_single endpoint found) moved
    have indented : isBlank (newline :: (indentation ++ indentation)) = true := by decide
    have lead (rest : Bytes) :
        newline :: (indentation ++ indentation ++ endpoint.inlineBody) ++ rest =
          newline :: (indentation ++ indentation) ++ (endpoint.inlineBody ++ rest) := by simp
    rw [if_neg fun nothing => written nothing.1, if_neg written, if_neg (by simpa using written),
      rowsDepth_breaks, List.singleton_append, List.flatMap_cons, lead,
      openBracketDepth_lead _ _ indented, openBracketDepth_reindented behind, rowsDepth,
      List.singleton_append, unlines_flatMap]

structure CutAtDedents (source : Bytes) : Prop where
  functions : ∀ routine ∈ (parse source).routines, ∃ line later header,
    0 < routine.line ∧ (lines source).drop (routine.line - 1) = line :: later ∧
      IsBlock line later header routine ∧
      ClosesPastDedent (indent line) ((line :: later).take routine.rowCount)
        ((line :: later).drop routine.rowCount)
  modules : ∀ endpoint ∈ (parse source).endpoints, ∃ line later,
    (lines source).drop (endpoint.line - 1) = line :: later ∧
      rowsDepth endpoint.moduleBody = rowsDepth endpoint.statements ∧
      ClosesPastDedent (indent line) endpoint.statements
        ((line :: later).drop endpoint.routine.rowCount)

theorem parse_cuts (source : Bytes) : CutAtDedents source where
  functions := by
    intro routine member
    obtain ⟨line, later, header, positive, place, block⟩ := (parse_extracts source).blocks routine member
    exact ⟨line, later, header, positive, place, block, closes_past_dedent _ _ _ block.dedents⟩
  modules := by
    intro endpoint member
    have own : endpoint.routine ∈ (parse source).routines := by
      apply (List.mergeSort_perm _ _).symm.subset
      exact List.mem_append_left _ (List.mem_map_of_mem member)
    obtain ⟨line, later, _, _, place, block⟩ := (parse_extracts source).blocks _ own
    exact ⟨line, later, place, moduleBody_depth endpoint (endpoint_found source endpoint member),
      closes_past_dedent _ _ _ block.dedents⟩

def marginSource : Bytes := ascii "@endpoint('/a')\ndef f():\n    return [\n]\n"

-- The row of the closing bracket is a dedent, so the block ends before it.
theorem margin_cuts :
    ⟨ascii "f", [], ascii "def f():\n    return [", 2⟩ ∈ (parse marginSource).routines ∧
    ¬ ∀ (source : Bytes), ∀ routine ∈ (parse source).routines,
      openBracketDepth routine.body = 0 ∨
        ∀ count, routine.rowCount < count → routine.line - 1 + count ≤ (lines source).length →
          rowsDepth (((lines source).drop (routine.line - 1)).take count) ≠ 0 := by
  have extracted : ⟨ascii "f", [], ascii "def f():\n    return [", 2⟩ ∈
      (parse marginSource).routines := by
    rw [parse_routines]
    decide +kernel
  refine ⟨extracted, fun always => ?_⟩
  rcases always marginSource _ extracted with closed | never
  · have left : openBracketDepth (ascii "def f():\n    return [") = 1 := by decide +kernel
    rw [left] at closed
    cases closed
  · exact never 3 (by decide) (by decide +kernel) (by decide +kernel)

end EndpointPreview.Notation
