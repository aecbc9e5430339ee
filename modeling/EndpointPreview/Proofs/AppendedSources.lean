import EndpointPreview.Proofs.ModuleReading
import EndpointPreview.Proofs.Scans

/-!
Sources one after the other. A text that is appended at the left margin leaves what stands before
it as it was read and is itself read as on its own, further down, unless the text before it breaks
off: inside a parameter list, or between a decorator and its function.
-/

namespace EndpointPreview.Text

def EndsLine (text : Bytes) : Prop := text = [] ∨ text.getLast? = some newline

theorem rawLines_append (first second : Bytes) (ends : EndsLine first) :
    rawLines (first ++ second) = rawLines first ++ rawLines second := by
  induction first with
  | nil => rfl
  | cons b rest ih =>
      have last : (b :: rest).getLast? = some newline := ends.resolve_left (List.cons_ne_nil b rest)
      cases rest with
      | nil =>
          obtain rfl : b = newline := Option.some.inj last
          simp [rawLines]
      | cons next rest =>
          have further := ih (.inr last)
          have own : rawLines (next :: rest) ≠ [] := by
            unfold rawLines
            split
            · exact List.cons_ne_nil _ _
            · split <;> exact List.cons_ne_nil _ _
          obtain ⟨line, later, rows⟩ := List.exists_cons_of_ne_nil own
          rw [List.cons_append, rawLines, further, rows, rawLines.eq_def (b :: next :: rest)]
          dsimp only
          rw [rows]
          split <;> rfl

theorem lines_append (first second : Bytes) (ends : EndsLine first) :
    lines (first ++ second) = lines first ++ lines second := by
  unfold lines
  rw [rawLines_append first second ends, List.map_append]

end EndpointPreview.Text

namespace EndpointPreview.Notation

open Text

def Pending.below (count : Nat) (pending : Pending) : Pending :=
  { pending with line := pending.line + count }

def Endpoint.below (count : Nat) (endpoint : Endpoint) : Endpoint :=
  { endpoint with line := endpoint.line + count }

def Helper.below (count : Nat) (helper : Helper) : Helper :=
  { helper with line := helper.line + count }

def Diagnostic.below (count : Nat) (diagnostic : Diagnostic) : Diagnostic :=
  { diagnostic with line := diagnostic.line + count }

def Finding.below (count : Nat) : Finding → Finding
  | endpoint found => endpoint (found.below count)
  | helper found => helper (found.below count)
  | diagnostic found => diagnostic (found.below count)

theorem dropPending_below (count : Nat) (pending : Option Pending) (reason : DropReason) :
    dropPending (pending.map (Pending.below count)) reason =
      (dropPending pending reason).map (Finding.below count) := by
  cases pending <;> rfl

theorem functionFinding_below (count lineNumber : Nat) (pending : Option Pending) (header : Header)
    (block : Block) :
    functionFinding (pending.map (Pending.below count)) (lineNumber + count) header block =
      (functionFinding pending lineNumber header block).below count := by
  cases pending <;> rfl

-- Of a block only the rows are reported.
theorem functionFinding_rows (lineNumber laterLines : Nat) (pending : Option Pending)
    (header : Header) (block : Block) :
    functionFinding pending lineNumber header ⟨block.rows, laterLines⟩ =
      functionFinding pending lineNumber header block := by
  cases pending <;> rfl

/-- A scan finds the same wherever its numbering starts. -/
theorem findingsFrom_below (count lineNumber : Nat) (pending : Option Pending)
    (rows : List Bytes) :
    findingsFrom (lineNumber + count) (pending.map (Pending.below count)) rows =
      (findingsFrom lineNumber pending rows).map (Finding.below count) := by
  have next (n : Nat) : n + count + 1 = n + 1 + count := Nat.add_right_comm n count 1
  fun_induction findingsFrom lineNumber pending rows with
  | case1 lineNumber pending => rw [findingsFrom, dropPending_below]
  | case2 lineNumber pending line later marked decorator read ih =>
      rw [findingsFrom, if_pos marked, read]
      dsimp only
      rw [List.map_append, ← ih, dropPending_below, next]
      rfl
  | case3 lineNumber pending line later marked error read ih =>
      rw [findingsFrom, if_pos marked, read]
      dsimp only
      rw [List.map_cons, ← ih, next]
      rfl
  | case4 lineNumber pending line later unmarked header read block ih =>
      have further : lineNumber + count + 1 + block.laterLines =
          lineNumber + 1 + block.laterLines + count := by omega
      rw [findingsFrom, if_neg unmarked, read]
      dsimp only
      rw [List.map_cons, ← ih, ← functionFinding_below, ← further]
      rfl
  | case5 lineNumber pending line later unmarked problem read ih =>
      rw [findingsFrom, if_neg unmarked, read]
      dsimp only
      rw [List.map_cons, ← ih, next]
      rfl
  | case6 lineNumber pending line later unmarked absent kept ih =>
      rw [findingsFrom, if_neg unmarked, absent]
      dsimp only
      rw [if_pos kept, ← ih, next]
  | case7 lineNumber pending line later unmarked absent passed ih =>
      rw [findingsFrom, if_neg unmarked, absent]
      dsimp only
      rw [if_neg passed, List.map_append, ← ih, dropPending_below, next]
      rfl

/-- The report is there because the text ends: more text could close the list or bring the
function. -/
def DiagnosticCause.isCutShort : DiagnosticCause → Bool
  | dropped _ reason => reason == .endOfInput
  | unrecognized _ => false
  | header (.neverClosed _) => true
  | header (.missingColon _) => false

def Settled (found : List Finding) : Prop :=
  ∀ report ∈ diagnosticsIn found, report.cause.isCutShort = false

theorem Settled.later (front : List Finding) {found : List Finding} (settled : Settled (front ++ found)) :
    Settled found := fun report member => settled report (by
  rw [diagnosticsIn_append]
  exact List.mem_append_right _ member)

theorem Settled.waits {pending : Option Pending} (settled : Settled (dropPending pending .endOfInput)) :
    pending = none := by
  cases pending with
  | none => rfl
  | some waiting => cases settled _ List.mem_cons_self

-- A list that is closed is read to its end, whatever follows.
theorem read_further (line : Bytes) (later other : List Bytes)
    (closes : ∀ name, Header.read line later ≠ .malformed (.neverClosed name)) :
    Header.read line (later ++ other) = Header.read line later := by
  unfold Header.read at closes ⊢
  split
  · rfl
  · rename_i name opened opens
    rw [opens] at closes
    cases own : closeList? opened 0 later with
    | none => exact absurd (by simp only [own]) (closes name)
    | some closed =>
        have again := (closeList_take opened 0 later
          (later.drop (closed.extraLines - 0) ++ other) closed own).2
        rw [← List.append_assoc, List.take_append_drop] at again
        rw [again]

/-- The first row that is not blank, if there is one, stands at the left margin. -/
def StartsAtMargin (rows : List Bytes) : Prop :=
  ∀ row ∈ rows.find? (!isBlank ·), indent row = 0

instance (rows : List Bytes) : Decidable (StartsAtMargin rows) :=
  inferInstanceAs (Decidable (∀ row ∈ rows.find? (!isBlank ·), indent row = 0))

theorem StartsAtMargin.stops {rows : List Bytes} (margin : StartsAtMargin rows) (depth : Nat) :
    ∀ row ∈ (rows.dropWhile isBlank).head?, continuesBlock depth row = false := by
  intro row first
  have solid := List.head?_dropWhile_not isBlank rows
  rw [first] at solid
  have left : indent row = 0 := by
    apply margin row
    rw [List.find?_eq_head?_dropWhile_not]
    simpa using first
  simp [continuesBlock, left, solid]

theorem blank_plain (row : Bytes) (blank : isBlank row = true) : isPlain row = true := by
  rw [isPlain, (trim_eq_nil_iff row).mpr blank]
  rfl

section Blocks

variable (line : Bytes) (extraLines : Nat) (later other : List Bytes)
  (fits : extraLines ≤ later.length)

theorem block_rest : later.drop (Block.take line extraLines later).laterLines =
    (later.drop extraLines).dropWhile (continuesBlock (indent line)) := by
  change later.drop (extraLines + _) = _
  rw [← List.drop_drop, drop_takeWhile]

include fits

-- A block that has been stopped by a row takes nothing of what is appended.
theorem block_stopped
    (stopped : later.drop (Block.take line extraLines later).laterLines ≠ []) :
    Block.take line extraLines (later ++ other) = Block.take line extraLines later := by
  rw [block_rest] at stopped
  have short : ((later.drop extraLines).takeWhile (continuesBlock (indent line))).length ≠
      (later.drop extraLines).length := by
    intro whole
    refine stopped (List.length_eq_zero_iff.mp ?_)
    have sizes := congrArg List.length
      (List.takeWhile_append_dropWhile (p := continuesBlock (indent line))
        (l := later.drop extraLines))
    rw [List.length_append] at sizes
    omega
  unfold Block.take
  rw [List.drop_append_of_le_length fits, List.take_append_of_le_length fits,
    List.takeWhile_append, if_neg short]

-- A block at the end of the text takes the blank rows of what is appended, and drops them again.
theorem block_open (margin : StartsAtMargin other)
    (ended : later.drop (Block.take line extraLines later).laterLines = []) :
    Block.take line extraLines (later ++ other) =
      ⟨(Block.take line extraLines later).rows,
        later.length + (other.takeWhile isBlank).length⟩ := by
  have inside : ∀ row ∈ later.drop extraLines, continuesBlock (indent line) row = true := by
    rw [block_rest] at ended
    exact List.dropWhile_eq_nil_iff.mp ended
  have blank : ∀ row ∈ other.takeWhile isBlank, isBlank row = true := fun row member =>
    List.mem_takeWhile_imp member
  have all : ∀ row ∈ later.drop extraLines ++ other.takeWhile isBlank,
      continuesBlock (indent line) row = true := by
    refine List.forall_mem_append.mpr ⟨inside, fun row member => ?_⟩
    simp [continuesBlock, blank row member]
  have body : (later.drop extraLines ++ other).takeWhile (continuesBlock (indent line)) =
      later.drop extraLines ++ other.takeWhile isBlank := by
    conv_lhs => rw [← List.takeWhile_append_dropWhile (p := isBlank) (l := other),
      ← List.append_assoc]
    exact takeWhile_stops (indent line) _ _ all (margin.stops _)
  have own : (later.drop extraLines).takeWhile (continuesBlock (indent line)) =
      later.drop extraLines := List.takeWhile_eq_self_iff.mpr inside
  have gap : (other.takeWhile isBlank).all isBlank = true := List.all_eq_true.mpr blank
  unfold Block.take
  rw [List.drop_append_of_le_length fits, List.take_append_of_le_length fits]
  dsimp only
  rw [body, own, Block.mk.injEq]
  constructor
  · rw [← List.append_assoc, dropBlankEnd_append, if_pos gap]
  · rw [List.length_append, List.length_drop]
    omega

end Blocks

theorem findings_blank (lineNumber : Nat) (rows : List Bytes) :
    findingsFrom lineNumber none rows =
      findingsFrom (lineNumber + (rows.takeWhile isBlank).length) none (rows.dropWhile isBlank) := by
  have plain : ∀ row ∈ rows.takeWhile isBlank, isPlain row = true := fun row member =>
    blank_plain row (List.mem_takeWhile_imp member)
  conv_lhs => rw [← List.takeWhile_append_dropWhile (p := isBlank) (l := rows)]
  exact findings_plain lineNumber _ _ (List.all_eq_true.mpr plain)

theorem findingsFrom_append (lineNumber : Nat) (pending : Option Pending)
    (rows other : List Bytes) (settled : Settled (findingsFrom lineNumber pending rows))
    (margin : StartsAtMargin other) :
    findingsFrom lineNumber pending (rows ++ other) =
      findingsFrom lineNumber pending rows ++
        findingsFrom (lineNumber + rows.length) none other := by
  have next (n : Nat) (line : Bytes) (later : List Bytes) :
      n + 1 + later.length = n + (line :: later).length := by
    rw [List.length_cons]
    omega
  fun_induction findingsFrom lineNumber pending rows with
  | case1 lineNumber pending =>
      rw [settled.waits]
      rfl
  | case2 lineNumber pending line later marked decorator read ih =>
      rw [List.cons_append, findingsFrom, if_pos marked, read]
      dsimp only
      rw [ih (settled.later _), next _ line, List.append_assoc]
  | case3 lineNumber pending line later marked error read ih =>
      rw [List.cons_append, findingsFrom, if_pos marked, read]
      dsimp only
      rw [ih (settled.later [_]), next _ line, List.cons_append]
  | case4 lineNumber pending line later unmarked header read block ih =>
      obtain ⟨_, fits, _⟩ := header_rows line later header read
      have again : Header.read line (later ++ other) = .found header := by
        rw [read_further line later other (by simp [read]), read]
      rw [List.cons_append, findingsFrom, if_neg unmarked, again]
      dsimp only
      rw [List.cons_append]
      by_cases ended : later.drop block.laterLines = []
      · have same := block_open line _ later other fits margin ended
        have rest : (later ++ other).drop (later.length + (other.takeWhile isBlank).length) =
            other.dropWhile isBlank := by
          rw [← List.drop_drop, List.drop_left, drop_takeWhile]
        have whole : lineNumber + 1 + (later.length + (other.takeWhile isBlank).length) =
            lineNumber + (line :: later).length + (other.takeWhile isBlank).length := by
          rw [List.length_cons]
          omega
        rw [same, functionFinding_rows, rest, ended, findings_blank _ other, whole, findingsFrom]
        rfl
      · have same := block_stopped line _ later other fits ended
        have bound : block.laterLines ≤ later.length := by
          by_contra past
          exact ended (List.drop_eq_nil_of_le (Nat.le_of_not_le past))
        have whole : lineNumber + 1 + block.laterLines + (later.drop block.laterLines).length =
            lineNumber + (line :: later).length := by
          rw [List.length_drop, List.length_cons]
          omega
        rw [same, List.drop_append_of_le_length bound, ih (settled.later [_]), whole]
  | case5 lineNumber pending line later unmarked problem read ih =>
      have closes : ∀ name, Header.read line later ≠ .malformed (.neverClosed name) := by
        intro name open_list
        cases read.symm.trans open_list
        cases settled _ List.mem_cons_self
      rw [List.cons_append, findingsFrom, if_neg unmarked, read_further line later other closes,
        read]
      dsimp only
      rw [ih (settled.later [_]), next _ line, List.cons_append]
  | case6 lineNumber pending line later unmarked absent kept ih =>
      have again : Header.read line (later ++ other) = .absent := by
        rw [read_further line later other (by simp [absent]), absent]
      rw [List.cons_append, findingsFrom, if_neg unmarked, again]
      dsimp only
      rw [if_pos kept, ih settled, next _ line]
  | case7 lineNumber pending line later unmarked absent passed ih =>
      have again : Header.read line (later ++ other) = .absent := by
        rw [read_further line later other (by simp [absent]), absent]
      rw [List.cons_append, findingsFrom, if_neg unmarked, again]
      dsimp only
      rw [if_neg passed, ih (settled.later _), next _ line, List.append_assoc]

def ParsedSource.below (count : Nat) (parsed : ParsedSource) : ParsedSource :=
  ⟨parsed.endpoints.map (Endpoint.below count), parsed.helpers.map (Helper.below count),
    parsed.diagnostics.map (Diagnostic.below count)⟩

def ParsedSource.append (first second : ParsedSource) : ParsedSource :=
  ⟨first.endpoints ++ second.endpoints, first.helpers ++ second.helpers,
    first.diagnostics ++ second.diagnostics⟩

theorem ofFindings_append (first second : List Finding) :
    ParsedSource.ofFindings (first ++ second) =
      (ParsedSource.ofFindings first).append (ParsedSource.ofFindings second) := by
  simp only [ParsedSource.ofFindings, ParsedSource.append, List.filterMap_append]

theorem ofFindings_below (count : Nat) (found : List Finding) :
    ParsedSource.ofFindings (found.map (Finding.below count)) =
      (ParsedSource.ofFindings found).below count := by
  have endpoints (finding : Finding) : (finding.below count).endpoint? =
      finding.endpoint?.map (Endpoint.below count) := by cases finding <;> rfl
  have helpers (finding : Finding) : (finding.below count).helper? =
      finding.helper?.map (Helper.below count) := by cases finding <;> rfl
  have diagnostics (finding : Finding) : (finding.below count).diagnostic? =
      finding.diagnostic?.map (Diagnostic.below count) := by cases finding <;> rfl
  simp only [ParsedSource.ofFindings, ParsedSource.below, List.filterMap_map, List.map_filterMap,
    Function.comp_def, endpoints, helpers, diagnostics]

/-- A text that is appended at the left margin is read as on its own, further down, and leaves
the text before it as it was read. -/
theorem parse_append (first second : Bytes) (ends : EndsLine first)
    (settled : ∀ report ∈ (parse first).diagnostics, report.cause.isCutShort = false)
    (margin : StartsAtMargin (lines second)) :
    parse (first ++ second) =
      (parse first).append ((parse second).below (lines first).length) := by
  have scanned : findings (first ++ second) =
      findings first ++ (findings second).map (Finding.below (lines first).length) := by
    unfold findings
    rw [lines_append first second ends, findingsFrom_append 1 none _ _ settled margin,
      ← findingsFrom_below]
    rfl
  unfold parse
  rw [scanned, ofFindings_append, ofFindings_below]

-- A decorator that is dropped, and a function that is still open at the end.
def openSource : Bytes :=
  ascii "@endpoint('/x')\nx = 1\n@endpoint('/a')\ndef a(\n    n=1,\n):\n    return n\n\n"

def furtherSource : Bytes := ascii "  \n\n@endpoint('/b')\ndef b():\n    return 2\n"

theorem parse_append_open :
    EndsLine openSource ∧
      (∀ report ∈ (parse openSource).diagnostics, report.cause.isCutShort = false) ∧
      StartsAtMargin (lines furtherSource) ∧
      ((parse (openSource ++ furtherSource)).endpoints.map Endpoint.line = [4, 12] ∧
        (parse (openSource ++ furtherSource)).diagnostics.map Diagnostic.line = [1]) := by
  have ends : EndsLine openSource := .inr rfl
  have settled : ∀ report ∈ (parse openSource).diagnostics, report.cause.isCutShort = false := by
    decide +kernel
  have margin : StartsAtMargin (lines furtherSource) := by decide +kernel
  refine ⟨ends, settled, margin, ?_⟩
  rw [parse_append openSource furtherSource ends settled margin]
  decide +kernel

end EndpointPreview.Notation
