import EndpointPreview.Proofs.Functions
import EndpointPreview.Proofs.QuotedRoutes

/-!
A module read again as decorator notation. The scan of a module is followed function by
function: each one starts where the one before has been closed by a row at the left
margin. Helpers may be swallowed by a helper before them that stands further left, as
long as none of their own rows reaches the margin; endpoints never are.
-/

namespace EndpointPreview.Notation

open Text

def isPlain (row : Bytes) : Bool :=
  !startsWithMarker (trim row) && (openDefinition? (trim row)).isNone

theorem read_plain (row : Bytes) (later : List Bytes) (plain : isPlain row = true) :
    startsWithMarker (trim row) = false ∧ Header.read row later = .absent := by
  simp only [isPlain, Bool.and_eq_true, Bool.not_eq_true', Option.isNone_iff_eq_none] at plain
  refine ⟨plain.1, ?_⟩
  unfold Header.read
  rw [plain.2]

theorem findings_plain (lineNumber : Nat) (rows later : List Bytes)
    (plain : rows.all isPlain = true) :
    findingsFrom lineNumber none (rows ++ later) =
      findingsFrom (lineNumber + rows.length) none later := by
  induction rows generalizing lineNumber with
  | nil => rfl
  | cons row rows ih =>
      rw [List.all_cons, Bool.and_eq_true] at plain
      obtain ⟨unmarked, absent⟩ := read_plain row (rows ++ later) plain.1
      have rest := ih (lineNumber + 1) plain.2
      rw [List.cons_append, findingsFrom, unmarked, absent]
      simp only [Bool.false_eq_true, ↓reduceIte, dropPending, List.nil_append, ite_self, rest,
        List.length_cons]
      congr 1
      omega

-- A function takes its rows and the rows `more` that its block goes on with.
theorem findings_function (lineNumber : Nat) (pending : Option Pending) (line : Bytes)
    (extra body stop : List Bytes) (header : Header)
    (unmarked : startsWithMarker (trim line) = false)
    (read : Header.read line (extra ++ (body ++ stop)) = .found header)
    (count : header.lineCount = extra.length + 1)
    (inside : ∀ row ∈ body, continuesBlock (indent line) row = true)
    (stops : ∀ row ∈ stop.head?, continuesBlock (indent line) row = false) :
    ∃ block next, block.rows = dropBlankEnd (line :: extra ++ body) ∧
      findingsFrom lineNumber pending (line :: (extra ++ (body ++ stop))) =
        functionFinding pending lineNumber header block :: findingsFrom next none stop := by
  have block := take_block line extra body stop inside stops
  refine ⟨⟨dropBlankEnd (line :: extra ++ body), extra.length + body.length⟩,
    lineNumber + 1 + (extra.length + body.length), rfl, ?_⟩
  rw [findingsFrom, unmarked, read]
  simp only [Bool.false_eq_true, ↓reduceIte, count, Nat.add_sub_cancel, block]
  rw [← List.append_assoc, ← List.length_append, List.drop_left]

-- The rows at which the scan goes on after a block: one at the left margin comes first.
def AtMargin (rows : List Bytes) : Prop :=
  ∃ first rest, rows = first :: rest ∧ isBlank first = false ∧ indent first = 0

theorem margin_stops (depth : Nat) (rows : List Bytes) (margin : AtMargin rows) :
    ∀ row ∈ rows.head?, continuesBlock depth row = false := by
  obtain ⟨first, rest, rfl, solid, left⟩ := margin
  intro row member
  simp only [List.head?_cons, Option.mem_some_iff] at member
  subst member
  simp [continuesBlock, solid, left]

structure Helper.Reads (helper : Helper) (line : Bytes) (extra body : List Bytes) : Prop where
  rows : FunctionRows helper.name line extra body
  text : lines helper.body = line :: extra ++ body
  hangs : ∀ row ∈ extra, isBlank row = true ∨ indent line ≤ indent row

-- The rows of helpers in a module, each helper with the blank row after it.
def helperRows (helpers : List Helper) : List Bytes :=
  helpers.flatMap fun helper => lines helper.body ++ [[]]

-- A block open at a depth swallows the helpers that stand deeper, and whole ones only.
theorem swallowed (depth : Nat) (helpers : List Helper) (stop : List Bytes)
    (reads : ∀ helper ∈ helpers, ∃ line extra body, helper.Reads line extra body)
    (margin : AtMargin stop) :
    ∃ taken left, helperRows helpers ++ stop = taken ++ (helperRows left ++ stop) ∧
      left <:+ helpers ∧ (∀ row ∈ taken, continuesBlock depth row = true) ∧
      ∀ row ∈ (helperRows left ++ stop).head?, continuesBlock depth row = false := by
  induction helpers with
  | nil => exact ⟨[], [], rfl, List.suffix_rfl, by simp, margin_stops depth stop margin⟩
  | cons helper helpers ih =>
      obtain ⟨line, extra, body, own⟩ := reads helper List.mem_cons_self
      by_cases deeper : continuesBlock depth line = true
      · obtain ⟨taken, left, whole, later, inside, stops⟩ :=
          ih fun h member => reads h (List.mem_cons_of_mem _ member)
        have below : depth < indent line := by
          simpa [continuesBlock, own.rows.line_solid] using deeper
        refine ⟨lines helper.body ++ [[]] ++ taken, left, ?_,
          later.trans (List.suffix_cons _ _), ?_, stops⟩
        · simp only [helperRows, List.flatMap_cons, List.append_assoc] at whole ⊢
          rw [whole]
        · intro row member
          rw [own.text] at member
          simp only [List.mem_append, List.mem_cons, List.not_mem_nil, or_false] at member
          rcases member with (((rfl | in_header) | in_body) | rfl) | later
          · exact deeper
          · rcases own.hangs row in_header with blank | right
            · simp [continuesBlock, blank]
            · have far : depth < indent row := Nat.lt_of_lt_of_le below right
              simp [continuesBlock, far]
          · have further := own.rows.inside row in_body
            simp only [continuesBlock, Bool.or_eq_true, decide_eq_true_eq] at further ⊢
            exact further.imp id (Nat.lt_trans below)
          · rfl
          · exact inside row later
      · refine ⟨[], helper :: helpers, rfl, List.suffix_rfl, by simp, ?_⟩
        intro row member
        -- The first helper that is not deeper stops the block with its first row.
        have first : (helperRows (helper :: helpers) ++ stop).head? = some line := by
          simp [helperRows, own.text]
        rw [first, Option.mem_some_iff] at member
        subst member
        simpa using deeper

/-- Helpers are read as helpers, and the scan goes on at the margin. -/
theorem findings_helpers (helpers : List Helper) (lineNumber : Nat) (stop : List Bytes)
    (reads : ∀ helper ∈ helpers, ∃ line extra body, helper.Reads line extra body)
    (margin : AtMargin stop) :
    ∃ found next, findingsFrom lineNumber none (helperRows helpers ++ stop) =
        found ++ findingsFrom next none stop ∧
      ∀ finding ∈ found, ∃ helper, finding = .helper helper := by
  -- A helper may swallow those after it, so the induction is on how many are left.
  induction measure : helpers.length using Nat.strong_induction_on
    generalizing helpers lineNumber with
  | _ size ih =>
      cases helpers with
      | nil => exact ⟨[], lineNumber, rfl, by simp⟩
      | cons helper helpers =>
          have later_reads : ∀ h ∈ helpers, ∃ line extra body, h.Reads line extra body :=
            fun h member => reads h (List.mem_cons_of_mem _ member)
          obtain ⟨line, extra, body, own⟩ := reads helper List.mem_cons_self
          obtain ⟨taken, left, whole, suffix, inside, stops⟩ :=
            swallowed (indent line) helpers stop later_reads margin
          obtain ⟨header, read, _, count⟩ := own.rows.header
            ((body ++ [] :: taken) ++ (helperRows left ++ stop))
          have block_inside : ∀ row ∈ body ++ [] :: taken,
              continuesBlock (indent line) row = true := by
            intro row member
            simp only [List.mem_append, List.mem_cons] at member
            rcases member with own_row | rfl | swallowed_row
            · exact own.rows.inside row own_row
            · rfl
            · exact inside row swallowed_row
          obtain ⟨block, next, _, first⟩ := findings_function lineNumber none line extra _ _ header
            own.rows.unmarked read count block_inside stops
          have left_reads : ∀ h ∈ left, ∃ line extra body, h.Reads line extra body :=
            fun h member => later_reads h (suffix.subset member)
          have fewer : left.length < size := by
            have bound := suffix.length_le
            simp only [List.length_cons] at measure
            omega
          obtain ⟨found, last, rest, kinds⟩ := ih left.length fewer left next left_reads rfl
          refine ⟨functionFinding none lineNumber header block :: found, last, ?_, ?_⟩
          · have rows : helperRows (helper :: helpers) ++ stop =
                line :: (extra ++ ((body ++ [] :: taken) ++ (helperRows left ++ stop))) := by
              simp only [helperRows, List.flatMap_cons, own.text] at whole ⊢
              simp only [List.append_assoc, List.cons_append, List.nil_append] at whole ⊢
              rw [whole]
            rw [rows, first, rest, List.cons_append]
          · intro finding member
            rcases List.mem_cons.mp member with rfl | later
            · exact ⟨_, rfl⟩
            · exact kinds finding later

def registrationRow (route : Bytes) : Bytes :=
  ascii "@app.route(" ++ quoteRoute route ++ ascii ")"

def definitionRow (name : Bytes) : Bytes := ascii "def " ++ name ++ ascii "():"

theorem registrationRow_plain (route : Bytes) : isPlain (registrationRow route) = true := by
  have trimmed : trim (registrationRow route) = registrationRow route :=
    trim_solid (byte '@') (byte ')') (ascii "app.route(" ++ quoteRoute route) rfl rfl
  unfold isPlain
  rw [trimmed]
  rfl

theorem decoratorRow_trim (route : Bytes) : trim (decoratorRow route) = decoratorRow route :=
  trim_solid (byte '@') (byte ')') (ascii "endpoint(" ++ quoteRoute route) rfl rfl

theorem definitionRow_trim (name : Bytes) : trim (definitionRow name) = definitionRow name := by
  have parts : definitionRow name = byte 'd' :: (ascii "ef " ++ name ++ ascii "()") ++ [byte ':'] := by
    simp [definitionRow, ascii]
  rw [parts]
  exact trim_solid _ _ _ rfl rfl

theorem wordByte_solid (b : UInt8) (word : isWordByte b = true) : isSpace b = false := by
  by_contra space
  have blank : isSpace b = true := by simpa using space
  rcases space_cases b blank with rfl | rfl | rfl | rfl | rfl | rfl <;> exact absurd word (by decide)

theorem definitionRow_read (name : Bytes) (later : List Bytes) (word : name.all isWordByte = true)
    (letter : (name.head?.map fun b => !isDigit b).getD false = true) :
    Header.read (definitionRow name) later = .found ⟨name, [], [], 1⟩ := by
  have opened : ((definitionRow name).drop 3).dropWhile isSpace = name ++ ascii "():" := by
    cases name with
    | nil => simp at letter
    | cons b name =>
        rw [List.all_cons, Bool.and_eq_true] at word
        change (byte ' ' :: b :: (name ++ ascii "():")).dropWhile isSpace = _
        rw [List.dropWhile_cons_of_pos rfl,
          List.dropWhile_cons_of_neg (by simp [wordByte_solid b word.1])]
        rfl
  have name_part : (name ++ ascii "():").takeWhile isWordByte = name := by
    rw [List.takeWhile_append_of_pos (List.all_eq_true.mp word)]
    exact List.append_nil name
  have list_part : (name ++ ascii "():").dropWhile isWordByte = ascii "():" := by
    rw [List.dropWhile_append_of_pos (List.all_eq_true.mp word)]
    rfl
  have opens : openDefinition? (definitionRow name) = some (name, ascii "():") := by
    unfold openDefinition?
    dsimp only
    rw [opened, name_part, list_part, letter]
    rfl
  unfold Header.read
  rw [definitionRow_trim, opens]
  cases later <;> rfl

theorem continuesBlock_shifted (row : Bytes) :
    continuesBlock 0 (indentation ++ row) = true := by
  have right := le_indentFrom 4 row
  have column : indent (indentation ++ row) = indentFrom 4 row := rfl
  have far : 0 < indent (indentation ++ row) := by omega
  simp [continuesBlock, far]

-- What holds of a blank row and of any indented one holds of the rows of a module's function.
theorem moduleBody_rows (endpoint : Endpoint) (holds : Bytes → Prop) (blank : holds [])
    (pass : holds (indentation ++ indentation ++ ascii "pass"))
    (inline_row : holds (indentation ++ indentation ++ endpoint.inlineBody))
    (shifted : ∀ row ∈ endpoint.innerLines, holds (indentation ++ row)) :
    ∀ row ∈ endpoint.moduleBody, holds row := by
  have written : ∀ row ∈ inlineLines endpoint.inlineBody ++ endpoint.innerLines.map shiftLine,
      holds row := by
    intro row member
    rcases List.mem_append.mp member with inlined | inner
    · unfold inlineLines at inlined
      split at inlined
      · cases inlined
      · rwa [List.mem_singleton.mp inlined]
    · obtain ⟨original, inside, rfl⟩ := List.mem_map.mp inner
      unfold shiftLine
      split
      · exact blank
      · exact shifted original inside
  intro row member
  unfold Endpoint.moduleBody at member
  dsimp only at member
  split at member
  · rcases List.mem_append.mp member with earlier | last
    · exact written row earlier
    · rwa [List.mem_singleton.mp last]
  · exact written row member

theorem moduleBody_inside (endpoint : Endpoint) :
    ∀ row ∈ endpoint.moduleBody, continuesBlock 0 row = true := by
  apply moduleBody_rows
  · rfl
  · rfl
  · rw [List.append_assoc]
    exact continuesBlock_shifted _
  · exact fun row _ => continuesBlock_shifted row

-- The rows of an endpoint below its header, as its text holds them.
theorem innerLines_found (endpoint : Endpoint) (line : Bytes) (extra body : List Bytes)
    (rows : FunctionRows endpoint.name line extra body)
    (text : endpoint.body = unlines (line :: extra ++ body))
    (count : endpoint.headerLines = extra.length + 1) :
    endpoint.innerLines = body.map chompReturn := by
  unfold Endpoint.innerLines linesAfter
  rw [text, rows.lines_unlines, count, if_neg (by omega)]
  simp

theorem shiftLine_solid (row : Bytes) (solid : isBlank row = false) :
    isBlank (shiftLine row) = false := by
  unfold shiftLine
  rw [if_neg (by simp [solid]), isBlank_append, solid, Bool.and_false]

-- The rows below a header end with one that is not blank.
theorem innerLines_solid (endpoint : Endpoint) (found : FunctionFound (.endpoint endpoint)) :
    endpoint.innerLines = [] ∨
      ∃ before last, endpoint.innerLines = before ++ [last] ∧ isBlank last = false := by
  cases found with
  | endpoint line extra body rows text count trimmed inline_single routed =>
  have inner := innerLines_found endpoint line extra body rows text count
  cases body using List.reverseRecOn with
  | nil => exact .inl inner
  | append_singleton body final =>
      right
      obtain ⟨before, last, whole, solid⟩ := rows.solid
      have same : final = last := by
        have ends := congrArg List.getLast? whole
        rw [← List.append_assoc, List.getLast?_concat, List.getLast?_concat] at ends
        exact Option.some.inj ends
      refine ⟨body.map chompReturn, chompReturn final, by simp [inner], ?_⟩
      rw [isBlank_chompReturn, same, solid]

theorem inlineBody_solid (endpoint : Endpoint) (found : FunctionFound (.endpoint endpoint))
    (written : endpoint.inlineBody ≠ []) : isBlank endpoint.inlineBody = false := by
  cases found with
  | endpoint line extra body rows text count trimmed inline_single routed =>
  by_contra blank
  have empty := (trim_eq_nil_iff endpoint.inlineBody).mpr (by simpa using blank)
  rw [trimmed] at empty
  exact written empty

-- The rows of an endpoint's function; one without statements passes.
theorem moduleBody_found (endpoint : Endpoint) (found : FunctionFound (.endpoint endpoint)) :
    endpoint.moduleBody =
      if endpoint.inlineBody = [] ∧ endpoint.innerLines = [] then
        [indentation ++ indentation ++ ascii "pass"]
      else inlineLines endpoint.inlineBody ++ endpoint.innerLines.map shiftLine := by
  unfold Endpoint.moduleBody
  rcases innerLines_solid endpoint found with empty | ⟨before, last, whole, solid⟩
  · by_cases written : endpoint.inlineBody = []
    · simp [written, empty, inlineLines]
    · simp [written, empty]
  · simp [whole, solid]

-- The rows below a generated header end with one that is not blank.
theorem moduleBody_solid (endpoint : Endpoint) (found : FunctionFound (.endpoint endpoint)) :
    ∃ before last, endpoint.moduleBody = before ++ [last] ∧ isBlank last = false := by
  rw [moduleBody_found endpoint found]
  split
  · exact ⟨[], _, rfl, by decide⟩
  · rename_i something
    rcases innerLines_solid endpoint found with empty | ⟨before, last, whole, solid⟩
    · have written : endpoint.inlineBody ≠ [] := fun nothing => something ⟨nothing, empty⟩
      refine ⟨[], indentation ++ indentation ++ endpoint.inlineBody, ?_, ?_⟩
      · simp [empty, inlineLines, written]
      · rw [isBlank_append, inlineBody_solid endpoint found written, Bool.and_false]
    · exact ⟨inlineLines endpoint.inlineBody ++ before.map shiftLine, shiftLine last,
        by simp [whole], shiftLine_solid last solid⟩

def Endpoint.reread (endpoint : Endpoint) (lineNumber : Nat) : Endpoint :=
  { name := endpoint.name
    route := endpoint.route
    method := defaultMethod
    parameters := []
    body := unlines (definitionRow endpoint.name :: endpoint.moduleBody.map chompReturn)
    line := lineNumber
    headerLines := 1
    inlineBody := [] }

def Endpoint.rows (endpoint : Endpoint) : List Bytes :=
  registrationRow endpoint.route :: decoratorRow endpoint.route ::
    definitionRow endpoint.name :: endpoint.moduleBody.map chompReturn

theorem findings_endpoint (lineNumber : Nat) (endpoint : Endpoint) (stop : List Bytes)
    (found : FunctionFound (.endpoint endpoint)) (one_row : newline ∉ endpoint.route)
    (margin : AtMargin stop) :
    ∃ next, findingsFrom lineNumber none (endpoint.rows ++ [] :: stop) =
      .endpoint (endpoint.reread (lineNumber + 2)) :: findingsFrom next none stop := by
  obtain ⟨before, last, whole, solid⟩ := moduleBody_solid endpoint found
  cases found with
  | endpoint line extra body rows text count trimmed inline_single routed =>
  have word := rows.word
  have inside : ∀ row ∈ endpoint.moduleBody.map chompReturn ++ [[]],
      continuesBlock (indent (definitionRow endpoint.name)) row = true := by
    intro row member
    rcases List.mem_append.mp member with own | blank
    · obtain ⟨original, inner, rfl⟩ := List.mem_map.mp own
      rw [FunctionRows.continuesBlock_chompReturn]
      exact moduleBody_inside endpoint original inner
    · rw [List.mem_singleton.mp blank]
      rfl
  obtain ⟨block, next, block_rows, function⟩ := findings_function (lineNumber + 2)
    (some ⟨⟨endpoint.route, defaultMethod⟩, lineNumber + 1⟩) (definitionRow endpoint.name) []
    (endpoint.moduleBody.map chompReturn ++ [[]]) stop ⟨endpoint.name, [], [], 1⟩
    (by rw [definitionRow_trim]; rfl) (definitionRow_read _ _ word.1 word.2) rfl inside
    (margin_stops _ stop margin)
  -- The blank row after the function is inside its block, and cut off at its end.
  have own_rows : block.rows = definitionRow endpoint.name :: endpoint.moduleBody.map chompReturn := by
    have chomped : isBlank (chompReturn last) = false := by rw [isBlank_chompReturn, solid]
    have ends := dropBlankEnd_after (definitionRow endpoint.name :: before.map chompReturn) [[]]
      (chompReturn last) chomped
    rw [block_rows, whole]
    simp only [List.map_append, List.map_cons, List.map_nil, List.append_assoc, List.cons_append,
      List.nil_append] at ends ⊢
    rw [ends]
    rfl
  refine ⟨next, ?_⟩
  have decorator_marked : startsWithMarker (decoratorRow endpoint.route) = true := rfl
  have registered := findings_plain lineNumber [registrationRow endpoint.route]
    (decoratorRow endpoint.route :: (definitionRow endpoint.name ::
      (endpoint.moduleBody.map chompReturn ++ [] :: stop)))
    (by simp [registrationRow_plain])
  have rows_split : endpoint.rows ++ [] :: stop = [registrationRow endpoint.route] ++
      decoratorRow endpoint.route :: (definitionRow endpoint.name ::
        (endpoint.moduleBody.map chompReturn ++ [] :: stop)) := rfl
  rw [rows_split, registered, findingsFrom, decoratorRow_trim, decorator_marked,
    decoratorRow_read _ routed one_row]
  simp only [↓reduceIte, dropPending, List.nil_append, List.length_singleton]
  simp only [List.nil_append, List.append_assoc, List.singleton_append] at function
  rw [function]
  simp only [functionFinding, own_rows, Endpoint.reread]
  rfl

theorem findings_endpoints (endpoints : List Endpoint) (lineNumber : Nat) (stop : List Bytes)
    (found : ∀ endpoint ∈ endpoints, FunctionFound (.endpoint endpoint))
    (one_row : ∀ endpoint ∈ endpoints, newline ∉ endpoint.route) (margin : AtMargin stop) :
    ∃ again next, findingsFrom lineNumber none
        ((endpoints.flatMap fun endpoint => endpoint.rows ++ [[]]) ++ stop) =
        again.map .endpoint ++ findingsFrom next none stop ∧
      List.Forall₂ (fun before after => ∃ line, after = before.reread line) endpoints again := by
  induction endpoints generalizing lineNumber with
  | nil => exact ⟨[], lineNumber, rfl, .nil⟩
  | cons endpoint endpoints ih =>
      let later := (endpoints.flatMap fun endpoint => endpoint.rows ++ [[]]) ++ stop
      have later_margin : AtMargin later := by
        cases endpoints with
        | nil => exact margin
        | cons next endpoints => exact ⟨registrationRow next.route, _, rfl, rfl, rfl⟩
      obtain ⟨next, first⟩ := findings_endpoint lineNumber endpoint later
        (found endpoint List.mem_cons_self) (one_row endpoint List.mem_cons_self) later_margin
      obtain ⟨again, last, rest, pairs⟩ := ih next
        (fun e member => found e (List.mem_cons_of_mem _ member))
        (fun e member => one_row e (List.mem_cons_of_mem _ member))
      refine ⟨endpoint.reread (lineNumber + 2) :: again, last, ?_, .cons ⟨_, rfl⟩ pairs⟩
      have rows : (((endpoint :: endpoints).flatMap fun endpoint => endpoint.rows ++ [[]]) ++ stop) =
          endpoint.rows ++ [] :: later := by
        simp [later]
      rw [rows, first, rest]
      rfl

theorem endLines_append (rows more : List Bytes) :
    endLines (rows ++ more) = endLines rows ++ endLines more := List.flatMap_append

theorem endLines_unlines (row : Bytes) (rest : List Bytes) :
    unlines (row :: rest) ++ [newline] = endLines (row :: rest) := by
  induction rest generalizing row with
  | nil => simp [unlines, joinWith, endLines]
  | cons next rest ih =>
      have later := ih next
      rw [unlines_cons, List.append_assoc, List.cons_append, later]
      simp [endLines]

theorem lines_endLines (rows : List Bytes) (rest : Bytes)
    (single : ∀ row ∈ rows, newline ∉ row) :
    lines (endLines rows ++ rest) = rows.map chompReturn ++ lines rest := by
  induction rows with
  | nil => rfl
  | cons row rows ih =>
      have later := ih fun r member => single r (List.mem_cons_of_mem _ member)
      have split : endLines (row :: rows) ++ rest = row ++ newline :: (endLines rows ++ rest) := by
        simp [endLines]
      unfold lines at later ⊢
      rw [split, rawLines_row row _ (single row List.mem_cons_self), List.map_cons, later]
      rfl

-- Blank rows before each of some rows, and one more, seen as blank rows after each.
theorem rotate_blank {Item : Type} (rows : Item → List Bytes) (items : List Item)
    (stop : List Bytes) :
    (items.flatMap fun item => [] :: rows item) ++ [] :: stop =
      [] :: ((items.flatMap fun item => rows item ++ [[]]) ++ stop) := by
  induction items with
  | nil => rfl
  | cons item items ih =>
      rw [List.flatMap_cons, List.flatMap_cons, List.append_assoc, ih]
      simp

theorem lines_helpers (helpers : List Helper) (rest : Bytes)
    (found : ∀ helper ∈ helpers, FunctionFound (.helper helper)) :
    lines (endLines (helpers.flatMap Helper.moduleLines) ++ rest) =
      (helpers.flatMap fun helper => [] :: lines helper.body) ++ lines rest := by
  induction helpers with
  | nil => rfl
  | cons helper helpers ih =>
      have later := ih fun h member => found h (List.mem_cons_of_mem _ member)
      cases found helper List.mem_cons_self with
      | helper line extra body rows text =>
      have own : endLines helper.moduleLines = endLines ([] :: (line :: extra ++ body)) := by
        have whole := endLines_unlines line (extra ++ body)
        simp only [Helper.moduleLines, endLines, List.flatMap_cons, List.flatMap_nil,
          List.append_nil, text, List.cons_append] at whole ⊢
        rw [whole]
      have single : ∀ row ∈ [] :: (line :: extra ++ body), newline ∉ row := by
        intro row member
        rcases List.mem_cons.mp member with rfl | inside
        · simp
        · exact rows.single row inside
      rw [List.flatMap_cons, endLines_append, List.append_assoc, own, lines_endLines _ _ single,
        later, List.flatMap_cons, text, rows.lines_unlines, List.append_assoc]
      rfl

theorem newline_not_mem_quoteRoute (route : Bytes) (one_row : newline ∉ route) :
    newline ∉ quoteRoute route := by
  intro member
  unfold quoteRoute at member
  simp only [List.cons_append, List.mem_cons, List.mem_append, List.mem_flatMap,
    List.not_mem_nil, or_false] at member
  rcases member with opening | ⟨b, inside, written⟩ | closing
  · exact absurd opening (by decide)
  · unfold quoteRouteByte at written
    split at written
    · rcases List.mem_cons.mp written with escape | own
      · exact absurd escape (by decide)
      · exact one_row (List.mem_singleton.mp own ▸ inside)
    · exact one_row (List.mem_singleton.mp written ▸ inside)
  · exact absurd closing (by decide)

theorem newline_not_mem_definitionRow (name : Bytes) (word : name.all isWordByte = true) :
    newline ∉ definitionRow name := by
  intro member
  unfold definitionRow at member
  rcases List.mem_append.mp member with front | last
  · rcases List.mem_append.mp front with first | inside
    · exact absurd first (by decide)
    · exact absurd (List.all_eq_true.mp word _ inside) (by decide)
  · exact absurd last (by decide)

theorem newline_not_mem_shifted (row : Bytes) (single : newline ∉ row) :
    newline ∉ indentation ++ row := by
  intro member
  rcases List.mem_append.mp member with indented | own
  · exact absurd indented (by decide)
  · exact single own

theorem moduleBody_single (endpoint : Endpoint) (found : FunctionFound (.endpoint endpoint)) :
    ∀ row ∈ endpoint.moduleBody, newline ∉ row := by
  cases found with
  | endpoint line extra body rows text count trimmed inline_single routed =>
  apply moduleBody_rows
  · simp
  · decide
  · rw [List.append_assoc]
    exact newline_not_mem_shifted _ (newline_not_mem_shifted _ inline_single)
  · intro row in_inner
    rw [innerLines_found endpoint line extra body rows text count] at in_inner
    obtain ⟨source, in_body, rfl⟩ := List.mem_map.mp in_inner
    have clear : newline ∉ source := rows.single source (List.mem_append_right _ in_body)
    exact newline_not_mem_shifted _ fun member => clear (mem_chompReturn _ _ member)

theorem lines_endpoints (endpoints : List Endpoint) (rest : Bytes)
    (found : ∀ endpoint ∈ endpoints, FunctionFound (.endpoint endpoint))
    (one_row : ∀ endpoint ∈ endpoints, newline ∉ endpoint.route) :
    lines (endLines (endpoints.flatMap Endpoint.moduleLines) ++ rest) =
      (endpoints.flatMap fun endpoint => [] :: endpoint.rows) ++ lines rest := by
  have single : ∀ row ∈ endpoints.flatMap Endpoint.moduleLines, newline ∉ row := by
    intro row member
    obtain ⟨endpoint, inside, own⟩ := List.mem_flatMap.mp member
    have quoted := newline_not_mem_quoteRoute _ (one_row endpoint inside)
    have own_found := found endpoint inside
    have body := moduleBody_single endpoint own_found
    cases own_found with
    | endpoint line extra _ rows =>
    simp only [Endpoint.moduleLines, List.cons_append, List.nil_append, List.mem_cons] at own
    rcases own with rfl | rfl | rfl | rfl | in_body
    · simp
    · simp only [List.mem_append, not_or]
      exact ⟨⟨by decide, quoted⟩, by decide⟩
    · simp only [List.mem_append, not_or]
      exact ⟨⟨by decide, quoted⟩, by decide⟩
    · exact newline_not_mem_definitionRow _ rows.word.1
    · exact body row in_body
  rw [lines_endLines _ _ single, List.map_flatMap]
  congr 1
  apply List.flatMap_congr
  intro endpoint inside
  have registration := chompReturn_concat (ascii "@app.route(" ++ quoteRoute endpoint.route)
    (byte ')') (by decide)
  have decorator := chompReturn_concat (ascii "@endpoint(" ++ quoteRoute endpoint.route)
    (byte ')') (by decide)
  have definition := chompReturn_concat (ascii "def " ++ endpoint.name ++ ascii "()")
    (byte ':') (by decide)
  have definition_parts : definitionRow endpoint.name =
      ascii "def " ++ endpoint.name ++ ascii "()" ++ [byte ':'] := by
    simp [definitionRow, ascii]
  rw [← definition_parts] at definition
  simp only [Endpoint.moduleLines, Endpoint.rows, List.cons_append, List.nil_append,
    List.map_cons]
  rw [show ascii ")" = [byte ')'] from rfl, registration, decorator]
  change _ :: _ :: _ :: chompReturn (definitionRow endpoint.name) :: _ = _
  rw [definition]
  rfl

end EndpointPreview.Notation
