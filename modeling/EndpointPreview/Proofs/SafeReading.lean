import EndpointPreview.Notation.Module
import EndpointPreview.Notation.Validation
import EndpointPreview.Proofs.Functions
import EndpointPreview.Proofs.ReturnPositions
import EndpointPreview.Proofs.SourcePositions

/-!
What is done with a source by positions: it is read, checked, written as a conventional module,
and asked for the literals that its endpoints return. No step of this faults, whatever the bytes
of the source are. The first index into the lines of a body is the number of header lines, which
is neither negative nor larger than the number of lines that the body has.
-/

namespace EndpointPreview.ByPosition

open Text Notation

def opensWithSlash (route : Bytes) : Checked Bool := do
  if route.isEmpty then return false else firstIs (byte '/') route

def routeErrors (endpoint : Endpoint) : Checked (List Bytes) := do
  if ← opensWithSlash endpoint.route then return []
  else return [ascii "Endpoint \"" ++ endpoint.route ++ ascii "\" should start with \"/\""]

def endpointErrors (seen : List Bytes) : List Endpoint → Checked (List Bytes)
  | [] => return []
  | endpoint :: rest => do
      let wrong ← routeErrors endpoint
      let others ← endpointErrors (endpoint.name :: seen) rest
      return duplicateErrors seen endpoint ++ wrong ++
        variadicErrors endpoint.name endpoint.parameters ++ others

/-- The check of a source; what faults in it is what a handler around the check would report. -/
def checkSource (source : Bytes) : Checked ValidationReport := do
  let parsed ← parse source
  let errors ← endpointErrors [] parsed.endpoints
  return .make (errors ++ parsed.helpers.flatMap helperErrors)
    (emptyWarnings parsed ++ parsed.endpoints.flatMap methodWarnings ++
      parsed.diagnostics.map diagnosticWarning)
    parsed

theorem opensWithSlash_eq (route : Bytes) :
    opensWithSlash route = .ok (startsWith (ascii "/") route) := by
  by_cases empty : route = []
  · rw [empty]
    rfl
  · rw [opensWithSlash, if_neg (by simpa using empty), firstIs_eq _ empty]
    rfl

theorem routeErrors_eq (endpoint : Endpoint) :
    routeErrors endpoint = .ok (Notation.routeErrors endpoint) := by
  rw [routeErrors, opensWithSlash_eq, ok_bind, Notation.routeErrors]
  split <;> rfl

theorem endpointErrors_eq (seen : List Bytes) (endpoints : List Endpoint) :
    endpointErrors seen endpoints = .ok (Notation.endpointErrors seen endpoints) := by
  induction endpoints generalizing seen with
  | nil => rfl
  | cons endpoint rest ih =>
      rw [endpointErrors, routeErrors_eq, ok_bind, ih, ok_bind, Notation.endpointErrors]
      rfl

theorem checkSource_eq (source : Bytes) :
    checkSource source = .ok (validateNotation source) := by
  rw [checkSource, parse_eq, ok_bind, endpointErrors_eq, ok_bind]
  rfl

-- A count as the index of a line; a negative one is no index.
def toIndex : Int → Checked Nat
  | .ofNat index => return index
  | .negSucc _ => .error .underflow

def rowsBehind (rows : List Bytes) (index : Nat) : Checked (List Bytes) :=
  if index < rows.length then do
    let row ← itemAt rows index
    return row :: (← rowsBehind rows (index + 1))
  else return []
termination_by rows.length - index

def moduleLines (endpoint : Endpoint) : Checked (List Bytes) := do
  let rows ← lines endpoint.body
  let inner ← rowsBehind rows (← toIndex endpoint.headerLines)
  let written := inlineLines endpoint.inlineBody ++ inner.map shiftLine
  let opening :=
    [ [],
      ascii "@app.route(" ++ quoteRoute endpoint.route ++ ascii ")",
      ascii "@endpoint(" ++ quoteRoute endpoint.route ++ ascii ")",
      ascii "def " ++ endpoint.name ++ ascii "():" ]
  if endpoint.inlineBody.isEmpty && inner.all isBlank then
    return opening ++ (written ++ [indentation ++ indentation ++ ascii "pass"])
  else return opening ++ written

def renderModule (parsed : ParsedSource) : Checked Bytes := do
  let endpoints ← parsed.endpoints.mapM moduleLines
  return moduleOpening ++ endLines (parsed.helpers.flatMap Helper.moduleLines) ++
    endLines endpoints.flatten ++ moduleEnding

theorem rowsBehind_eq {rows rest : List Bytes} {index : Nat} (stands : rows.drop index = rest) :
    rowsBehind rows index = .ok rest := by
  induction rest generalizing index with
  | nil =>
      rw [rowsBehind, if_neg (Nat.not_lt.mpr (List.drop_eq_nil_iff.mp stands))]
      rfl
  | cons row rest ih =>
      rw [rowsBehind, if_pos (lt_length stands), itemAt_eq stands, ok_bind,
        ih (drop_next stands)]
      rfl

theorem moduleLines_eq {endpoint : Endpoint} (counted : 0 ≤ endpoint.headerLines) :
    moduleLines endpoint = .ok endpoint.moduleLines := by
  obtain ⟨count, headed⟩ := Int.eq_ofNat_of_zero_le counted
  have index : toIndex endpoint.headerLines = .ok count := by
    rw [headed]
    rfl
  have inner : endpoint.innerLines = (Text.lines endpoint.body).drop count := by
    rw [Endpoint.innerLines, linesAfter, if_neg (Int.not_lt.mpr counted), headed,
      Int.toNat_natCast]
  rw [moduleLines, lines_eq, ok_bind, index, ok_bind, rowsBehind_eq inner.symm, ok_bind,
    Endpoint.moduleLines, Endpoint.moduleBody]
  dsimp only
  split <;> rfl

theorem renderModule_eq {parsed : ParsedSource}
    (counted : ∀ endpoint ∈ parsed.endpoints, 0 ≤ endpoint.headerLines) :
    renderModule parsed = .ok (Notation.renderModule parsed) := by
  rw [renderModule,
    mapM_eq parsed.endpoints fun endpoint member => moduleLines_eq (counted endpoint member),
    ok_bind, ← List.flatMap_def]
  rfl

/-- The header of an endpoint is one line at least, and its lines are lines of the body. -/
theorem headerLines_inside (source : Bytes) (endpoint : Endpoint)
    (member : endpoint ∈ (Notation.parse source).endpoints) :
    1 ≤ endpoint.headerLines ∧ endpoint.headerLines ≤ (Text.lines endpoint.body).length := by
  cases endpoint_found source endpoint member with
  | endpoint line extra body rows text count =>
      have length : (Text.lines endpoint.body).length = extra.length + 1 + body.length := by
        rw [text, rows.lines_unlines, List.length_map, List.length_append, List.length_cons]
      rw [count, length]
      omega

/-- Whatever the bytes of a source are, nothing that is computed from it leaves a text or a list,
subtracts below zero or goes on without an end. -/
theorem source_never_faults [Json.Dialect] (source : Bytes) :
    parse source = .ok (Notation.parse source) ∧
      checkSource source = .ok (validateNotation source) ∧
      renderModule (Notation.parse source) = .ok (Notation.renderModule (Notation.parse source)) ∧
      (∀ endpoint ∈ (Notation.parse source).endpoints,
        returnLiteral endpoint = .ok endpoint.returnLiteral? ∧
          1 ≤ endpoint.headerLines ∧
          endpoint.headerLines ≤ (Text.lines endpoint.body).length) ∧
      ∀ line later header, Header.read line later = .found header →
        ∃ opened closed, openDefinition? (Text.trim line) = some (header.name, opened) ∧
          closeList? opened 0 later = some closed ∧
          closed.length = header.parameterText.length + 2 := by
  have headed := headerLines_inside source
  refine ⟨parse_eq source, checkSource_eq source, renderModule_eq fun endpoint member => ?_,
    fun endpoint member => ⟨returnLiteral_eq endpoint, headed endpoint member⟩, ?_⟩
  · have positive := (headed endpoint member).1
    omega
  · intro line later header found
    obtain ⟨opened, closed, _, _, opens, closes, -, length, -⟩ :=
      header_parameterText line later header found
    exact ⟨opened, closed, opens, closes, length⟩

end EndpointPreview.ByPosition
