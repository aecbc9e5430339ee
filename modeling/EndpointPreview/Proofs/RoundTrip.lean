import EndpointPreview.Proofs.GeneratedModule

/-!
Generation and reading agree: the module of a source holds the functions of the source,
and no others.
-/

namespace EndpointPreview.Notation

open Text

/-- The statements of an endpoint in a module: the one behind its colon and the rows
below its header, indented further. -/
def Endpoint.statementRows (endpoint : Endpoint) : List Bytes :=
  (if endpoint.inlineBody = [] then [] else [indentation ++ indentation ++ endpoint.inlineBody]) ++
    ((lines endpoint.body).drop endpoint.headerLines.toNat).map fun row =>
      if isBlank row then [] else indentation ++ row

/-- The rows of an endpoint's function in a module; one without statements passes. -/
def Endpoint.functionRows (endpoint : Endpoint) : List Bytes :=
  definitionRow endpoint.name ::
    if endpoint.statementRows = [] then [indentation ++ indentation ++ ascii "pass"]
    else endpoint.statementRows

theorem functionRows_found (endpoint : Endpoint) (found : FunctionFound (.endpoint endpoint)) :
    endpoint.functionRows = definitionRow endpoint.name :: endpoint.moduleBody := by
  have below : endpoint.innerLines = (lines endpoint.body).drop endpoint.headerLines.toNat := by
    cases found with
    | endpoint line extra body rows text count trimmed inline_single routed =>
    unfold Endpoint.innerLines linesAfter
    rw [if_neg (by omega)]
  have statements : endpoint.statementRows =
      inlineLines endpoint.inlineBody ++ endpoint.innerLines.map shiftLine := by
    rw [below]
    simp only [Endpoint.statementRows, inlineLines, List.isEmpty_iff]
    rfl
  have nothing : endpoint.statementRows = [] ↔
      endpoint.inlineBody = [] ∧ endpoint.innerLines = [] := by
    simp [statements, inlineLines]
  rw [moduleBody_found endpoint found]
  simp only [Endpoint.functionRows, nothing]
  rw [statements]

-- Reading gives the rows of an endpoint's function, but for carriage returns.
theorem lines_reread (endpoint : Endpoint) (lineNumber : Nat)
    (found : FunctionFound (.endpoint endpoint)) :
    lines (endpoint.reread lineNumber).body =
      (definitionRow endpoint.name :: endpoint.moduleBody.map chompReturn).map chompReturn := by
  have single := moduleBody_single endpoint found
  obtain ⟨before, final, whole, solid⟩ := moduleBody_solid endpoint found
  have word : endpoint.name.all isWordByte = true := by
    cases found with
    | endpoint line extra body rows => exact rows.word.1
  apply lines_unlines
  · intro row member
    rcases List.mem_cons.mp member with rfl | inside
    · exact newline_not_mem_definitionRow _ word
    · obtain ⟨original, own, rfl⟩ := List.mem_map.mp inside
      exact fun found => single original own (mem_chompReturn _ _ found)
  · intro row last
    have same : row = chompReturn final := by
      rw [whole, List.map_append, List.map_singleton, ← List.cons_append,
        List.getLast?_concat, Option.mem_some_iff] at last
      exact last.symm
    rintro rfl
    rw [← isBlank_chompReturn, ← same] at solid
    cases solid

structure Endpoint.Kept (before after : Endpoint) : Prop where
  name : after.name = before.name
  route : after.route = before.route
  rows : (lines after.body).map stripReturns = before.functionRows.map stripReturns

theorem kept_reread (endpoint : Endpoint) (lineNumber : Nat)
    (found : FunctionFound (.endpoint endpoint)) : endpoint.Kept (endpoint.reread lineNumber) where
  name := rfl
  route := rfl
  rows := by
    have chomped : stripReturns ∘ chompReturn = stripReturns := funext stripReturns_chompReturn
    rw [lines_reread endpoint lineNumber found, functionRows_found endpoint found, List.map_map,
      chomped, List.map_cons, List.map_map, chomped]
    rfl

theorem parse_renderModule (source : Bytes)
    (one_row : ∀ endpoint ∈ (parse source).endpoints, newline ∉ endpoint.route)
    (margin : ∀ helper ∈ (parse source).helpers, helper.unindented) :
    (parse (renderModule (parse source))).diagnostics = [] ∧
      List.Forall₂ Endpoint.Kept (parse source).endpoints
        (parse (renderModule (parse source))).endpoints := by
  have found := endpoint_found source
  have helpers := helper_found source
  have reads : ∀ helper ∈ (parse source).helpers, ∃ line extra body,
      helper.Reads line extra body := fun helper member =>
    reads_hanging helper (helpers helper member) (helper.unindented_hangs (margin helper member))
  obtain ⟨before, again, after, whole, kinds, pairs, ending⟩ :=
    findings_module (parse source) (parse source).endpoints [] (List.append_nil _).symm helpers reads
      found one_row
  have again_read : parse (renderModule (parse source)) =
      .ofFindings (before ++ (again.map .endpoint ++ after)) := congrArg _ whole
  rw [again_read, endpoints_after_helpers _ _ _ kinds, diagnostics_after_helpers _ _ _ kinds,
    ending rfl]
  constructor
  · rfl
  · rw [List.filterMap_nil, List.append_nil]
    clear reads one_row whole again_read
    generalize (parse source).endpoints = own at pairs found
    induction pairs with
    | nil => exact .nil
    | cons reread rest ih =>
        obtain ⟨lineNumber, rfl⟩ := reread
        exact .cons (kept_reread _ lineNumber (found _ List.mem_cons_self))
          (ih fun e member => found e (List.mem_cons_of_mem _ member))

/-- A helper, a one-line function, a header over two rows, and a body with a blank row. -/
def mixedSource : Bytes := ascii (
  "def helper(x):\n    return x\n\n@endpoint('/a')\ndef one(): return 1\n" ++
  "@endpoint('/it\\'s')\ndef two(a,\n        b):\n    c = a\n\n\treturn c\r\n")

theorem parse_renderModule_mixed :
    (parse (renderModule (parse mixedSource))).diagnostics = [] ∧
      List.Forall₂ Endpoint.Kept (parse mixedSource).endpoints
        (parse (renderModule (parse mixedSource))).endpoints :=
  parse_renderModule mixedSource (by decide +kernel) (by decide +kernel)

end EndpointPreview.Notation
