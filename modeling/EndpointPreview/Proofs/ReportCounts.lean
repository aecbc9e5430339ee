import EndpointPreview.Notation.Validation
import EndpointPreview.Proofs.DecoratorBinding
import Mathlib.Data.Finset.Card
import Mathlib.Data.List.ProdSigma

/-!
What a report on a source counts. The errors come from three checks that go over the endpoints side
by side, and the warnings from three others; each check adds one message for each thing that it
finds, so the number of messages says how many there are.
-/

namespace EndpointPreview.Notation

open Text

def ParsedSource.signatures (parsed : ParsedSource) : List (List Parameter) :=
  parsed.endpoints.map Endpoint.parameters ++ parsed.helpers.map Helper.parameters

def variadicKinds : List ParameterKind := [.variadicPositional, .variadicKeyword]

def repeatedKinds (signatures : List (List Parameter)) : List (List Parameter × ParameterKind) :=
  (signatures.product variadicKinds).filter fun (parameters, kind) =>
    1 < parameters.countP (·.kind == kind)

def Endpoint.misrouted (endpoint : Endpoint) : Bool := endpoint.route.head? != some (byte '/')

def repeats (seen : List Bytes) : List Bytes → Nat
  | [] => 0
  | name :: names => (if name ∈ seen then 1 else 0) + repeats (name :: seen) names

theorem repeats_distinct (seen names : List Bytes) :
    repeats seen names + (names.toFinset \ seen.toFinset).card = names.length := by
  induction names generalizing seen with
  | nil => simp [repeats]
  | cons name names ih =>
      have further := ih (name :: seen)
      rw [List.toFinset_cons] at further
      rw [repeats, List.toFinset_cons, List.length_cons]
      by_cases known : name ∈ seen
      · have inside : name ∈ seen.toFinset := List.mem_toFinset.mpr known
        rw [Finset.insert_eq_of_mem inside] at further
        rw [if_pos known, Finset.insert_sdiff_of_mem _ inside]
        omega
      · have outside : name ∉ seen.toFinset := mt List.mem_toFinset.mp known
        -- The name itself is one more, whether or not it comes again.
        have one_more : insert name names.toFinset \ seen.toFinset =
            insert name (names.toFinset \ insert name seen.toFinset) := by
          ext other
          simp only [Finset.mem_sdiff, Finset.mem_insert]
          by_cases same : other = name
          · simp [same, outside]
          · simp [same]
        rw [if_neg known, one_more, Finset.card_insert_of_notMem (by simp)]
        omega

theorem repeats_eq (names : List Bytes) :
    repeats [] names = names.length - names.toFinset.card := by
  have whole := repeats_distinct [] names
  rw [List.toFinset_nil, Finset.sdiff_empty] at whole
  omega

theorem duplicateErrors_length (seen : List Bytes) (endpoint : Endpoint) :
    (duplicateErrors seen endpoint).length = if endpoint.name ∈ seen then 1 else 0 := by
  unfold duplicateErrors
  by_cases known : endpoint.name ∈ seen <;> simp [known]

theorem misrouted_iff (endpoint : Endpoint) :
    endpoint.misrouted = false ↔ startsWith (ascii "/") endpoint.route = true := by
  have slash : ascii "/" = [byte '/'] := rfl
  rw [slash, startsWith_byte, Endpoint.misrouted, bne_eq_false_iff_eq]

theorem routeErrors_length (endpoint : Endpoint) :
    (routeErrors endpoint).length = if endpoint.misrouted then 1 else 0 := by
  have same := misrouted_iff endpoint
  unfold routeErrors
  cases wrong : endpoint.misrouted with
  | false => simp [same.mp wrong]
  | true => simp [mt same.mpr (by simp [wrong])]

theorem variadicErrors_length (name : Bytes) (parameters : List Parameter) :
    (variadicErrors name parameters).length = (repeatedKinds [parameters]).length := by
  have pairs : [parameters].product variadicKinds =
      [(parameters, .variadicPositional), (parameters, .variadicKeyword)] := rfl
  unfold variadicErrors declaresTwice repeatedKinds
  rw [pairs, List.length_append, List.filter_cons, List.filter_cons, List.filter_nil]
  split <;> split <;> rfl

theorem repeatedKinds_append (first second : List (List Parameter)) :
    repeatedKinds (first ++ second) = repeatedKinds first ++ repeatedKinds second := by
  unfold repeatedKinds List.product
  rw [List.flatMap_append, List.filter_append]

theorem repeatedKinds_cons (parameters : List Parameter) (others : List (List Parameter)) :
    repeatedKinds (parameters :: others) = repeatedKinds [parameters] ++ repeatedKinds others :=
  repeatedKinds_append [parameters] others

theorem endpointErrors_length (seen : List Bytes) (endpoints : List Endpoint) :
    (endpointErrors seen endpoints).length =
      repeats seen (endpoints.map Endpoint.name) + endpoints.countP Endpoint.misrouted +
        (repeatedKinds (endpoints.map Endpoint.parameters)).length := by
  induction endpoints generalizing seen with
  | nil => rfl
  | cons endpoint rest ih =>
      rw [endpointErrors, List.map_cons, List.map_cons, repeats, repeatedKinds_cons,
        List.countP_cons]
      simp only [List.length_append, duplicateErrors_length, routeErrors_length,
        variadicErrors_length, ih]
      omega

theorem helperErrors_length (helpers : List Helper) :
    (helpers.flatMap helperErrors).length =
      (repeatedKinds (helpers.map Helper.parameters)).length := by
  induction helpers with
  | nil => rfl
  | cons helper rest ih =>
      rw [List.flatMap_cons, List.map_cons, repeatedKinds_cons, List.length_append,
        List.length_append, ih, helperErrors, variadicErrors_length]

theorem checkParsed_errors (parsed : ParsedSource) :
    (checkParsed parsed).errors.length =
      (parsed.endpoints.length - (parsed.endpoints.map Endpoint.name).toFinset.card) +
        parsed.endpoints.countP Endpoint.misrouted +
        (repeatedKinds parsed.signatures).length := by
  change (endpointErrors [] parsed.endpoints ++ parsed.helpers.flatMap helperErrors).length = _
  rw [List.length_append, endpointErrors_length, helperErrors_length, repeats_eq, List.length_map,
    ParsedSource.signatures, repeatedKinds_append, List.length_append]
  omega

theorem methodWarnings_length (endpoints : List Endpoint) :
    (endpoints.flatMap methodWarnings).length = endpoints.countP (·.method != ascii "GET") := by
  induction endpoints with
  | nil => rfl
  | cons endpoint rest ih =>
      have own : (methodWarnings endpoint).length =
          if endpoint.method != ascii "GET" then 1 else 0 := by
        unfold methodWarnings defaultMethod
        by_cases usual : endpoint.method = ascii "GET" <;> simp [usual]
      rw [List.flatMap_cons, List.length_append, List.countP_cons, ih, own]
      omega

theorem checkParsed_warnings (parsed : ParsedSource) :
    (checkParsed parsed).warnings.length =
      (if parsed.endpoints = [] then 1 else 0) +
        parsed.endpoints.countP (·.method != ascii "GET") + parsed.diagnostics.length := by
  have empty : (emptyWarnings parsed).length = if parsed.endpoints = [] then 1 else 0 := by
    unfold emptyWarnings
    by_cases none_found : parsed.endpoints = [] <;> simp [none_found]
  change (emptyWarnings parsed ++ parsed.endpoints.flatMap methodWarnings ++
    parsed.diagnostics.map diagnosticWarning).length = _
  rw [List.length_append, List.length_append, List.length_map, empty, methodWarnings_length]

theorem nodup_iff_distinct (names : List Bytes) :
    names.Nodup ↔ names.length - names.toFinset.card = 0 := by
  rw [List.card_toFinset, Nat.sub_eq_zero_iff_le, ← List.dedup_eq_self]
  constructor
  · intro same
    rw [same]
  · exact (List.dedup_sublist names).eq_of_length_le

theorem repeatedKinds_eq_nil (signatures : List (List Parameter)) :
    repeatedKinds signatures = [] ↔ ∀ parameters ∈ signatures, ∀ kind ∈ variadicKinds,
      parameters.countP (·.kind == kind) ≤ 1 := by
  unfold repeatedKinds
  rw [List.filter_eq_nil_iff]
  simp only [Prod.forall, List.pair_mem_product, decide_eq_true_eq, Nat.not_lt, and_imp]
  exact ⟨fun all parameters function kind variadic => all parameters kind function variadic,
    fun all parameters kind function variadic => all parameters function kind variadic⟩

structure ReportsExactly (report : ValidationReport) (parsed : ParsedSource) : Prop where
  valid : report.isValid = true ↔
    (parsed.endpoints.map Endpoint.name).Nodup ∧
      (∀ endpoint ∈ parsed.endpoints, endpoint.route.head? = some (byte '/')) ∧
      ∀ parameters ∈ parsed.signatures, ∀ kind ∈ variadicKinds,
        parameters.countP (·.kind == kind) ≤ 1
  errors : report.errors.length =
    (parsed.endpoints.length - (parsed.endpoints.map Endpoint.name).toFinset.card) +
      parsed.endpoints.countP (·.route.head? != some (byte '/')) +
      (repeatedKinds parsed.signatures).length
  warnings : report.warnings.length =
    (if parsed.endpoints = [] then 1 else 0) +
      parsed.endpoints.countP (·.method != ascii "GET") + parsed.diagnostics.length
  parsed : report.parsed = parsed

/-- A source is valid exactly when its endpoints have names of their own and routes that start with
a slash and no function has two variadic parameters of one kind; each fault is one error, and each
odd method and each diagnostic one warning. -/
theorem validateNotation_counts (source : Bytes) :
    ReportsExactly (validateNotation source) (parse source) where
  valid := by
    have count := checkParsed_errors (parse source)
    have all_routed : (parse source).endpoints.countP Endpoint.misrouted = 0 ↔
        ∀ endpoint ∈ (parse source).endpoints, endpoint.route.head? = some (byte '/') := by
      simp [List.countP_eq_zero, Endpoint.misrouted]
    have no_errors : (validateNotation source).isValid = true ↔
        (checkParsed (parse source)).errors.length = 0 := by
      rw [List.length_eq_zero_iff, ← List.isEmpty_iff]
      rfl
    rw [no_errors, count, nodup_iff_distinct, ← all_routed, ← repeatedKinds_eq_nil,
      ← List.length_eq_zero_iff, List.length_map]
    omega
  errors := checkParsed_errors (parse source)
  warnings := checkParsed_warnings (parse source)
  parsed := rfl

/-- Three endpoints of one name, two of them with faults of their own, and a helper. -/
example :
    let source := ascii ("@endpoint('/a')\ndef f(*a, *b, **c, **d): pass\n" ++
      "@endpoint('b', methods=['POST'])\ndef f(): pass\n@endpoint('c')\ndef f(*a): pass\n" ++
      "@endpoint()\ndef g(*a, *b): pass\n")
    (validateNotation source).errors.length = 2 + 2 + 3 ∧
      (validateNotation source).warnings.length = 0 + 1 + 1 := by decide +kernel

end EndpointPreview.Notation
