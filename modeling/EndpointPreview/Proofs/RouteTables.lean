import EndpointPreview.Preview.Network
import EndpointPreview.Proofs.WholeSources

/-!
The table of a simulated server. On the route of an endpoint it holds the payload that was last
assigned to the path, else the canned one, else the literal of the last endpoint on the route that
returns one; a path that is not in the table gets the generic payload. All of these have JSON
texts when the assigned ones do and the source is in UTF-8.
-/

namespace EndpointPreview.Preview

open Text Notation

def wellKnown? (overrides : Routes) (path : Bytes) : Option Json :=
  (overrides.reverse.lookup path).or (cannedEndpoints.get? path)

def lastLiteral? [Json.Dialect] (route : Bytes) (endpoints : List Endpoint) : Option Json :=
  endpoints.reverse.findSome? fun endpoint =>
    if endpoint.route = route then endpoint.returnLiteral? else none

def routePayload [Json.Dialect] (overrides : Routes) (source : Bytes) (now : Millis)
    (route : Bytes) : Json :=
  ((wellKnown? overrides route).or (lastLiteral? route (parse source).endpoints)).getD
    (genericPayload now route)

theorem override_canned (overrides : Routes) (path : Bytes) :
    (Routes.override overrides cannedEndpoints).get? path = wellKnown? overrides path :=
  Table.find?_setAll precedes_orders path overrides cannedEndpoints

theorem lookup_rows [Json.Dialect] (canned : Routes) (route : Bytes) (endpoints : List Endpoint) :
    (endpoints.filterMap (endpointRow? canned)).lookup route =
      endpoints.findSome? fun endpoint =>
        if endpoint.route = route then endpointPayload? canned endpoint else none := by
  induction endpoints with
  | nil => rfl
  | cons endpoint rest ih =>
      rw [List.filterMap_cons, List.findSome?_cons]
      cases own : endpointPayload? canned endpoint with
      | none =>
          have no_row : endpointRow? canned endpoint = none := by simp [endpointRow?, own]
          simp only [no_row, ite_self]
          exact ih
      | some payload =>
          have row : endpointRow? canned endpoint = some (endpoint.route, payload) := by
            simp [endpointRow?, own]
          simp only [row, List.lookup_cons]
          by_cases here : endpoint.route = route
          · simp [here]
          · have elsewhere : (route == endpoint.route) = false :=
              beq_eq_false_iff_ne.mpr (Ne.symm here)
            simp only [elsewhere, if_neg here]
            exact ih

-- All endpoints on a well-known route have its payload; on another one each has its own literal.
theorem first_payload [Json.Dialect] (canned : Routes) (route : Bytes) (endpoints : List Endpoint)
    (served : ∃ endpoint ∈ endpoints, endpoint.route = route) :
    (endpoints.findSome? fun endpoint =>
        if endpoint.route = route then endpointPayload? canned endpoint else none) =
      (canned.get? route).or (endpoints.findSome? fun endpoint =>
        if endpoint.route = route then endpoint.returnLiteral? else none) := by
  have own (endpoint : Endpoint) (here : endpoint.route = route) :
      endpointPayload? canned endpoint = (canned.get? route).or endpoint.returnLiteral? := by
    rw [endpointPayload?, here]
  cases known : canned.get? route with
  | none =>
      rw [Option.none_or]
      congr 1
      funext endpoint
      by_cases here : endpoint.route = route
      · rw [if_pos here, if_pos here, own endpoint here, known, Option.none_or]
      · rw [if_neg here, if_neg here]
  | some payload =>
      have each (endpoint : Endpoint) (here : endpoint.route = route) :
          endpointPayload? canned endpoint = some payload := by
        rw [own endpoint here, known, Option.some_or]
      rw [Option.some_or]
      cases found : endpoints.findSome? fun endpoint =>
          if endpoint.route = route then endpointPayload? canned endpoint else none with
      | none =>
          obtain ⟨endpoint, member, here⟩ := served
          have missed := List.findSome?_eq_none_iff.mp found endpoint member
          rw [if_pos here, each endpoint here] at missed
          cases missed
      | some first =>
          obtain ⟨endpoint, _, made⟩ := List.exists_of_findSome?_eq_some found
          split at made
          · rename_i here
            rw [each endpoint here] at made
            exact made.symm
          · cases made

/-- The table holds on the route of an endpoint what stands there. -/
theorem routesOf_endpoint [Json.Dialect] (source : Bytes) (overrides : Routes)
    (marked : hasMarker source = true) (endpoint : Endpoint)
    (member : endpoint ∈ (parse source).endpoints) :
    (routesOf source overrides).get? endpoint.route =
      (wellKnown? overrides endpoint.route).or
        (lastLiteral? endpoint.route (parse source).endpoints) := by
  unfold routesOf Routes.get?
  rw [if_pos marked, Table.find?_ofList precedes_orders, ← List.filterMap_reverse, lookup_rows,
    first_payload _ _ _ ⟨endpoint, List.mem_reverse.mpr member, rfl⟩, override_canned]
  rfl

theorem cannedEndpoints_text : ∀ entry ∈ cannedEndpoints, entry.2.isText = true := by
  decide +kernel

theorem wellKnown_text (overrides : Routes)
    (text : ∀ entry ∈ overrides, entry.2.isText = true) (path : Bytes) (payload : Json)
    (known : wellKnown? overrides path = some payload) : payload.isText = true := by
  rcases Option.or_eq_some_iff.mp known with assigned | ⟨_, canned⟩
  · obtain ⟨before, after, whole, _⟩ := List.lookup_eq_some_iff.mp assigned
    apply text (path, payload)
    rw [← List.mem_reverse, whole]
    exact List.mem_append_right _ List.mem_cons_self
  · exact cannedEndpoints_text (path, payload)
      (Table.mem_of_find? precedes_orders path payload cannedEndpoints canned)

theorem lastLiteral_text [Json.Dialect] (source route : Bytes) (valid : Utf8.isValid source = true)
    (payload : Json) (found : lastLiteral? route (parse source).endpoints = some payload) :
    payload.isText = true := by
  obtain ⟨endpoint, member, own⟩ := List.exists_of_findSome?_eq_some found
  split at own
  · exact returned_isText source valid endpoint (List.mem_reverse.mp member) payload own
  · cases own

theorem genericPayload_text (now : Millis) (path : Bytes) (valid : Utf8.isValid path = true) :
    (genericPayload now path).isText = true := by
  have greeting : Utf8.isValid (ascii "Mock response for " ++ path) = true :=
    Utf8.isValid_append _ _ (by decide) valid
  have clock := Utf8.isValid_plain _ (timestamp_plain now)
  apply Json.isText_object
  simp only [List.forall_mem_cons]
  exact ⟨⟨by decide, greeting⟩, ⟨by decide, by decide⟩, ⟨by decide, valid⟩, ⟨by decide, clock⟩,
    fun _ member => absurd member List.not_mem_nil⟩

/-- What is answered on the route of an endpoint has a JSON text. -/
theorem routePayload_text [Json.Dialect] (overrides : Routes) (source : Bytes) (now : Millis)
    (text : ∀ entry ∈ overrides, entry.2.isText = true) (valid : Utf8.isValid source = true)
    (endpoint : Endpoint) (member : endpoint ∈ (parse source).endpoints) :
    (routePayload overrides source now endpoint.route).isText = true := by
  unfold routePayload
  cases found : (wellKnown? overrides endpoint.route).or
      (lastLiteral? endpoint.route (parse source).endpoints) with
  | none => exact genericPayload_text now _ (endpoint_whole source valid endpoint member).route
  | some payload =>
      rcases Option.or_eq_some_iff.mp found with known | ⟨_, literal⟩
      · exact wellKnown_text overrides text _ payload known
      · exact lastLiteral_text source _ valid payload literal

end EndpointPreview.Preview
