import EndpointPreview.Execution.Service
import EndpointPreview.Proofs.BarePaths
import EndpointPreview.StrictFormats

/-!
Where an execution service is called. The text of its base URL, without the slashes at its end, is
put in front of a path. That leads to the path below the base URL when the base URL ends with its
path and names something behind its scheme. With a question mark or a hash in it the path is a part
of the query or of the fragment; and with nothing but slashes behind the scheme it is a path of
this machine.
-/

namespace EndpointPreview.Text

def unslashed (text : Bytes) : Bytes := dropEndWhile (· == byte '/') text

theorem unslashed_append (left right : Bytes) :
    unslashed (left ++ right) =
      if right.all (· == byte '/') then unslashed left else left ++ unslashed right := by
  simp only [unslashed, dropEndWhile_eq, rdropWhile_append]

theorem unslashed_cons (b : UInt8) (rest : Bytes) (solid : b ≠ byte '/') :
    unslashed (b :: rest) = b :: unslashed rest := by
  have alone : unslashed [b] = [b] := by simpa [unslashed, dropEndWhile] using solid
  rw [← List.singleton_append, unslashed_append, alone]
  split
  · rename_i slashes
    have none_left := unslashed_append [] rest
    rw [List.nil_append, if_pos slashes] at none_left
    rw [none_left]
    rfl
  · rfl

/-- A text without slashes keeps all of itself in front of others. -/
theorem unslashed_behind (front rest : Bytes) (unslashed_front : byte '/' ∉ front) :
    unslashed (front ++ rest) = front ++ unslashed rest := by
  induction front with
  | nil => rfl
  | cons b front ih =>
      have solid : b ≠ byte '/' := by
        rintro rfl
        exact unslashed_front List.mem_cons_self
      rw [List.cons_append, unslashed_cons b _ solid,
        ih fun member => unslashed_front (List.mem_cons_of_mem b member)]
      rfl

theorem unslashed_front (text : Bytes) : unslashed text <+: text := by
  rw [unslashed, dropEndWhile_eq]
  exact List.rdropWhile_prefix _ _

/-- What is left does not end with a slash. -/
theorem unslashed_last (text : Bytes) : ∀ b ∈ (unslashed text).getLast?, b ≠ byte '/' := by
  intro b last
  have nonempty : unslashed text ≠ [] := by
    intro empty
    rw [empty] at last
    cases last
  have solid := List.rdropWhile_last_not (· == byte '/') text nonempty
  have same : (unslashed text).getLast nonempty = b := by
    rw [List.getLast?_eq_some_getLast nonempty] at last
    exact Option.some.inj last
  change ¬ ((unslashed text).getLast nonempty == byte '/') = true at solid
  rw [same] at solid
  simpa using solid

end EndpointPreview.Text

namespace EndpointPreview.Http.Url

open Text

-- A path of the service: it opens with one slash, and holds neither the mark of a scheme nor a
-- question mark nor a hash.
structure IsRoute (path : Bytes) : Prop where
  opens : ∃ first more, path = byte '/' :: first :: more ∧ first ≠ byte '/'
  unmarked : ¬ schemeMark <:+: path
  plain : ∀ b ∈ path, endsPath b = false

theorem plain_of_any (text : Bytes) (unended : text.any endsPath = false) :
    ∀ b ∈ text, endsPath b = false :=
  fun b member => Bool.eq_false_iff.mpr (List.any_eq_false.mp unended b member)

theorem IsRoute.head {path : Bytes} (route : IsRoute path) : path.head? = some (byte '/') := by
  obtain ⟨first, more, rfl, _⟩ := route.opens
  rfl

-- The mark ends with two slashes, so it does not go over the seam between a text without a slash at
-- its end and one with a single slash at its front.
theorem unmarked_append (left path : Bytes) (route : IsRoute path)
    (ends : ∀ b ∈ left.getLast?, b ≠ byte '/') (unmarked : ¬ schemeMark <:+: left) :
    ¬ schemeMark <:+: left ++ path := by
  rw [List.infix_append_iff_ne_nil]
  rintro (inside | inside | ⟨front, back, solid, more, whole, ⟨before, own⟩, ⟨after, behind⟩⟩)
  · exact unmarked inside
  · exact route.unmarked inside
  · obtain ⟨first, rest, rfl, other⟩ := route.opens
    have whole : [byte ':', byte '/', byte '/'] = front ++ back := whole
    match front, back, solid, more with
    | [_], _ :: back, _, _ =>
        obtain ⟨rfl, rfl, rfl⟩ : byte ':' = _ ∧ byte '/' = _ ∧ [byte '/'] = back := by
          simpa using whole
        exact other (List.cons.inj (List.cons.inj behind).2).1.symm
    | [_, _], _ :: _, _, _ =>
        obtain ⟨rfl, rfl, _⟩ : byte ':' = _ ∧ byte '/' = _ ∧ byte '/' = _ ∧ [] = _ := by
          simpa using whole
        exact ends (byte '/') (by rw [← own]; simp) rfl
    | _ :: _ :: _ :: _, _ :: _, _, _ => simp at whole

theorem rooted_slash (text : Bytes) (slash : text.head? = some (byte '/')) :
    rooted text = text := by
  simp [rooted, slash]

theorem rooted_other (text : Bytes) (other : text.head? ≠ some (byte '/')) :
    rooted text = byte '/' :: text := by
  simpa [rooted] using other

/-- The path behind a text without its slashes at the end is the path of that text, without them,
and the path. -/
theorem rooted_unslashed (text path : Bytes) (slash : path.head? = some (byte '/')) :
    rooted (unslashed text ++ path) = unslashed (rooted text) ++ path := by
  cases text with
  | nil => exact rooted_slash path slash
  | cons b rest =>
      by_cases own : b = byte '/'
      · subst own
        rw [rooted_slash (byte '/' :: rest) rfl]
        refine rooted_slash _ ?_
        obtain ⟨later, whole⟩ := unslashed_front (byte '/' :: rest)
        cases front : unslashed (byte '/' :: rest) with
        | nil => exact slash
        | cons c kept =>
            rw [front] at whole
            exact congrArg some (List.cons.inj whole).1
      · have other : (b :: rest).head? ≠ some (byte '/') := fun same => own (Option.some.inj same)
        have kept : unslashed (byte '/' :: b :: rest) = byte '/' :: unslashed (b :: rest) := by
          rw [← List.singleton_append, unslashed_append, if_neg]
          · rfl
          · rw [List.all_cons, Bool.and_eq_true, beq_iff_eq]
            exact fun all => own all.1
        rw [rooted_other _ other, kept, unslashed_cons b rest own, rooted_other]
        · rfl
        · exact other

/-- A path that ends before the end of the text stays as it is when something else follows. -/
theorem pathText_unslashed (text path : Bytes) (ended : ∃ b ∈ text, endsPath b = true) :
    pathText (unslashed text ++ path) = pathText text := by
  obtain ⟨front, rest, whole, inside, stops, own, _⟩ := path_split text
  cases rest with
  | nil =>
      obtain ⟨b, member, ends⟩ := ended
      rw [whole, List.append_nil] at member
      rw [inside b member] at ends
      cases ends
  | cons mark rest =>
      have ends : endsPath mark = true := stops mark rfl
      have solid : mark ≠ byte '/' := by
        rintro rfl
        revert ends
        decide
      have kept : unslashed text = front ++ mark :: unslashed rest := by
        rw [whole, unslashed_append, unslashed_cons mark rest solid, if_neg]
        rw [List.all_cons, Bool.and_eq_true, beq_iff_eq]
        exact fun all => solid all.1
      rw [own, kept, List.append_assoc, List.cons_append, pathText,
        List.takeWhile_append_of_pos fun b member => by simp [inside b member],
        List.takeWhile_cons_of_neg (by simp [ends]), List.append_nil]

theorem pathText_plain (text : Bytes) (plain : ∀ b ∈ text, endsPath b = false) :
    pathText text = text := by
  rw [pathText, List.takeWhile_eq_self_iff]
  exact fun b member => by simp [plain b member]

theorem pathAndQuery_plain (text : Bytes) (plain : ∀ b ∈ text, endsPath b = false) :
    pathAndQuery text = (rooted text, []) := by
  have gone : text.dropWhile (!endsPath ·) = [] := by
    rw [List.dropWhile_eq_nil_iff]
    exact fun b member => by simp [plain b member]
  rw [pathAndQuery_eq, pathText_plain text plain, ownQuery, fragmentQuery, gone]
  rfl

/-- What stands behind the authority of a text; all of it when it has no scheme. -/
def afterAuthority (text : Bytes) : Bytes :=
  match cut? schemeMark text with
  | none => text
  | some (_, rest) => rest.dropWhile (!endsAuthority ·)

def IsHostless (text : Bytes) : Prop :=
  ∃ scheme rest, cut? schemeMark text = some (scheme, rest) ∧ rest.all (· == byte '/') = true

-- The authority ends at the same byte when the slashes at the end give way to a path.
theorem authority_below (rest path : Bytes) (slash : path.head? = some (byte '/')) :
    (unslashed rest ++ path).takeWhile (!endsAuthority ·) = rest.takeWhile (!endsAuthority ·) ∧
      (unslashed rest ++ path).dropWhile (!endsAuthority ·) =
        unslashed (rest.dropWhile (!endsAuthority ·)) ++ path := by
  have inside : ∀ b ∈ rest.takeWhile (!endsAuthority ·), (!endsAuthority b) = true :=
    fun b member => by simpa using List.mem_takeWhile_imp member
  have free : byte '/' ∉ rest.takeWhile (!endsAuthority ·) := fun member =>
    absurd (inside _ member) (by decide)
  have kept := unslashed_behind _ (rest.dropWhile (!endsAuthority ·)) free
  rw [List.takeWhile_append_dropWhile] at kept
  have stops := List.head?_dropWhile_not (!endsAuthority ·) rest
  have front := unslashed_front (rest.dropWhile (!endsAuthority ·))
  rw [kept, List.append_assoc]
  refine ofParts_split _ _ inside fun b head => ?_
  cases left : unslashed (rest.dropWhile (!endsAuthority ·)) with
  | nil =>
      rw [left, List.nil_append, slash] at head
      rw [← Option.some.inj head]
      rfl
  | cons first more =>
      rw [left] at front head
      obtain rfl : first = b := Option.some.inj head
      obtain ⟨later, whole⟩ := front
      rw [← whole] at stops
      simpa using stops

/-- Behind a text without the slashes at its end, a path is read at the same place. -/
theorem parse_below (text path : Bytes) (route : IsRoute path) (hosted : ¬ IsHostless text)
    (base : Url) (read : parse text = .ok base) :
    let target := pathAndQuery (unslashed (afterAuthority text) ++ path)
    base.path = rooted (pathText (afterAuthority text)) ∧
      parse (unslashed text ++ path) = .ok { base with path := target.1, query := target.2 } := by
  intro target
  cases cut : cut? schemeMark text with
  | none =>
      have own : afterAuthority text = text := by
        unfold afterAuthority
        rw [cut]
      have unmarked : ¬ schemeMark <:+: unslashed text := fun inside =>
        (cut_none schemeMark text).mp cut (inside.trans (unslashed_front text).isInfix)
      have joined := unmarked_append _ path route (unslashed_last text) unmarked
      unfold parse at read ⊢
      rw [cut] at read
      rw [(cut_none _ _).mpr joined]
      obtain rfl := Except.ok.inj read
      dsimp only [target]
      rw [own]
      refine ⟨?_, rfl⟩
      simp only [ofPath, pathAndQuery_eq]
  | some parts =>
      obtain ⟨scheme, rest⟩ := parts
      have own : afterAuthority text = rest.dropWhile (!endsAuthority ·) := by
        unfold afterAuthority
        rw [cut]
      obtain ⟨whole, again⟩ := cut_some schemeMark_ne_nil cut
      obtain ⟨place, schemed, located⟩ := (parse_schemed cut base).mp read
      have solid : ¬ rest.all (· == byte '/') = true := fun slashes =>
        hosted ⟨scheme, rest, cut, slashes⟩
      have joined : unslashed text ++ path = scheme ++ schemeMark ++ (unslashed rest ++ path) := by
        rw [whole, unslashed_append, if_neg solid, List.append_assoc _ _ path]
      obtain ⟨front, back⟩ := authority_below rest path route.head
      constructor
      · rw [own]
        exact (Prod.mk.inj (located.trans (pathAndQuery_eq _))).1
      · rw [joined, parse_schemed (again _), front, back, ← own]
        exact ⟨place, schemed, rfl⟩

structure CallsBelow (path : Bytes) (base url : Url) : Prop where
  scheme : url.scheme = base.scheme
  host : url.host = base.host
  port : url.port = base.port
  path : url.path = unslashed base.path ++ path

structure Leads (text path : Bytes) (base url : Url) : Prop where
  -- It is called below the base URL exactly when the text names something behind its scheme and
  -- ends with its path.
  below : CallsBelow path base url ↔
    ¬ IsHostless text ∧ ∀ b ∈ afterAuthority text, endsPath b = false
  -- Behind a question mark or a hash it is no part of the path that is called.
  ended : ¬ IsHostless text → (∃ b ∈ afterAuthority text, endsPath b = true) →
    url.scheme = base.scheme ∧ url.host = base.host ∧ url.port = base.port ∧ url.path = base.path
  -- With nothing but slashes behind the scheme the scheme is a part of the path, and the host is
  -- this machine.
  hostless : IsHostless text → base.host = [] ∧ ∃ scheme, lowercase scheme = base.scheme ∧
    url = ⟨localScheme, localHost, none, byte '/' :: scheme ++ byte ':' :: path, []⟩

theorem IsRoute.unslashed_grows {path : Bytes} (route : IsRoute path) (front : Bytes) :
    front ≠ unslashed front ++ path := by
  obtain ⟨first, more, rfl, solid⟩ := route.opens
  have mixed : ¬ (byte '/' :: first :: more).all (· == byte '/') = true := by
    simp only [List.all_cons, Bool.and_eq_true, beq_iff_eq]
    exact fun all => solid all.2.1
  have kept : unslashed (byte '/' :: first :: more) ≠ [] := by
    rw [← List.singleton_append, unslashed_append, if_neg]
    · exact List.cons_ne_nil _ _
    · simp only [List.all_cons, Bool.and_eq_true, beq_iff_eq]
      exact fun all => solid all.1
  intro same
  have twice := congrArg unslashed same
  rw [unslashed_append, if_neg mixed] at twice
  exact kept (List.self_eq_append_right.mp twice)

theorem leads_hosted (text path : Bytes) (route : IsRoute path) (hosted : ¬ IsHostless text)
    (base : Url) (read : parse text = .ok base) :
    ∃ url, parse (unslashed text ++ path) = .ok url ∧ Leads text path base url := by
  obtain ⟨own, joined⟩ := parse_below text path route hosted base read
  rw [pathAndQuery_eq] at joined
  have kept (ended : ∃ b ∈ afterAuthority text, endsPath b = true) :
      rooted (pathText (unslashed (afterAuthority text) ++ path)) = base.path := by
    rw [pathText_unslashed _ path ended, own]
  refine ⟨_, joined, ?_, fun _ ended => ⟨rfl, rfl, rfl, kept ended⟩,
    fun hostless => absurd hostless hosted⟩
  constructor
  · intro below
    refine ⟨hosted, fun b member => Bool.eq_false_iff.mpr fun ends => ?_⟩
    exact route.unslashed_grows base.path ((kept ⟨b, member, ends⟩).symm.trans below.path)
  · rintro ⟨_, plain⟩
    refine ⟨rfl, rfl, rfl, ?_⟩
    have whole : ∀ b ∈ unslashed (afterAuthority text) ++ path, endsPath b = false :=
      List.forall_mem_append.mpr
        ⟨fun b member => plain b ((unslashed_front _).subset member), route.plain⟩
    dsimp only
    rw [pathText_plain _ whole, own, pathText_plain _ plain, rooted_unslashed _ path route.head]

theorem leads_hostless (text path : Bytes) (route : IsRoute path) (hostless : IsHostless text)
    (base : Url) (read : parse text = .ok base) (http : base.scheme = ascii "http") :
    ∃ url, parse (unslashed text ++ path) = .ok url ∧ Leads text path base url := by
  obtain ⟨scheme, rest, cut, slashes⟩ := id hostless
  obtain ⟨whole, _⟩ := cut_some schemeMark_ne_nil cut
  obtain ⟨place, schemed, _⟩ := (parse_schemed cut base).mp read
  have written : lowercase scheme = ascii "http" := schemed.symm.trans http
  have absent (mark : UInt8) (own : toLower mark = mark) (other : mark ∉ ascii "http") :
      mark ∉ scheme := fun member => other (written ▸ mem_lowercase mark scheme own member)
  have unrooted : byte '/' ∉ scheme := absent _ rfl (by decide)
  have left : unslashed text = scheme ++ [byte ':'] := by
    have split : text = scheme ++ ([byte ':'] ++ (byte '/' :: byte '/' :: rest)) := by
      rw [whole, List.append_assoc]
      rfl
    have trailing : (byte '/' :: byte '/' :: rest).all (· == byte '/') = true := by
      simpa using slashes
    rw [split, unslashed_behind scheme _ unrooted, unslashed_append, if_pos trailing]
    rfl
  have unslashed_left : byte '/' ∉ scheme ++ [byte ':'] := by
    rw [List.mem_append, List.mem_singleton, not_or]
    exact ⟨unrooted, by decide⟩
  have unmarked : ¬ schemeMark <:+: scheme ++ [byte ':'] ++ path := by
    refine unmarked_append _ path route (by simp) fun inside => unslashed_left ?_
    exact inside.subset (by decide)
  have plain : ∀ b ∈ scheme ++ [byte ':'] ++ path, endsPath b = false := by
    have clear : ∀ b ∈ scheme, endsPath b = false := by
      intro b member
      refine Bool.eq_false_iff.mpr fun ends => ?_
      rcases (endsPath_iff b).mp ends with rfl | rfl
      · exact absent _ rfl (by decide) member
      · exact absent _ rfl (by decide) member
    refine List.forall_mem_append.mpr ⟨List.forall_mem_append.mpr ⟨clear, ?_⟩, route.plain⟩
    exact List.forall_mem_singleton.mpr rfl
  have other : (scheme ++ [byte ':'] ++ path).head? ≠ some (byte '/') := by
    cases scheme with
    | nil => exact nofun
    | cons first scheme =>
        rintro ⟨⟩
        exact unrooted List.mem_cons_self
  have empty : rest.takeWhile (!endsAuthority ·) = [] := by
    cases rest with
    | nil => rfl
    | cons first rest =>
        obtain rfl : first = byte '/' := by
          rw [List.all_cons, Bool.and_eq_true, beq_iff_eq] at slashes
          exact slashes.1
        rfl
  have nowhere : base.host = [] := by
    rw [empty] at place
    exact (Prod.mk.inj (Except.ok.inj place)).1.symm
  rw [left, parse, (cut_none _ _).mpr unmarked]
  dsimp only
  rw [ofPath, pathAndQuery_plain _ plain, rooted_other _ other]
  refine ⟨_, rfl, ?_, fun hosted => absurd hostless hosted, fun _ => ⟨nowhere, scheme, ?_, ?_⟩⟩
  · refine ⟨fun below => ?_, fun hosted => absurd hostless hosted.1⟩
    have same : localHost = base.host := below.host
    rw [nowhere] at same
    cases same
  · exact schemed.symm
  · simp

/-- A path behind the text of a base URL without the slashes at its end is always read. -/
theorem leads (text path : Bytes) (route : IsRoute path) (base : Url)
    (read : parse text = .ok base) (http : base.scheme = ascii "http") :
    ∃ url, parse (unslashed text ++ path) = .ok url ∧ Leads text path base url := by
  by_cases hostless : IsHostless text
  · exact leads_hostless text path route hostless base read http
  · exact leads_hosted text path route hostless base read

end EndpointPreview.Http.Url

namespace EndpointPreview.Execution

open Text Http

theorem HttpService.paths_routes : ∀ path ∈ [startPath, stopPath], Url.IsRoute path := by
  refine List.forall_mem_cons.mpr ⟨?_, List.forall_mem_singleton.mpr ?_⟩
  · exact ⟨⟨_, _, rfl, by decide⟩, (cut_none _ _).mp rfl, Url.plain_of_any _ rfl⟩
  · exact ⟨⟨_, _, rfl, by decide⟩, (cut_none _ _).mp rfl, Url.plain_of_any _ rfl⟩

/-- The URL that is posted to is the base URL's text with the path behind it. -/
theorem HttpService.request_url [Json.Dialect] (baseUrl : Bytes) (timeoutMs : Int) (path : Bytes)
    (payload : Json) (request : Request)
    (posted : (make baseUrl timeoutMs).request? path payload = some request) :
    request.url = unslashed baseUrl ++ path := by
  obtain ⟨plain, made, rfl⟩ := Option.map_eq_some_iff.mp posted
  obtain ⟨body, _, rfl⟩ := Option.map_eq_some_iff.mp made
  rfl

theorem validate_service (settings : Settings) (valid : settings.validate = .ok ())
    (enabled : settings.service.enabled = true) :
    ∃ base, Url.parse settings.service.baseUrl = .ok base ∧ base.scheme = ascii "http" := by
  have checked : settings.checkService = .ok () := by
    unfold Settings.validate at valid
    cases timeout : settings.checkTimeout with
    | error => rw [timeout] at valid; cases valid
    | ok =>
        cases latency : settings.checkLatency with
        | error => rw [timeout, latency] at valid; cases valid
        | ok =>
            cases service : settings.checkService with
            | error => rw [timeout, latency, service] at valid; cases valid
            | ok => rfl
  unfold Settings.checkService at checked
  rw [if_pos enabled] at checked
  split at checked
  · cases checked
  · rename_i base read
    split at checked
    · rename_i http
      exact ⟨base, read, http⟩
    · cases checked

/-- Every request that a configured service sends has a URL that is read, and where it leads. -/
theorem service_leads [Json.Dialect] (settings : Settings) (valid : settings.validate = .ok ())
    (enabled : settings.service.enabled = true) :
    ∃ base, Url.parse settings.service.baseUrl = .ok base ∧
      ∀ transport, ∃ service,
        Service.ofSettings settings.service transport = .http service transport ∧
        ∀ path ∈ [HttpService.startPath, HttpService.stopPath], ∀ payload request,
          service.request? path payload = some request →
            ∃ url, Url.parse request.url = .ok url ∧
              Url.Leads settings.service.baseUrl path base url := by
  obtain ⟨base, read, http⟩ := validate_service settings valid enabled
  refine ⟨base, read, fun transport => ?_⟩
  refine ⟨.make settings.service.baseUrl settings.service.timeoutMs, ?_, ?_⟩
  · rw [Service.ofSettings, if_pos enabled]
  · intro path known payload request posted
    rw [HttpService.request_url _ _ _ _ _ posted]
    exact Url.leads _ path (HttpService.paths_routes path known) base read http

def servedAt (baseUrl : String) : Settings := { service := { baseUrl := ascii baseUrl } }

-- The URL of the request by which the service is asked to end what runs on a port.
def haltUrl? [Json.Dialect] (baseUrl : String) : Option (Except UrlError Url) :=
  ((HttpService.make (ascii baseUrl) 30000).request? HttpService.stopPath
    (HttpService.stopPayload 5000)).map fun request => Url.parse request.url

section Strict

attribute [local instance] Json.strict

theorem service_leads_below :
    (servedAt "http://LocalHost:9000/run//").validate = .ok () ∧
      ∃ url, haltUrl? "http://LocalHost:9000/run//" = some (.ok url) ∧
        url.host = ascii "localhost" ∧ url.port = some 9000 ∧
        url.path = ascii "/run/api/stop-python-server" := by
  have valid : (servedAt "http://LocalHost:9000/run//").validate = .ok () := rfl
  have known : Url.parse (ascii "http://LocalHost:9000/run//") =
      .ok ⟨ascii "http", ascii "localhost", some 9000, ascii "/run//", []⟩ := rfl
  have hosted : ¬ Url.IsHostless (ascii "http://LocalHost:9000/run//") := by
    rintro ⟨scheme, rest, cut, slashes⟩
    cases cut
    revert slashes
    decide
  obtain ⟨base, read, every⟩ := service_leads _ valid rfl
  obtain rfl := Except.ok.inj (known.symm.trans read)
  obtain ⟨service, made, posts⟩ := every .direct
  cases made
  obtain ⟨url, own, leads⟩ := posts HttpService.stopPath (List.mem_cons_of_mem _ List.mem_cons_self)
    (HttpService.stopPayload 5000) _ rfl
  have below := leads.below.mpr ⟨hosted, Url.plain_of_any _ rfl⟩
  exact ⟨valid, url, congrArg some own, below.host, below.port, below.path⟩

/-- Behind a query or a fragment the path is not called, and behind a scheme alone not even the
host. -/
theorem service_misled :
    (servedAt "http://localhost:9000/run?key=1").validate = .ok () ∧
      haltUrl? "http://localhost:9000/run?key=1" = some (.ok ⟨ascii "http", ascii "localhost",
        some 9000, ascii "/run", ascii "key=1/api/stop-python-server"⟩) ∧
      (servedAt "http://localhost:9000/run#top").validate = .ok () ∧
      haltUrl? "http://localhost:9000/run#top" = some (.ok ⟨ascii "http", ascii "localhost",
        some 9000, ascii "/run", []⟩) ∧
      (servedAt "http://").validate = .ok () ∧
      Url.parse (ascii "http://") = .ok ⟨ascii "http", [], none, ascii "/", []⟩ ∧
      haltUrl? "http://" = some (.ok ⟨ascii "http", ascii "localhost", none,
        ascii "/http:/api/stop-python-server", []⟩) :=
  ⟨rfl, rfl, rfl, rfl, rfl, rfl, rfl⟩

end Strict

end EndpointPreview.Execution
