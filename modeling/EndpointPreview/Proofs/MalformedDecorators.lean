import EndpointPreview.Proofs.DecoratorBinding

/-!
What a malformed decorator does to the function below it. It takes nothing from the function: a
decorator that was read above it and still waits binds to the function all the same, and only where
none waits the function has no route.
-/

namespace EndpointPreview.Notation

open Text

def PassedOver (row : Bytes) : Prop :=
  isBlank row = true ∨ (trim row).head? = some (byte '#') ∨
    (trim row).head? = some (byte '@') ∧ startsWithMarker (trim row) = false

-- The row at the index is the last one before the line that is not passed over.
structure LastBefore (rows : List Bytes) (line index : Nat) (row : Bytes) : Prop where
  place : rows[index]? = some row
  before : 1 + index < line
  solid : ¬ PassedOver row
  between : ∀ other passed, index < other → 1 + other < line → rows[other]? = some passed →
    PassedOver passed

/-- The decorator was read from a row outside the functions, and nothing before the index has
used it. -/
def Waits (rows : List Bytes) (routines : List Helper) (index : Nat) (decorator : Decorator) :
    Prop :=
  ∃ place later, MarkedAt 1 rows routines place later (.ok decorator) ∧ place < index ∧
    ∀ other row, place < other → other < index → rows[other]? = some row → Separates row

theorem PassedOver.keeps {row : Bytes} (passed : PassedOver row) :
    keepsPending (trim row) = true :=
  (keepsPending_iff row).mpr (passed.imp_right (Or.imp_right And.left))

theorem PassedOver.unmarked {row : Bytes} (passed : PassedOver row) :
    startsWithMarker (trim row) = false := by
  by_contra marked
  have marks : Marks row (Decorator.ofLine (trim row)) := ⟨by simpa using marked, rfl⟩
  rcases passed with blank | comment | ⟨_, unmarked⟩
  · rw [marks.solid] at blank
    cases blank
  · obtain ⟨starts, _⟩ := Bool.and_eq_true_iff.mp marks.marked
    obtain ⟨rest, whole⟩ := List.isPrefixOf_iff_prefix.mp starts
    rw [← whole] at comment
    cases comment
  · exact marked unmarked

theorem PassedOver.separates {row : Bytes} (passed : PassedOver row) : Separates row :=
  unmarked_separates passed.unmarked passed.keeps

variable {lineNumber : Nat} {rows : List Bytes} {found : List Finding}

/-- The decorator that waits belongs to the next function, behind separating rows. -/
theorem Scanned.binds_next {waiting : Pending} {line : Bytes} {later : List Bytes}
    {header : Header} (scanned : Scanned lineNumber (some waiting) rows found) (count : Nat)
    (place : rows.drop count = line :: later) (read : Header.read line later = .found header)
    (between : ∀ other row, other < count → rows[other]? = some row → Separates row) :
    ∃ endpoint ∈ endpointsIn found, endpoint.line = lineNumber + count ∧
      endpoint.route = waiting.decorator.route ∧ endpoint.method = waiting.decorator.method := by
  generalize held : some waiting = pending at scanned
  induction scanned generalizing count with
  | finish lineNumber pending => simp at place
  | @row lineNumber pending next first after reports found passed rest ih =>
      subst held
      rw [endpointsIn_reports]
      cases count with
      | zero =>
          cases place
          exact absurd read (passed.no_header header)
      | succ count =>
          have separates := between 0 first (Nat.succ_pos _) rfl
          have keeps := (keepsPending_iff first).mpr separates.light
          have kept : next = some waiting := by
            cases passed with
            | decorator decorator marked read =>
                exact absurd ⟨marked, read⟩ (separates.alone decorator)
            | unrecognized error marked read => rfl
            | malformed problem unmarked read =>
                rw [kept_absent first after keeps] at read
                cases read
            | between unmarked absent keeps => rfl
            | other unmarked absent stops =>
                rw [keeps] at stops
                cases stops
          obtain ⟨endpoint, member, own_line, own⟩ := ih count place
            (fun other row before here => between (other + 1) row (by omega) here) kept.symm
          exact ⟨endpoint, member, by omega, own⟩
  | @function lineNumber pending first after gap own_header block found unmarked own taken rest ih =>
      subst held
      cases count with
      | zero => exact ⟨_, List.mem_cons_self, rfl, rfl, rfl⟩
      | succ count =>
          exact absurd own ((between 0 first (Nat.succ_pos _) rfl).no_header after own_header)

/-- A function has no route exactly when no endpoint is it. -/
theorem helper_iff (source : Bytes) (routine : Helper)
    (member : routine ∈ (parse source).routines) : routine ∈ (parse source).helpers ↔
      ∀ endpoint ∈ (parse source).endpoints, endpoint.routine ≠ routine := by
  have perm := routines_perm source
  have apart := (List.nodup_append.mp (perm.nodup_iff.mp (routines_alone source).of_map)).2.2
  constructor
  · intro helper endpoint inside same
    exact apart _ (List.mem_map_of_mem inside) _ helper same
  · intro no_endpoint
    rcases List.mem_append.mp (perm.mem_iff.mp member) with routed | helper
    · obtain ⟨endpoint, inside, same⟩ := List.mem_map.mp routed
      exact absurd same (no_endpoint endpoint inside)
    · exact helper

theorem routine_opens (source : Bytes) (routine : Helper)
    (member : routine ∈ (parse source).routines) : ∃ line later header, 0 < routine.line ∧
      (lines source).drop (routine.line - 1) = line :: later ∧
        Header.read line later = .found header := by
  obtain ⟨line, later, header, positive, place, block⟩ := (parse_extracts source).blocks _ member
  exact ⟨line, later, header, positive, place, block.opens⟩

/-- A decorator that waits at the row of a function gives it its route and method. -/
theorem waits_binds (source : Bytes) (routine : Helper)
    (member : routine ∈ (parse source).routines) (decorator : Decorator)
    (waits : Waits (lines source) (parse source).routines (routine.line - 1) decorator) :
    ∃ endpoint ∈ (parse source).endpoints, endpoint.routine = routine ∧
      endpoint.route = decorator.route ∧ endpoint.method = decorator.method := by
  obtain ⟨line, later, header, positive, there, read⟩ := routine_opens source routine member
  obtain ⟨place, below, ⟨⟨row, here, marks⟩, outside⟩, above, between⟩ := waits
  rw [parse_routines] at outside
  obtain ⟨before, rest, waiting, visit⟩ := (findings_scanned source).visits
    (by rintro waiting ⟨⟩) place row below here marks.solid outside
  obtain ⟨after, whole, scanned⟩ := visit.scanned.takes_decorator marks
  have own_rows : below = (lines source).drop (place + 1) := by
    rw [← List.drop_drop, here]
    rfl
  have down : place + 1 + (routine.line - 1 - (place + 1)) = routine.line - 1 := by omega
  obtain ⟨endpoint, inside, own_line, own⟩ :=
    scanned.binds_next (routine.line - 1 - (place + 1))
      (by rw [own_rows, List.drop_drop, down, there]) read fun other row near here => by
        rw [own_rows, List.getElem?_drop] at here
        exact between _ row (by omega) (by omega) here
  have found : endpoint ∈ (parse source).endpoints := by
    change endpoint ∈ endpointsIn (findings source)
    rw [visit.whole, whole, endpointsIn_append, endpointsIn_reports]
    exact List.mem_append_right _ inside
  have same_line : endpoint.routine.line = routine.line :=
    own_line.trans (by omega)
  exact ⟨endpoint, found, routine_of_line source _ _ (endpoint_routine_mem source _ found) member
    same_line, own⟩

theorem endpoint_waits (source : Bytes) (endpoint : Endpoint)
    (member : endpoint ∈ (parse source).endpoints) :
    ∃ decorator, endpoint.route = decorator.route ∧ endpoint.method = decorator.method ∧
      Waits (lines source) (parse source).routines (endpoint.line - 1) decorator := by
  obtain ⟨place, later, decorator, marked, follows⟩ := endpoint_bound source endpoint member
  obtain ⟨row, here, _⟩ := marked.here
  have after := follows.after
  refine ⟨decorator, follows.route, follows.method, place, later, marked, by omega, ?_⟩
  intro other between past near there
  exact follows.separates here (drop_of_place there) past (by omega)

/-- What waits at a malformed decorator waits at the function below it, and nothing else does. -/
theorem LastBefore.waits_iff {line index : Nat} {row : Bytes} {error : DecoratorError}
    (last : LastBefore rows line index row) (marks : Marks row (.error error))
    (routines : List Helper) (decorator : Decorator) :
    Waits rows routines (line - 1) decorator ↔ Waits rows routines index decorator := by
  have before := last.before
  constructor
  · rintro ⟨place, later, marked, above, between⟩
    obtain ⟨own, here, own_marks⟩ := marked.here
    refine ⟨place, later, marked, ?_, fun other row past near there =>
      between other row past (by omega) there⟩
    -- The row of the decorator is neither the malformed one nor one of those below it.
    rcases Nat.lt_trichotomy place index with above | rfl | below
    · exact above
    · cases (place_of_drop here).symm.trans last.place
      cases own_marks.read.symm.trans marks.read
    · have passed := last.between place own below (by omega) (place_of_drop here)
      cases own_marks.marked.symm.trans passed.unmarked
  · rintro ⟨place, later, marked, above, between⟩
    refine ⟨place, later, marked, by omega, fun other passed past near there => ?_⟩
    rcases Nat.lt_trichotomy other index with above | rfl | below
    · exact between other passed past above there
    · cases there.symm.trans last.place
      exact marks.separates
    · exact (last.between other passed below (by omega) there).separates

/-- A function whose decorator is malformed is a helper exactly when no decorator that was read
waits above the malformed one; a decorator that does wait gives the function its route. -/
theorem malformed_decorator (source : Bytes) (routine : Helper)
    (member : routine ∈ (parse source).routines) (index : Nat) (row : Bytes)
    (last : LastBefore (lines source) routine.line index row) (error : DecoratorError)
    (marks : Marks row (.error error)) :
    (routine ∈ (parse source).helpers ↔
      ∀ decorator, ¬ Waits (lines source) (parse source).routines index decorator) ∧
    ∀ decorator, Waits (lines source) (parse source).routines index decorator ↔
      ∃ endpoint ∈ (parse source).endpoints, endpoint.routine = routine ∧
        endpoint.route = decorator.route ∧ endpoint.method = decorator.method := by
  have shifted := last.waits_iff marks (parse source).routines
  have bound (decorator : Decorator) :
      Waits (lines source) (parse source).routines index decorator ↔
        ∃ endpoint ∈ (parse source).endpoints, endpoint.routine = routine ∧
          endpoint.route = decorator.route ∧ endpoint.method = decorator.method := by
    rw [← shifted]
    refine ⟨waits_binds source routine member decorator, ?_⟩
    rintro ⟨endpoint, inside, rfl, route, method⟩
    obtain ⟨own, own_route, own_method, waits⟩ := endpoint_waits source endpoint inside
    obtain rfl : own = decorator := by
      cases own
      cases decorator
      exact congrArg₂ Decorator.mk (own_route.symm.trans route) (own_method.symm.trans method)
    exact waits
  refine ⟨?_, bound⟩
  rw [helper_iff source routine member]
  constructor
  · intro no_endpoint decorator waits
    obtain ⟨endpoint, inside, same, _⟩ := (bound decorator).mp waits
    exact no_endpoint endpoint inside same
  · rintro none_waits endpoint inside rfl
    obtain ⟨decorator, _, _, waits⟩ := endpoint_waits source endpoint inside
    exact none_waits decorator ((shifted decorator).mp waits)

/-- Two functions below malformed decorators; above the first one a decorator waits. -/
def stackedSource : Bytes := ascii (
  "@endpoint('/a')\n# note\n@endpoint(bad)\n@other\n\ndef f():\n    return 1\n\n" ++
  "@endpoint('/b'\ndef g():\n    return 2\n")

theorem stacked_rows : lines stackedSource =
    ["@endpoint('/a')", "# note", "@endpoint(bad)", "@other", "", "def f():", "    return 1", "",
      "@endpoint('/b'", "def g():", "    return 2"].map ascii := by decide +kernel

theorem stacked_parsed :
    (parse stackedSource).endpoints =
        [⟨ascii "f", ascii "/a", defaultMethod, [], ascii "def f():\n    return 1", 6, 1, []⟩] ∧
      (parse stackedSource).helpers = [⟨ascii "g", [], ascii "def g():\n    return 2", 10⟩] := by
  decide +kernel

theorem malformed_decorator_stacked :
    let routed : Helper := ⟨ascii "f", [], ascii "def f():\n    return 1", 6⟩
    let plain : Helper := ⟨ascii "g", [], ascii "def g():\n    return 2", 10⟩
    (LastBefore (lines stackedSource) routed.line 2 (ascii "@endpoint(bad)") ∧
      Waits (lines stackedSource) (parse stackedSource).routines 2 ⟨ascii "/a", defaultMethod⟩) ∧
    LastBefore (lines stackedSource) plain.line 8 (ascii "@endpoint('/b'") ∧
      ∀ decorator, ¬ Waits (lines stackedSource) (parse stackedSource).routines 8 decorator := by
  intro routed plain
  obtain ⟨endpoints, helpers⟩ := stacked_parsed
  have members := routines_perm stackedSource
  rw [endpoints, helpers] at members
  have routed_member : routed ∈ (parse stackedSource).routines :=
    members.mem_iff.mpr List.mem_cons_self
  have plain_member : plain ∈ (parse stackedSource).routines :=
    members.mem_iff.mpr (List.mem_cons_of_mem _ List.mem_cons_self)
  have routed_last : LastBefore (lines stackedSource) routed.line 2 (ascii "@endpoint(bad)") := by
    rw [stacked_rows]
    refine ⟨rfl, by decide, by unfold PassedOver; decide, fun other passed past near here => ?_⟩
    have between : other = 3 ∨ other = 4 := by
      change 1 + other < 6 at near
      omega
    rcases between with rfl | rfl <;> cases here <;> unfold PassedOver <;> decide
  have plain_last : LastBefore (lines stackedSource) plain.line 8 (ascii "@endpoint('/b'") := by
    rw [stacked_rows]
    refine ⟨rfl, by decide, by unfold PassedOver; decide, fun other passed past near here => ?_⟩
    change 1 + other < 10 at near
    omega
  have routed_result := malformed_decorator stackedSource routed routed_member 2 _ routed_last
    (.unexpected (ascii "a quoted route") (ascii "bad")) ⟨by decide, by decide +kernel⟩
  have plain_result := malformed_decorator stackedSource plain plain_member 8 _ plain_last
    (.ended (ascii "')'")) ⟨by decide, by decide +kernel⟩
  rw [endpoints] at routed_result
  rw [helpers] at plain_result
  exact ⟨⟨routed_last, (routed_result.2 _).mpr ⟨_, List.mem_cons_self, rfl, rfl, rfl⟩⟩, plain_last,
    plain_result.1.mp List.mem_cons_self⟩

/-- The last row above the function is a malformed decorator, and the function has a route. -/
theorem waiting_decorator_binds :
    let source := ascii "@endpoint('/a')\n@endpoint(bad)\ndef f():\n    return 1\n"
    LastBefore (lines source) 3 1 (ascii "@endpoint(bad)") ∧
      Marks (ascii "@endpoint(bad)")
        (.error (.unexpected (ascii "a quoted route") (ascii "bad"))) ∧
      (parse source).endpoints.map (fun endpoint => (endpoint.line, endpoint.name, endpoint.route)) =
        [(3, ascii "f", ascii "/a")] ∧
      (parse source).helpers = [] := by
  intro source
  have rows : lines source =
      ["@endpoint('/a')", "@endpoint(bad)", "def f():", "    return 1"].map ascii := by
    decide +kernel
  refine ⟨?_, ⟨by decide, by decide +kernel⟩, by decide +kernel, by decide +kernel⟩
  rw [rows]
  refine ⟨rfl, by decide, by unfold PassedOver; decide, fun other passed past near here => ?_⟩
  omega

end EndpointPreview.Notation
