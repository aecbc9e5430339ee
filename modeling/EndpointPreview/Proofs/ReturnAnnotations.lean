import EndpointPreview.Notation.Module
import EndpointPreview.Proofs.ClosedTexts
import EndpointPreview.Proofs.FunctionBlocks
import EndpointPreview.Proofs.ParameterTexts

/-!
Return types and the colon that ends a header. What stands behind the first colon after the
parameter list is read as the body of the function, wherever that colon stands. So a return type
with a colon in a string or in brackets hands its own end to the body, and from there to the module.
-/

namespace EndpointPreview.Notation

open Text

-- A text before a colon starts with a comment mark when the text alone does.
theorem comment_front (late body : Bytes) :
    (trim (late ++ byte ':' :: body)).head? = some (byte '#') ↔
      (trim late).head? = some (byte '#') := by
  rw [head_trim, head_trim, List.dropWhile_append]
  cases behind : late.dropWhile isSpace with
  | nil =>
      rw [List.isEmpty_nil, if_pos rfl, List.dropWhile_cons_of_neg (by decide)]
      exact iff_of_false (by rw [List.head?_cons]; decide) (by decide)
  | cons first rest => simp

theorem inlineAfter_count (body : Bytes) :
    (inlineAfter body).count (byte ':') ≤ body.count (byte ':') := by
  unfold inlineAfter
  dsimp only
  split
  · exact Nat.zero_le _
  · exact Nat.le_of_eq (count_trim _ body rfl)

/-- A body that is read from a colon too early is the right one only where both are dropped. -/
theorem inlineAfter_early (late body : Bytes) :
    inlineAfter (late ++ byte ':' :: body) = inlineAfter body ↔
      (trim late).head? = some (byte '#') ∧ inlineAfter body = [] := by
  by_cases comment : (trim late).head? = some (byte '#')
  · have dropped : inlineAfter (late ++ byte ':' :: body) = [] :=
      if_pos (beq_iff_eq.mpr ((comment_front late body).mpr comment))
    rw [dropped, eq_comm]
    exact (and_iff_right comment).symm
  · have kept : inlineAfter (late ++ byte ':' :: body) = trim (late ++ byte ':' :: body) :=
      if_neg fun hidden => comment ((comment_front late body).mp (beq_iff_eq.mp hidden))
    have fewer := inlineAfter_count body
    have more := count_trim (byte ':') (late ++ byte ':' :: body) rfl
    rw [List.count_append, List.count_cons_self] at more
    refine ⟨fun same => ?_, fun both => absurd both.1 comment⟩
    rw [← same, kept] at fewer
    omega

-- A row that opens a definition whose parameter list is closed, there or in a later row. Behind the
-- list stand a return type or nothing, the header's own colon and the body.
structure OpensBody (line : Bytes) (later : List Bytes) (name returnType body : Bytes) : Prop where
  written : ∃ opened closed, openDefinition? (trim line) = some (name, opened) ∧
    closeList? opened 0 later = some closed ∧
    trim (closed.text.drop closed.length) = returnType ++ byte ':' :: body
  arrow : returnType = [] ∨ startsWith (ascii "->") returnType = true
  closed : ClosedText (fun b => b ≠ byte ':') returnType

-- The header's own colon is the first one outside brackets and strings, so a row has one body only.
theorem OpensBody.unique {line : Bytes} {later : List Bytes}
    {name other returnType otherType body otherBody : Bytes}
    (opens : OpensBody line later name returnType body)
    (also : OpensBody line later other otherType otherBody) :
    name = other ∧ returnType = otherType ∧ body = otherBody := by
  obtain ⟨opened, closed, word, closes, rest⟩ := opens.written
  obtain ⟨opened', closed', word', closes', rest'⟩ := also.written
  obtain ⟨rfl, rfl⟩ := Prod.mk.inj (Option.some.inj (word.symm.trans word'))
  obtain rfl := Option.some.inj (closes.symm.trans closes')
  obtain ⟨rfl, behind⟩ := opens.closed.first_mark also.closed rfl (fun own => own rfl)
    (rest.symm.trans rest')
  exact ⟨rfl, rfl, behind⟩

def EarlyColon (returnType late : Bytes) : Prop :=
  ∃ early, byte ':' ∉ early ∧ returnType = early ++ byte ':' :: late

theorem EarlyColon.unique {returnType late other : Bytes} (first : EarlyColon returnType late)
    (also : EarlyColon returnType other) : late = other := by
  obtain ⟨early, apart, whole⟩ := first
  obtain ⟨before, clear, again⟩ := also
  have cut := cutAt_mark (byte ':') early late apart
  rw [← whole, again, cutAt_mark (byte ':') before other clear] at cut
  exact (Prod.mk.inj (Option.some.inj cut)).2.symm

structure ReadsBody (returnType body inlineBody : Bytes) : Prop where
  plain : byte ':' ∉ returnType → inlineBody = inlineAfter body
  early : ∀ late, EarlyColon returnType late → inlineBody = inlineAfter (late ++ byte ':' :: body)
  right : inlineBody = inlineAfter body ↔ ∀ late, EarlyColon returnType late →
    (trim late).head? = some (byte '#') ∧ inlineAfter body = []

theorem OpensBody.read {line : Bytes} {later : List Bytes} {name returnType body : Bytes}
    (opens : OpensBody line later name returnType body) :
    ∃ header, Header.read line later = .found header ∧ header.name = name ∧
      ReadsBody returnType body header.inlineBody := by
  obtain ⟨opened, closed, word, closes, rest⟩ := opens.written
  have ends : endsHeader (trim (closed.text.drop closed.length)) = true := by
    rw [rest, endsHeader, Bool.or_eq_true]
    rcases opens.arrow with none_written | arrow
    · rw [none_written]
      exact .inl rfl
    · obtain ⟨more, whole⟩ := List.isPrefixOf_iff_prefix.mp arrow
      refine .inr (List.isPrefixOf_iff_prefix.mpr ⟨more ++ byte ':' :: body, ?_⟩)
      rw [← List.append_assoc, whole]
  have read (early behind : Bytes) (apart : byte ':' ∉ early)
      (whole : returnType ++ byte ':' :: body = early ++ byte ':' :: behind) :
      ∃ header, Header.read line later = .found header ∧ header.name = name ∧
        header.inlineBody = inlineAfter behind := by
    have cut : cutAt? (byte ':') (trim (closed.text.drop closed.length)) = some (early, behind) := by
      rw [rest, whole, cutAt_mark _ _ _ apart]
    refine ⟨⟨name, (closed.text.take (closed.length - 1)).drop 1, inlineAfter behind,
      closed.extraLines + 1⟩, ?_, rfl, rfl⟩
    simp only [Header.read, word, closes, Header.ofClosed, cut, ends, ↓reduceIte]
  by_cases colon : byte ':' ∈ returnType
  · obtain ⟨early, late, whole, apart⟩ := List.eq_append_cons_of_mem colon
    have first : EarlyColon returnType late := ⟨early, apart, whole⟩
    have only (other : Bytes) (also : EarlyColon returnType other) : other = late :=
      also.unique first
    obtain ⟨header, found, own, inlined⟩ := read early (late ++ byte ':' :: body) apart (by simp [whole])
    refine ⟨header, found, own, fun clear => absurd colon clear, fun other also => ?_, ?_⟩
    · rw [only other also, inlined]
    · rw [inlined, inlineAfter_early]
      exact ⟨fun right other also => only other also ▸ right, fun right => right late first⟩
  · obtain ⟨header, found, own, inlined⟩ := read returnType body colon rfl
    have no_early (late : Bytes) : ¬ EarlyColon returnType late := by
      rintro ⟨early, -, rfl⟩
      exact colon (by simp)
    exact ⟨header, found, own, fun _ => inlined, fun late first => absurd first (no_early late),
      iff_of_true inlined fun late first => absurd first (no_early late)⟩

/-- Every endpoint of a scan has the inline body of the header on its line. -/
theorem Scanned.inlined {lineNumber : Nat} {pending : Option Pending} {rows : List Bytes}
    {found : List Finding} (scanned : Scanned lineNumber pending rows found) :
    ∀ endpoint ∈ endpointsIn found, lineNumber ≤ endpoint.line ∧ ∃ line later header,
      rows.drop (endpoint.line - lineNumber) = line :: later ∧
        Header.read line later = .found header ∧ endpoint.inlineBody = header.inlineBody := by
  induction scanned with
  | finish lineNumber pending =>
      have none_found := endpointsIn_reports (dropped pending .endOfInput) []
      rw [List.append_nil] at none_found
      rw [none_found]
      rintro endpoint ⟨⟩
  | @row lineNumber pending next line later reports found passed rest ih =>
      rw [endpointsIn_reports]
      intro endpoint member
      obtain ⟨further, place⟩ := ih endpoint member
      have steps : endpoint.line - lineNumber = endpoint.line - (lineNumber + 1) + 1 := by omega
      rw [steps, List.drop_succ_cons]
      exact ⟨Nat.le_of_succ_le further, place⟩
  | @function lineNumber pending line later gap header block found unmarked read taken rest ih =>
      have behind : ∀ endpoint ∈ endpointsIn found, lineNumber ≤ endpoint.line ∧
          ∃ first after opened, (line :: later).drop (endpoint.line - lineNumber) = first :: after ∧
            Header.read first after = .found opened ∧
              endpoint.inlineBody = opened.inlineBody := by
        intro endpoint member
        obtain ⟨further, first, after, opened, place, own⟩ := ih endpoint member
        refine ⟨by omega, first, after, opened, ?_, own⟩
        rw [← place, drop_past line later block.laterLines _ (by omega)]
        congr 1
        omega
      cases pending with
      | none => exact behind
      | some waiting =>
          refine List.forall_mem_cons.mpr ⟨?_, behind⟩
          refine ⟨Nat.le_refl _, line, later, header, ?_, read, rfl⟩
          change (line :: later).drop (lineNumber - lineNumber) = _
          rw [Nat.sub_self, List.drop_zero]

/-- A header with a return type and a body is found. It has the body that stands behind its own colon
exactly when the return type has no colon, or a comment mark behind its first one where the body is
none anyway. Otherwise the end of the return type becomes the body of the endpoint, and the first row
of its function in the module. -/
theorem inlineBody_annotated (line : Bytes) (later : List Bytes) (name returnType body : Bytes)
    (opens : OpensBody line later name returnType body) :
    ∃ header, Header.read line later = .found header ∧ header.name = name ∧
      ReadsBody returnType body header.inlineBody ∧
      ∀ source, ∀ endpoint ∈ (parse source).endpoints,
        (lines source).drop (endpoint.line - 1) = line :: later →
          endpoint.inlineBody = header.inlineBody ∧
            inlineLines header.inlineBody <+: endpoint.moduleBody := by
  obtain ⟨header, found, own, reads⟩ := opens.read
  refine ⟨header, found, own, reads, fun source endpoint member place => ?_⟩
  obtain ⟨_, first, after, opened, again, read, inlined⟩ :=
    (findings_scanned source).inlined endpoint member
  rw [place] at again
  cases again
  obtain rfl := HeaderMatch.found.inj (found.symm.trans read)
  refine ⟨inlined, ?_⟩
  rw [← inlined]
  unfold Endpoint.moduleBody
  dsimp only
  split
  · exact (List.prefix_append _ _).trans (List.prefix_append _ _)
  · exact List.prefix_append _ _

theorem inlineBody_annotated_plain :
    OpensBody (ascii "def f(a) -> Dict[str, int]: return a") [] (ascii "f")
      (ascii "-> Dict[str, int]") (ascii " return a") ∧
    ∃ header, Header.read (ascii "def f(a) -> Dict[str, int]: return a") [] = .found header ∧
      header.inlineBody = ascii "return a" := by
  have opens : OpensBody (ascii "def f(a) -> Dict[str, int]: return a") [] (ascii "f")
      (ascii "-> Dict[str, int]") (ascii " return a") := by
    refine ⟨⟨ascii "(a) -> Dict[str, int]: return a", ⟨ascii "(a) -> Dict[str, int]: return a", 3, 0⟩,
      by decide +kernel, by decide +kernel, by decide +kernel⟩, .inr (by decide +kernel), ?_⟩
    have name : ClosedText (fun b => b ≠ byte ':') (ascii "-> Dict") := .plain (by decide +kernel)
    exact name.append (.bracketed _ (byte '[') (byte ']') (ascii "str, int") [] rfl rfl
      (.plain (by decide +kernel)) (.empty _))
  obtain ⟨header, found, _, reads, _⟩ := inlineBody_annotated _ _ _ _ _ opens
  exact ⟨opens, header, found, (reads.plain (by decide +kernel)).trans (by decide +kernel)⟩

/-- The colon of a string in the return type ends the header: what stands behind it is the body of the
endpoint, and a row of the module, though nothing stands behind the header's own colon. -/
theorem annotation_becomes_body :
    OpensBody (ascii "def f() -> Dict['a:b', int]:") [ascii "    return 1"] (ascii "f")
      (ascii "-> Dict['a:b', int]") [] ∧
    inlineAfter [] = [] ∧
    (parse (ascii "@endpoint('/a')\ndef f() -> Dict['a:b', int]:\n    return 1\n")).endpoints.map
        (fun endpoint => (endpoint.inlineBody, endpoint.moduleBody)) =
      [(ascii "b', int]:", [ascii "        b', int]:", ascii "        return 1"])] := by
  refine ⟨⟨⟨ascii "() -> Dict['a:b', int]:", ⟨ascii "() -> Dict['a:b', int]:", 2, 0⟩,
    by decide +kernel, by decide +kernel, by decide +kernel⟩, .inr (by decide +kernel), ?_⟩, rfl,
    by decide +kernel⟩
  have name : ClosedText (fun b => b ≠ byte ':') (ascii "-> Dict") := .plain (by decide +kernel)
  have string : ClosedText (fun _ => True) (ascii "'a:b', int") :=
    .quoted _ singleQuote (ascii "a:b") (ascii ", int") (.inl rfl) (.plain (by decide +kernel))
      (.plain (by decide +kernel))
  exact name.append (.bracketed _ (byte '[') (byte ']') _ [] rfl rfl string (.empty _))

end EndpointPreview.Notation
