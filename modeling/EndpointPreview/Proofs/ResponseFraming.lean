import EndpointPreview.Proofs.DeclaredLengths

/-!
The body of a response. What follows the header block is cut at the length that the first header
of that name declares, while the table of headers tells the last one; and where fewer bytes follow
than are declared, they are the body. So a body has the length that the headers tell unless two
headers declare different lengths or the response ends early.
-/

namespace EndpointPreview.Http

open Text

-- The values of the headers that declare a length, in the order of their rows.
def declaredLengths (head : Bytes) : List Bytes :=
  (((lines head).drop 1).filterMap headerOf?).filterMap declaredValue?

/-- The number of bytes that a value declares; none when it starts with no number or a negative
one. -/
def countOf? (value : Bytes) : Option Nat :=
  (Numeral.int32? value).bind fun n => if 0 ≤ n then some n.toNat else none

def firstCount? (head : Bytes) : Option Nat := (declaredLengths head).head?.bind countOf?

def lastCount? (head : Bytes) : Option Nat := (declaredLengths head).getLast?.bind countOf?

/-- The table of headers tells the last length that is declared. -/
theorem get_lengthName (assignments : List (Bytes × Bytes)) :
    (Headers.ofList assignments).get? lengthName =
      (assignments.filterMap declaredValue?).getLast? :=
  Table.find?_ofList_formed precedes lowercase precedes_orders lengthName assignments

/-- A status line declares no length. -/
theorem rowLength_statusLine (line : Bytes) (status : Int) (reason : Bytes)
    (read : statusOf? line = some (status, reason)) : rowLength? line = none := by
  refine if_neg fun declares => ?_
  obtain ⟨name, value, cut, own⟩ := (declaresLength_iff line).mp declares
  obtain ⟨first, more, rfl, small, -⟩ := List.map_eq_cons_iff.mp own
  have first_byte : isSpace first = false ∧ first ≠ byte 'H' := by
    have lower : toLower first = 99 := small
    grind only [toLower, isSpace, isUpper]
  obtain ⟨solid, other⟩ := first_byte
  have protocol : startsWith (ascii "HTTP/")
      ((line.dropWhile isSpace).takeWhile (!isSpace ·)) = false := by
    rw [cutAt_whole _ _ _ _ cut, List.cons_append,
      List.dropWhile_cons_of_neg (by simp [solid]), List.takeWhile_cons_of_pos (by simp [solid])]
    exact Bool.and_eq_false_imp.mpr fun same => absurd (beq_iff_eq.mp same).symm other
  simp [statusOf?, protocol] at read

/-- The body is cut at the first length that is declared. -/
theorem contentLength_head (head : Bytes) (status : Int) (reason : Bytes)
    (read : statusOf? ((lines head).headD []) = some (status, reason)) :
    contentLength? (head ++ blankLine) = (declaredLengths head).head?.bind Numeral.int32? := by
  have later : firstLength? (lines head) = firstLength? ((lines head).drop 1) := by
    cases rows : lines head with
    | nil => rfl
    | cons line others =>
        rw [rows] at read
        rw [firstLength?, List.findSome?_cons, rowLength_statusLine line status reason read]
        rfl
  have each : firstLength? ((lines head).drop 1) =
      (declaredLengths head).head?.map Numeral.int32? := by
    rw [declaredLengths, List.filterMap_filterMap, List.head?_filterMap, List.map_findSome?]
    exact congrArg (List.findSome? · ((lines head).drop 1)) (funext rowLength_eq)
  rw [contentLength_first, firstLength_lines, firstLength_blankLine, ← firstLength_lines, later,
    each]
  cases (declaredLengths head).head? <;> rfl

theorem cutBody_count (value : Option Bytes) (rest : Bytes) :
    cutBody (value.bind Numeral.int32?) rest =
      rest.take ((value.bind countOf?).getD rest.length) := by
  cases value with
  | none => exact (List.take_length).symm
  | some value =>
      rw [Option.bind_some, Option.bind_some, countOf?]
      cases Numeral.int32? value with
      | none => exact (List.take_length).symm
      | some n =>
          by_cases natural : 0 ≤ n
          · simp [cutBody, natural]
          · simp [cutBody, natural]

/-- The body has the length that the headers tell, or is all that follows them when they tell
none. -/
def Response.IsFramed (rest : Bytes) (response : Response) : Prop :=
  match (response.headers.get? lengthName).bind countOf? with
  | some n => response.body.length = n ∧ response.body <+: rest
  | none => response.body = rest

structure Response.Framing (head rest : Bytes) (response : Response) : Prop where
  told : response.headers.get? lengthName = (declaredLengths head).getLast?
  cut : response.body = rest.take ((firstCount? head).getD rest.length)
  framed : response.IsFramed rest ↔
    min ((firstCount? head).getD rest.length) rest.length = (lastCount? head).getD rest.length
  -- Where one length is declared, the body has it unless fewer bytes follow.
  agreed : firstCount? head = lastCount? head →
    (response.IsFramed rest ↔ ∀ n ∈ lastCount? head, n ≤ rest.length)

inductive Response.Reads (raw : Bytes) : Except TransportError Response → Prop
  | unended (endless : ¬ blankLine <:+: raw) : Reads raw (.error .noHeaderEnd)
  | unread (head rest line : Bytes) (cut : cut? blankLine raw = some (head, rest))
      (first : (lines head).headD [] = line) (garbled : statusOf? line = none) :
      Reads raw (.error (.badStatusLine line))
  | read (head rest : Bytes) (response : Response) (cut : cut? blankLine raw = some (head, rest))
      (framing : response.Framing head rest) : Reads raw (.ok response)

theorem isFramed_iff (head rest : Bytes) (response : Response)
    (told : response.headers.get? lengthName = (declaredLengths head).getLast?)
    (cut : response.body = rest.take ((firstCount? head).getD rest.length)) :
    response.IsFramed rest ↔
      min ((firstCount? head).getD rest.length) rest.length =
        (lastCount? head).getD rest.length := by
  have length := congrArg List.length cut
  rw [List.length_take] at length
  rw [Response.IsFramed, told, ← lastCount?, ← length]
  cases lastCount? head with
  | some n =>
      have front : response.body <+: rest := cut ▸ List.take_prefix _ _
      exact and_iff_left front
  | none =>
      constructor
      · intro whole
        exact congrArg List.length whole
      · intro whole
        have front : response.body <+: rest := cut ▸ List.take_prefix _ _
        exact front.eq_of_length whole

theorem framing (head rest : Bytes) (response : Response)
    (told : response.headers.get? lengthName = (declaredLengths head).getLast?)
    (cut : response.body = rest.take ((firstCount? head).getD rest.length)) :
    response.Framing head rest where
  told := told
  cut := cut
  framed := isFramed_iff head rest response told cut
  agreed same := by
    rw [isFramed_iff head rest response told cut, same]
    cases lastCount? head with
    | none => simp
    | some n =>
        simp only [Option.getD_some, Option.mem_def, Option.some.injEq, forall_eq']
        omega

/-- Every response that is read has its body cut by the first length that its headers declare. -/
theorem parse_framing (raw : Bytes) : Response.Reads raw (Response.parse raw) := by
  rw [Response.parse]
  cases cut : cut? blankLine raw with
  | none => exact .unended ((cut_none blankLine raw).mp cut)
  | some sides =>
      obtain ⟨head, rest⟩ := sides
      dsimp only
      cases line : statusOf? ((lines head).headD []) with
      | none => exact .unread head rest _ cut rfl line
      | some status =>
          obtain ⟨status, reason⟩ := status
          refine .read head rest _ cut (framing head rest _ (get_lengthName _) ?_)
          dsimp only
          rw [contentLength_head head status reason line, cutBody_count, firstCount?]

/-- Of two headers the first one cuts the body and the last one is told, and a response that ends
early is taken as it is. -/
theorem parse_misframed :
    Response.parse (ascii "HTTP/1.1 200 OK\r\nContent-Length: 3\r\nContent-Length: 5\r\n\r\n12345") =
        .ok ⟨200, ascii "OK", [(ascii "Content-Length", ascii "5")], ascii "123"⟩ ∧
      ¬ Response.IsFramed (ascii "12345")
        ⟨200, ascii "OK", [(ascii "Content-Length", ascii "5")], ascii "123"⟩ ∧
      Response.parse (ascii "HTTP/1.1 200 OK\r\nContent-Length: 5\r\n\r\n123") =
        .ok ⟨200, ascii "OK", [(ascii "Content-Length", ascii "5")], ascii "123"⟩ ∧
      ¬ Response.IsFramed (ascii "123")
        ⟨200, ascii "OK", [(ascii "Content-Length", ascii "5")], ascii "123"⟩ :=
  ⟨rfl, fun framed => absurd framed.1 (by decide), rfl, fun framed => absurd framed.1 (by decide)⟩

end EndpointPreview.Http
