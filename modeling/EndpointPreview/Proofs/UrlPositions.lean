import EndpointPreview.Proofs.BarePaths
import EndpointPreview.Proofs.ParameterPositions
import EndpointPreview.Proofs.StringValues

/-!
URLs read by positions. The parts of a URL are cut out at the positions of its marks, and the port
is read as a number of 32 bits. None of these steps faults, so a text that is not read is refused
for a fault of its own: a bracket that is not closed, or a port that is none.
-/

namespace EndpointPreview.ByPosition.Url

open Text Http

def findClass (inClass : UInt8 → Bool) (text : Bytes) : Option Nat := text.findIdx? inClass

def findLast (mark : UInt8) (text : Bytes) : Option Nat :=
  (findByte mark text.reverse).map fun behind => text.length - 1 - behind

/-- The number at the front of a text; there has to be one of 32 bits. -/
def wholeNumber (text : Bytes) : Checked Int :=
  match Numeral.int32? text with
  | some n => .ok n
  | none => .error .outOfRange

def cutBefore (mark : UInt8) (text : Bytes) : Checked Bytes :=
  match findByte mark text with
  | some position => part text 0 position
  | none => return text

def rooted (path : Bytes) : Checked Bytes := do
  if path.isEmpty then return [byte '/']
  if ← firstIs (byte '/') path then return path else return byte '/' :: path

def pathAndQuery (rest : Bytes) : Checked (Bytes × Bytes) := do
  match findByte (byte '?') rest with
  | some asked =>
      let query ← cutBefore (byte '#') (← textFrom rest (asked + 1))
      let path ← cutBefore (byte '#') (← part rest 0 asked)
      return (← rooted path, query)
  | none => return (← rooted (← cutBefore (byte '#') rest), [])

def port? (written : Bytes) : Checked (Except UrlFault (Option Nat)) := do
  if written.isEmpty then return .ok none
  if !written.all isDigit || 5 < written.length then return .error .badPort
  let port ← wholeNumber written
  if port ≤ 0 ∨ 65535 < port then return .error .portRange
  return .ok (some port.toNat)

def bracketPort (authority : Bytes) (close : Nat) : Checked Bytes := do
  if close + 1 < authority.length then
    if (← itemAt authority (close + 1)) == byte ':' then return ← textFrom authority (close + 2)
  return []

def hostAndPort (authority : Bytes) : Checked (Except UrlFault (Bytes × Bytes)) := do
  let bracketed ← if authority.isEmpty then pure false else firstIs (byte '[') authority
  if bracketed then
    match findByte (byte ']') authority with
    | none => return .error .openBracket
    | some close =>
        return .ok (← part authority 1 (← minus close 1), ← bracketPort authority close)
  else
    match findLast (byte ':') authority with
    | none => return .ok (authority, [])
    | some colon => return .ok (← part authority 0 colon, ← textFrom authority (colon + 1))

def located (scheme : Bytes) (rest : Bytes)
    (place : Except UrlFault (Bytes × Bytes)) : Checked (Except UrlFault Url) := do
  match place with
  | .error fault => return .error fault
  | .ok (host, written) =>
      match ← port? written with
      | .error fault => return .error fault
      | .ok port =>
          let (path, query) ← pathAndQuery rest
          return .ok ⟨lowercase scheme, lowercase host, port, path, query⟩

def ofParts (scheme rest : Bytes) : Checked (Except UrlFault Url) := do
  match findClass Url.endsAuthority rest with
  | none => located scheme [] (← hostAndPort rest)
  | some ends => located scheme (← textFrom rest ends) (← hostAndPort (← part rest 0 ends))

def parse (text : Bytes) : Checked (Except UrlError Url) := do
  match indexOf? Url.schemeMark text with
  | none =>
      let (path, query) ← pathAndQuery text
      return .ok ⟨Url.localScheme, Url.localHost, none, path, query⟩
  | some scheme =>
      let url ← ofParts (← part text 0 scheme) (← textFrom text (scheme + Url.schemeMark.length))
      return url.mapError fun fault => ⟨fault, text⟩

theorem findClass_eq (inClass : UInt8 → Bool) (text : Bytes) :
    (findClass inClass text = none ∧ text.dropWhile (!inClass ·) = []) ∨
      ∃ before mark after, findClass inClass text = some before.length ∧
        text = before ++ mark :: after ∧ text.takeWhile (!inClass ·) = before ∧
        text.dropWhile (!inClass ·) = mark :: after := by
  induction text with
  | nil => exact .inl ⟨rfl, rfl⟩
  | cons b rest ih =>
      rw [findClass, List.findIdx?_cons]
      by_cases ends : inClass b = true
      · have stops : ¬ (!inClass b) = true := by simp [ends]
        rw [if_pos ends]
        exact .inr ⟨[], b, rest, rfl, rfl, List.takeWhile_cons_of_neg stops,
          List.dropWhile_cons_of_neg stops⟩
      · have goes_on : (!inClass b) = true := by simp [ends]
        rw [if_neg ends]
        simp only [List.takeWhile_cons, List.dropWhile_cons, if_pos goes_on]
        rcases ih with ⟨missing, all⟩ | ⟨before, mark, after, found, whole, front, behind⟩
        · exact .inl ⟨congrArg (Option.map (· + 1)) missing, all⟩
        · refine .inr ⟨b :: before, mark, after, congrArg (Option.map (· + 1)) found, ?_, ?_, behind⟩
          · rw [List.cons_append, ← whole]
          · rw [front]

theorem findLast_eq (mark : UInt8) (text : Bytes) :
    (findLast mark text = none ∧ cutAtLast? mark text = none) ∨
      ∃ before after, findLast mark text = some before.length ∧ text = before ++ mark :: after ∧
        cutAtLast? mark text = some (before, after) := by
  rw [findLast, findByte_eq, cutAtLast?]
  cases cut : cutAt? mark text.reverse with
  | none => exact .inl ⟨rfl, rfl⟩
  | some sides =>
      obtain ⟨after, before⟩ := sides
      have turned := cutAt_whole _ _ _ _ cut
      have whole : text = before.reverse ++ mark :: after.reverse := by
        rw [← List.reverse_reverse text, turned]
        simp
      refine .inr ⟨before.reverse, after.reverse, ?_, whole, rfl⟩
      have length := congrArg List.length whole
      simp only [List.length_append, List.length_reverse, List.length_cons] at length
      simp only [Option.map_some, List.length_reverse, Option.some.injEq]
      omega

theorem cutBefore_eq (mark : UInt8) (text : Bytes) :
    cutBefore mark text = .ok (Http.Url.beforeMark mark text) := by
  rw [cutBefore, findByte_eq]
  cases cut : cutAt? mark text with
  | none =>
      have absent : mark ∉ text := fun member => by
        obtain ⟨before, after, rfl, apart⟩ := List.eq_append_cons_of_mem member
        rw [cutAt_mark mark before after apart] at cut
        cases cut
      rw [Http.Url.beforeMark_all mark text absent]
      rfl
  | some sides =>
      obtain ⟨before, after⟩ := sides
      have apart := cutAt_before _ _ _ _ cut
      obtain rfl := cutAt_whole _ _ _ _ cut
      dsimp only [Option.map_some]
      rw [part_before, Http.Url.beforeMark_append mark before after apart]

theorem rooted_eq (path : Bytes) : rooted path = .ok (Http.Url.rooted path) := by
  cases path with
  | nil => rfl
  | cons b path =>
      rw [rooted, if_neg (by simp), firstIs_eq _ (List.cons_ne_nil b path), ok_bind,
        startsWith_head, Http.Url.rooted]
      split <;> rfl

theorem pathAndQuery_eq (rest : Bytes) :
    pathAndQuery rest = .ok (Http.Url.pathAndQuery rest) := by
  rw [pathAndQuery, findByte_eq, Http.Url.pathAndQuery]
  cases cut : cutAt? (byte '?') rest with
  | none =>
      dsimp only [Option.map_none]
      rw [cutBefore_eq, ok_bind, rooted_eq]
      rfl
  | some sides =>
      obtain ⟨path, query⟩ := sides
      obtain rfl := cutAt_whole _ _ _ _ cut
      dsimp only [Option.map_some]
      rw [textFrom_behind, ok_bind, cutBefore_eq, ok_bind, part_before, ok_bind, cutBefore_eq,
        ok_bind, rooted_eq]
      rfl

theorem digitValue_digit {b : UInt8} (digit : isDigit b = true) : digitValue b < 10 := by
  have checked : (ascii "0123456789").all (digitValue · < 10) = true := by decide
  simpa using List.all_eq_true.mp checked b (mem_digits b digit)

theorem wholeNumber_digits (digits : Bytes) (some_digit : digits ≠ []) (all : AllDigits digits)
    (short : digits.length ≤ 5) :
    wholeNumber digits = .ok (Numeral.ofDigits 10 digits : Int) := by
  have unspaced : digits.dropWhile isSpace = digits := by
    have started := (takeWhile_run isSpace [] digits nofun fun b head =>
      digit_solid b (all b (List.mem_of_mem_head? head))).2
    exact started
  have whole : digits.takeWhile isDigit = digits := List.takeWhile_eq_self_iff.mpr all
  have small : Numeral.ofDigits 10 digits < 100000 := by
    have bound := Notation.ofDigits_lt fun b member => digitValue_digit (all b member)
    have power : 10 ^ digits.length ≤ 10 ^ 5 := Nat.pow_le_pow_right (by decide) short
    omega
  have signed : Numeral.signed? 10 isDigit digits = some (Numeral.ofDigits 10 digits : Int) := by
    unfold Numeral.signed?
    rw [unspaced, Numeral.takeSign_digits digits all]
    simp [whole, some_digit, Numeral.applySign]
  have fits : Numeral.fits32 (Numeral.ofDigits 10 digits : Int) =
      some (Numeral.ofDigits 10 digits : Int) := by
    unfold Numeral.fits32 Numeral.within Numeral.limit32
    rw [if_pos (by omega)]
  rw [wholeNumber, Numeral.int32?, signed, Option.bind_some, fits]

theorem port_eq (written : Bytes) : port? written = .ok (Http.Url.port? written) := by
  cases written with
  | nil => rfl
  | cons b rest =>
      rw [port?, if_neg (by simp), Http.Url.port?, if_neg (List.cons_ne_nil b rest)]
      by_cases refused : (!(b :: rest).all isDigit || decide (5 < (b :: rest).length)) = true
      · rw [if_pos refused, if_pos refused]
        rfl
      · have kept := refused
        rw [Bool.or_eq_true, not_or, Bool.not_eq_true', Bool.not_eq_false, decide_eq_true_eq,
          Nat.not_lt] at refused
        obtain ⟨all, short⟩ := refused
        have number := wholeNumber_digits _ (List.cons_ne_nil b rest) (List.all_eq_true.mp all) short
        rw [Numeral.ofDigits] at number
        rw [if_neg kept, if_neg kept, number, ok_bind]
        dsimp only
        generalize (b :: rest).foldl (fun value b => value * 10 + digitValue b) 0 = n
        by_cases outside : n = 0 ∨ 65535 < n
        · rw [if_pos (by omega), if_pos outside]
          rfl
        · rw [if_neg (by omega), if_neg outside, Int.toNat_natCast]
          rfl

theorem bracketPort_eq (opened after : Bytes) :
    bracketPort (opened ++ byte ']' :: after) opened.length =
      .ok (if after.head? == some (byte ':') then after.drop 1 else []) := by
  have behind : (opened ++ byte ']' :: after).drop (opened.length + 1) = after :=
    drop_next List.drop_left
  rw [bracketPort, List.length_append, List.length_cons]
  cases after with
  | nil =>
      rw [if_neg (by simp)]
      rfl
  | cons b after =>
      rw [if_pos (by simp), itemAt_eq behind, ok_bind]
      dsimp only
      by_cases colon : (b == byte ':') = true
      · have next : textFrom (opened ++ byte ']' :: b :: after) (opened.length + 2) = .ok after := by
          rw [textFrom_eq (by simp), drop_next behind]
        have own : ((b :: after).head? == some (byte ':')) = true := colon
        rw [if_pos colon, if_pos own, next]
        rfl
      · have own : ¬ ((b :: after).head? == some (byte ':')) = true := colon
        rw [if_neg colon, if_neg own]
        rfl

theorem hostAndPort_eq (authority : Bytes) :
    hostAndPort authority = .ok (Http.Url.hostAndPort authority) := by
  cases authority with
  | nil => rfl
  | cons first more =>
      rw [hostAndPort, if_neg (by simp), firstIs_eq _ (List.cons_ne_nil first more), ok_bind,
        startsWith_head, Http.Url.hostAndPort]
      dsimp only
      by_cases bracketed : ((first :: more).head? == some (byte '[')) = true
      · rw [if_pos bracketed, if_pos bracketed, findByte_eq]
        cases cut : cutAt? (byte ']') (first :: more) with
        | none => rfl
        | some sides =>
            obtain ⟨opened, after⟩ := sides
            have whole := cutAt_whole _ _ _ _ cut
            have solid : 1 ≤ opened.length := by
              cases opened with
              | nil =>
                  rw [whole] at bracketed
                  cases bracketed
              | cons b opened => simp
            have host : part (opened ++ byte ']' :: after) 1 (opened.length - 1) =
                .ok (opened.drop 1) := by
              rw [part_eq (by rw [List.length_append]; omega), List.drop_append_of_le_length solid,
                ← List.length_drop, List.take_left]
            dsimp only [Option.map_some]
            rw [whole, minus_eq solid, ok_bind, host, ok_bind, bracketPort_eq]
            rfl
      · rw [if_neg bracketed, if_neg bracketed]
        rcases findLast_eq (byte ':') (first :: more) with ⟨missing, uncut⟩ |
          ⟨before, after, found, whole, cut⟩
        · rw [missing, uncut]
          rfl
        · rw [found, cut, whole]
          dsimp only
          rw [part_before, ok_bind, textFrom_behind]
          rfl

theorem located_eq (scheme rest : Bytes) :
    located scheme (rest.dropWhile (!Http.Url.endsAuthority ·))
        (Http.Url.hostAndPort (rest.takeWhile (!Http.Url.endsAuthority ·))) =
      .ok (Http.Url.ofParts scheme rest) := by
  rw [Http.Url.ofParts, Http.Url.authority]
  cases Http.Url.hostAndPort (rest.takeWhile (!Http.Url.endsAuthority ·)) with
  | error fault => rfl
  | ok place =>
      obtain ⟨host, written⟩ := place
      rw [located, port_eq, ok_bind]
      simp only [bind, Except.bind]
      cases Http.Url.port? written with
      | error fault => rfl
      | ok port =>
          dsimp only
          rw [pathAndQuery_eq]
          rfl

theorem ofParts_eq (scheme rest : Bytes) :
    ofParts scheme rest = .ok (Http.Url.ofParts scheme rest) := by
  have known := located_eq scheme rest
  rw [ofParts]
  rcases findClass_eq Http.Url.endsAuthority rest with ⟨missing, all⟩ |
    ⟨before, mark, after, found, whole, front, behind⟩
  · have front : rest.takeWhile (!Http.Url.endsAuthority ·) = rest := by
      have parts := List.takeWhile_append_dropWhile (p := (!Http.Url.endsAuthority ·)) (l := rest)
      rwa [all, List.append_nil] at parts
    rw [all, front] at known
    rw [missing]
    dsimp only
    rw [hostAndPort_eq, ok_bind, known]
  · have cut : part rest 0 before.length = .ok before := whole ▸ part_before before after mark
    have left : textFrom rest before.length = .ok (mark :: after) := by
      rw [whole, textFrom_eq (by simp), List.drop_left]
    rw [front, behind] at known
    rw [found]
    dsimp only
    rw [left, ok_bind, cut, ok_bind, hostAndPort_eq, ok_bind, known]

/-- A text is read or refused, and in no step of that a position is outside of it. -/
theorem parse_eq (text : Bytes) : parse text = .ok (Http.Url.parse text) := by
  rw [parse, Http.Url.parse, cut?]
  cases found : indexOf? Http.Url.schemeMark text with
  | none =>
      dsimp only [Option.map_none]
      rw [pathAndQuery_eq]
      rfl
  | some position =>
      have fits := ((indexOf_some _ _ _).mp found).1.length_le
      rw [List.length_drop] at fits
      have mark : Http.Url.schemeMark.length = 3 := rfl
      dsimp only [Option.map_some]
      rw [part_eq (Nat.zero_le _), List.drop_zero, ok_bind, textFrom_eq (by omega), ok_bind,
        ofParts_eq]
      rfl

end EndpointPreview.ByPosition.Url
