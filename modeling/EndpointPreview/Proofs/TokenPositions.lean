import EndpointPreview.Proofs.Positions
import EndpointPreview.Proofs.Words

/-!
Tokens read by positions. The scan keeps one position in the text, looks at the bytes
there and up to two bytes ahead, and cuts the tokens out by where they start and stop.
What it reads at a position is the first piece of the text from there on, so a scan of
the whole text gives its tokens, and it never leaves the text.
-/

namespace EndpointPreview.ByPosition

open Text Notation

def quotedTwice (quote : UInt8) (text : Bytes) (position : Nat) : Checked Bool := do
  let second ← peek text (position + 1)
  let third ← peek text (position + 2)
  return second == quote && third == quote

-- The closing mark of a string stands at a position, where the byte is `b`.
def closesAt (quote : UInt8) (triple : Bool) (text : Bytes) (position : Nat) (b : UInt8) :
    Checked Bool :=
  if b == quote then
    if triple then quotedTwice quote text position else return true
  else return false

/-- The content of a string and the position behind it, or nothing when it is never closed;
`content` is what was read before `position`. -/
def stringFrom (quote : UInt8) (triple : Bool) (text : Bytes) (position : Nat) (content : Bytes) :
    Checked (Option (Bytes × Nat)) :=
  if position < text.length then do
    let b ← peek text position
    if b == backslash && position + 1 < text.length then do
      let mark ← peek text (position + 1)
      stringFrom quote triple text (position + 2) (content ++ escapeValue mark)
    else if ← closesAt quote triple text position b then
      return some (content, position + (closingMark quote triple).length)
    else if b == newline && !triple then return none
    else stringFrom quote triple text (position + 1) (content ++ [b])
  else return none
termination_by text.length - position

theorem drop_behind {text rest : Bytes} {b : UInt8} {position : Nat}
    (stands : text.drop position = b :: rest) (count : Nat) :
    text.drop (position + (count + 1)) = rest.drop count := by
  rw [← List.drop_drop, stands, List.drop_succ_cons]

theorem quotedTwice_eq (quote : UInt8) (real : quote ≠ 0) (text rest : Bytes) (position : Nat)
    (b : UInt8) (stands : text.drop position = b :: rest) :
    quotedTwice quote text position = .ok ([quote, quote].isPrefixOf rest) := by
  rw [quotedTwice, peek_eq, peek_eq, drop_behind stands 0, drop_behind stands 1]
  rcases rest with _ | ⟨second, _ | ⟨third, rest⟩⟩
  · simp [real.symm]
  · simp [List.isPrefixOf, real.symm]
  · simp [List.isPrefixOf, Bool.beq_comm]

theorem closesAt_eq (quote : UInt8) (real : quote ≠ 0) (triple : Bool) (text rest : Bytes)
    (position : Nat) (b : UInt8) (stands : text.drop position = b :: rest) :
    closesAt quote triple text position b =
      .ok ((closingMark quote triple).isPrefixOf (b :: rest)) := by
  rw [closesAt, quotedTwice_eq quote real text rest position b stands]
  by_cases same : b = quote
  · subst same
    cases triple <;> simp [closingMark, List.isPrefixOf]
  · have other : ¬ quote = b := fun back => same back.symm
    cases triple <;> simp [closingMark, List.isPrefixOf, same, other]

-- What the loop does at a byte depends on the text from there on.
theorem stringFrom_step (quote : UInt8) (real : quote ≠ 0) (triple : Bool) (text rest : Bytes)
    (position : Nat) (content : Bytes) (b : UInt8) (stands : text.drop position = b :: rest) :
    stringFrom quote triple text position content =
      if b == backslash && !rest.isEmpty then
        stringFrom quote triple text (position + 2) (content ++ escapeValue (rest.headD 0))
      else if (closingMark quote triple).isPrefixOf (b :: rest) then
        .ok (some (content, position + (closingMark quote triple).length))
      else if b == newline && !triple then .ok none
      else stringFrom quote triple text (position + 1) (content ++ [b]) := by
  have goes_on : decide (position + 1 < text.length) = !rest.isEmpty := by
    have length := congrArg List.length stands
    rw [List.length_drop, List.length_cons] at length
    cases rest <;> simp at length ⊢ <;> omega
  conv_lhs => rw [stringFrom]
  rw [if_pos (lt_length stands), peek_next stands, ok_bind, goes_on,
    closesAt_eq quote real triple text rest position b stands, peek_eq, drop_behind stands 0]
  rfl

theorem content_prepend (content read raw : Bytes) (position : Nat) (body : StringBody) :
    (content ++ (body.prepend read raw).content, position + (body.prepend read raw).raw.length) =
      ((content ++ read) ++ body.content, position + raw.length + body.raw.length) := by
  simp [StringBody.prepend, Nat.add_assoc]

theorem stringFrom_eq (quote : UInt8) (real : quote ≠ 0) (triple : Bool) (text rest : Bytes)
    (position : Nat) (content : Bytes) (stands : text.drop position = rest) :
    stringFrom quote triple text position content =
      .ok ((stringBody? quote triple rest).map fun body =>
        (content ++ body.content, position + body.raw.length)) := by
  fun_induction stringBody? quote triple rest generalizing position content with
  | case1 =>
      rw [stringFrom, if_neg (Nat.not_lt.mpr (List.drop_eq_nil_iff.mp stands))]
      rfl
  | case2 b ends =>
      simp only [Bool.and_eq_true, Bool.not_eq_true', beq_iff_eq] at ends
      obtain ⟨rfl, rfl⟩ := ends
      rw [stringFrom_step b real false text [] position content b stands]
      simp [closingMark, List.isPrefixOf]
  | case3 b open_still =>
      have ended := List.drop_eq_nil_iff.mp (drop_next stands)
      have not_closed : ¬ (closingMark quote triple).isPrefixOf [b] = true := by
        have other : triple = false → ¬ quote = b :=
          fun single same => open_still (by simp [single, same])
        cases triple <;> simp [closingMark, List.isPrefixOf, other]
      rw [stringFrom_step quote real triple text [] position content b stands, if_neg (by simp),
        if_neg not_closed, stringFrom, if_neg (Nat.not_lt.mpr ended)]
      split <;> rfl
  | case4 b next rest escape ih =>
      rw [stringFrom_step quote real triple text _ position content b stands,
        if_pos (by simp [escape]), ih (position + 2) _ (drop_behind stands 1), Option.map_map]
      simp only [Function.comp_def, content_prepend]
      rfl
  | case5 b next rest plain closes =>
      rw [stringFrom_step quote real triple text _ position content b stands,
        if_neg (by simp [plain]), if_pos closes]
      simp
  | case6 b next rest plain unclosed broken =>
      rw [stringFrom_step quote real triple text _ position content b stands,
        if_neg (by simp [plain]), if_neg unclosed, if_pos broken]
      rfl
  | case7 b next rest plain unclosed unbroken ih =>
      rw [stringFrom_step quote real triple text _ position content b stands,
        if_neg (by simp [plain]), if_neg unclosed, if_neg unbroken,
        ih (position + 1) _ (drop_next stands), Option.map_map]
      simp only [Function.comp_def, content_prepend]
      rfl

/-- The position behind the digits at a position, or `start` when there are none. -/
def digitsStop (text : Bytes) (start position : Nat) : Checked Nat := do
  if isDigit (← peek text position) then skip isDigit text position else return start

/-- The position behind the exponent of a number, or `position` when there is none. -/
def exponentStop (text : Bytes) (position : Nat) : Checked Nat := do
  let mark ← peek text position
  if mark == byte 'e' || mark == byte 'E' then
    let sign ← peek text (position + 1)
    let signed := if sign == byte '+' || sign == byte '-' then 1 else 0
    digitsStop text position (position + 1 + signed)
  else return position

/-- The position behind the fraction of a number, or `position` when there is none. -/
def fractionStop (text : Bytes) (position : Nat) : Checked Nat := do
  if (← peek text position) == byte '.' then skip isNumberByte text (position + 1)
  else return position

def numberStop (text : Bytes) (start : Nat) : Checked Nat := do
  let zero ← peek text start
  let x ← peek text (start + 1)
  if zero == byte '0' && (x == byte 'x' || x == byte 'X') then skip isHexDigit text (start + 2)
  else exponentStop text (← fractionStop text (← skip isNumberByte text start))

theorem fractionStop_eq (text : Bytes) (position : Nat) :
    fractionStop text position =
      .ok (position + (fractionPart (text.drop position)).length) := by
  rw [fractionStop, peek_eq, ok_bind, skip_eq, ← List.drop_drop]
  cases text.drop position with
  | nil => rfl
  | cons b rest =>
      simp only [List.headD_cons, List.drop_succ_cons, List.drop_zero, fractionPart]
      split
      · rw [List.length_cons, Nat.add_right_comm, Nat.add_assoc position]
      · rfl

theorem digitsStop_eq (text : Bytes) (start position : Nat) :
    digitsStop text start position =
      .ok (if ((text.drop position).takeWhile isDigit).isEmpty then start
        else position + ((text.drop position).takeWhile isDigit).length) := by
  rw [digitsStop, peek_eq, ok_bind, skip_eq]
  cases text.drop position with
  | nil => rfl
  | cons b rest =>
      by_cases digit : isDigit b = true
      · simp [digit]
      · simp [digit]

theorem exponentStop_eq (text : Bytes) (position : Nat) :
    exponentStop text position =
      .ok (position + (exponentPart (text.drop position)).length) := by
  -- Behind the mark and the sign the digits are the same ones, so only lengths are compared.
  have behind_sign (mark : UInt8) (rest sign : Bytes) (signed : Nat) (length : sign.length = signed)
      (stands : text.drop position = mark :: rest) :
      digitsStop text position (position + 1 + signed) =
        .ok (position + (if ((rest.drop sign.length).takeWhile isDigit).isEmpty then []
          else mark :: sign ++ (rest.drop sign.length).takeWhile isDigit).length) := by
    rw [digitsStop_eq, Nat.add_assoc, Nat.add_comm 1, drop_behind stands signed, length]
    split
    · rfl
    · simp [length]
      omega
  rw [exponentStop, peek_eq, ok_bind]
  cases stands : text.drop position with
  | nil => rfl
  | cons mark rest =>
      rw [List.headD_cons, peek_eq, ok_bind, drop_behind stands 0, List.drop_zero]
      unfold exponentPart
      dsimp only
      by_cases marked : (mark == byte 'e' || mark == byte 'E') = true
      · rw [if_pos marked, if_pos marked]
        apply behind_sign mark rest _ _ _ stands
        cases rest with
        | nil => rfl
        | cons sign rest =>
            rw [List.headD_cons]
            exact apply_ite List.length _ [sign] []
      · rw [if_neg marked, if_neg marked]
        rfl

theorem numberStop_eq (text : Bytes) (start : Nat) :
    numberStop text start = .ok (start + (numberText (text.drop start)).length) := by
  have plain : (do exponentStop text (← fractionStop text (← skip isNumberByte text start))) =
      (.ok (start + (plainNumber (text.drop start)).length) : Checked Nat) := by
    rw [skip_eq, ok_bind, fractionStop_eq, ok_bind, exponentStop_eq, plainNumber]
    simp [List.drop_drop, Nat.add_assoc]
  have ahead : text.drop (start + 1) = (text.drop start).drop 1 := by rw [List.drop_drop]
  rw [numberStop, peek_eq, peek_eq, ok_bind, ok_bind, plain, ahead, skip_eq]
  rcases stands : text.drop start with _ | ⟨zero, _ | ⟨x, rest⟩⟩
  · rfl
  · have no_hex : ¬ (zero == byte '0' && ((0 : UInt8) == byte 'x' || (0 : UInt8) == byte 'X')) =
        true := by simp
    exact if_neg no_hex
  · rw [drop_behind stands 1, List.drop_one, List.drop_one, List.tail_cons, List.tail_cons,
      List.headD_cons, List.headD_cons]
    unfold numberText
    dsimp only
    by_cases hex : (zero == byte '0' && (x == byte 'x' || x == byte 'X')) = true
    · rw [if_pos hex, if_pos hex, List.length_cons, List.length_cons, Nat.add_assoc, Nat.add_comm 2]
    · rw [if_neg hex, if_neg hex]

-- The token that was read, if it was one, and the position behind what was read.
structure Lexed where
  token : Option Token
  stop : Nat
  deriving DecidableEq, Repr

def opensTriple (text : Bytes) (start : Nat) (quote : UInt8) : Checked Bool := do
  return quote != backtick && (← quotedTwice quote text start)

def stringAt (text : Bytes) (start : Nat) (quote : UInt8) : Checked Lexed := do
  let triple ← opensTriple text start quote
  match ← stringFrom quote triple text (start + (closingMark quote triple).length) [] with
  | some (content, stop) => return ⟨some ⟨.string, content, start⟩, stop⟩
  | none => return ⟨some ⟨.invalid, ← textFrom text start, start⟩, text.length⟩

def plainToken (kind : TokenKind) (text : Bytes) (start stop : Nat) : Checked Lexed := do
  return ⟨some ⟨kind, ← between text start stop, start⟩, stop⟩

def markAt (text : Bytes) (start : Nat) (b : UInt8) : Checked Lexed := do
  match pairKind? b (← peek text (start + 1)) with
  | some kind => plainToken kind text start (start + 2)
  | none => plainToken (markKind b) text start (start + 1)

def lexedAt (text : Bytes) (position : Nat) : Checked Lexed := do
  let b ← peek text position
  if isSpace b then return ⟨none, position + 1⟩
  else if b == byte '#' then return ⟨none, ← skip (· != newline) text position⟩
  else if isQuote b then stringAt text position b
  else if isDigit b || (b == byte '.' && isDigit (← peek text (position + 1))) then
    plainToken .number text position (← numberStop text position)
  else if isWordStart b then
    plainToken .identifier text position (← skip isWordByte text position)
  else markAt text position b

def tokensFrom (text : Bytes) : Nat → Nat → Checked TokenScan
  | 0, _ => .error .endless
  | steps + 1, position =>
      if position < text.length then do
        let lexed ← lexedAt text position
        match lexed.token with
        | none => tokensFrom text steps lexed.stop
        | some token =>
            if token.kind = .invalid then return ⟨[token], some token.offset⟩
            else
              let scan ← tokensFrom text steps lexed.stop
              return ⟨token :: scan.tokens, scan.openString⟩
      else return ⟨[⟨.finish, [], text.length⟩], none⟩

def scanTokens (text : Bytes) : Checked TokenScan := tokensFrom text (text.length + 1) 0

def lexedPiece (start : Nat) : Piece → Lexed
  | .gap raw => ⟨none, start + raw.length⟩
  | .lexeme kind text raw => ⟨some ⟨kind, text, start⟩, start + raw.length⟩

theorem plainToken_eq (kind : TokenKind) (text raw : Bytes) (start : Nat)
    (stands : raw <+: text.drop start) (fits : start ≤ text.length) :
    plainToken kind text start (start + raw.length) = .ok (lexedPiece start (.plain kind raw)) := by
  rw [plainToken, between_front stands fits]
  rfl

theorem stringAt_eq (text after : Bytes) (start : Nat) (quote : UInt8)
    (quotes : isQuote quote = true) (stands : text.drop start = quote :: after) :
    stringAt text start quote = .ok (lexedPiece start (.ofString quote after)) := by
  have real : quote ≠ 0 := by
    rintro rfl
    exact absurd quotes (by decide)
  have triple : opensTriple text start quote = .ok (Notation.opensTriple quote after) := by
    rw [opensTriple, quotedTwice_eq quote real text after start quote stands]
    rfl
  have behind (count : Nat) : text.drop (start + count) = (quote :: after).drop count := by
    rw [← List.drop_drop, stands]
  have closed := stringFrom_eq quote real (Notation.opensTriple quote after) text _ _ []
    (behind (closingMark quote (Notation.opensTriple quote after)).length)
  rw [stringAt, triple, ok_bind, closed, ok_bind, Piece.ofString]
  cases stringBody? quote (Notation.opensTriple quote after) _ with
  | none =>
      have whole := congrArg List.length stands
      rw [List.length_drop, List.length_cons] at whole
      have stop : text.length = start + (quote :: after).length := by
        rw [List.length_cons]
        omega
      dsimp only [Option.map_none]
      rw [textFrom_eq (Nat.le_of_lt (lt_length stands)), stands, ok_bind, stop]
      rfl
  | some body =>
      dsimp only [Option.map_some]
      rw [List.nil_append, pure_ok, Nat.add_assoc, ← List.length_append]
      rfl

theorem markAt_eq (text after : Bytes) (start : Nat) (b : UInt8)
    (stands : text.drop start = b :: after) :
    markAt text start b = .ok (lexedPiece start (.ofMark b after)) := by
  have fits := Nat.le_of_lt (lt_length stands)
  have single : plainToken (markKind b) text start (start + 1) =
      .ok (lexedPiece start (.plain (markKind b) [b])) :=
    plainToken_eq _ text [b] start (stands ▸ List.prefix_append [b] after) fits
  rw [markAt, peek_eq, drop_behind stands 0, List.drop_zero, ok_bind]
  cases after with
  | nil =>
      have no_pair : pairKind? b 0 = none := by simp [pairKind?]
      rw [List.headD_nil, no_pair]
      exact single
  | cons next after =>
      rw [List.headD_cons, Piece.ofMark]
      cases pairKind? b next with
      | none => exact single
      | some kind =>
          exact plainToken_eq kind text [b, next] start
            (stands ▸ List.prefix_append [b, next] after) fits

theorem startsNumber_eq (b : UInt8) (after : Bytes) :
    (isDigit b || (b == byte '.' && isDigit (after.headD 0))) = startsNumber (b :: after) := by
  cases after <;> rfl

theorem isWordByte_start (b : UInt8) (starts : isWordStart b = true) : isWordByte b = true := by
  simp only [isWordStart, isWordByte, isAlnum, Bool.or_eq_true] at starts ⊢
  exact starts.imp_left .inl

theorem lexedAt_eq (text after : Bytes) (position : Nat) (b : UInt8)
    (stands : text.drop position = b :: after) :
    lexedAt text position = .ok (lexedPiece position (.first b after)) := by
  have fits := Nat.le_of_lt (lt_length stands)
  have run (inClass : UInt8 → Bool) (inside : inClass b = true) :
      skip inClass text position = .ok (position + (b :: after.takeWhile inClass).length) := by
    rw [skip_eq, stands, List.takeWhile_cons_of_pos inside]
  rw [lexedAt, peek_next stands, ok_bind, peek_eq, drop_behind stands 0, List.drop_zero, ok_bind,
    startsNumber_eq, Piece.first]
  by_cases space : isSpace b = true
  · rw [if_pos space, if_pos space]
    rfl
  rw [if_neg space, if_neg space]
  by_cases comment : (b == byte '#') = true
  · rw [if_pos comment, if_pos comment, run _ (by rw [beq_iff_eq.mp comment]; decide)]
    rfl
  rw [if_neg comment, if_neg comment]
  by_cases quotes : isQuote b = true
  · rw [if_pos quotes, if_pos quotes]
    exact stringAt_eq text after position b quotes stands
  rw [if_neg quotes, if_neg quotes]
  by_cases number : startsNumber (b :: after) = true
  · rw [if_pos number, if_pos number, numberStop_eq, ok_bind, stands]
    exact plainToken_eq _ text _ position (stands ▸ numberText_front _) fits
  rw [if_neg number, if_neg number]
  by_cases word : isWordStart b = true
  · rw [if_pos word, if_pos word, run _ (isWordByte_start b word), ok_bind]
    exact plainToken_eq _ text _ position
      (stands ▸ List.cons_prefix_cons.mpr ⟨rfl, List.takeWhile_prefix _⟩) fits
  · rw [if_neg word, if_neg word]
    exact markAt_eq text after position b stands

def scanPieces (length start : Nat) (parts : List Piece) : TokenScan :=
  match unterminatedFrom start parts with
  | some offset => ⟨lexemesFrom start parts, some offset⟩
  | none => ⟨lexemesFrom start parts ++ [⟨.finish, [], length⟩], none⟩

-- A string that is never closed is the last piece.
theorem first_invalid (b : UInt8) (after word raw : Bytes)
    (invalid : Piece.first b after = .lexeme .invalid word raw) : raw = b :: after := by
  unfold Piece.first at invalid
  split_ifs at invalid
  · unfold Piece.ofString at invalid
    dsimp only at invalid
    split at invalid
    · cases invalid
    · cases invalid
      rfl
  · cases invalid
  · cases invalid
  · have valid := (ofMark_kind b after (.invalid, word) (by simp [invalid, Piece.word?])).2.1
    exact absurd rfl valid

theorem lexeme_isInvalid (kind : TokenKind) (word raw : Bytes) :
    (Piece.lexeme kind word raw).isInvalid = true ↔ kind = .invalid := by
  cases kind <;> simp [Piece.isInvalid]

theorem tokensFrom_eq (text rest : Bytes) (steps position : Nat)
    (stands : text.drop position = rest) (enough : rest.length < steps) :
    tokensFrom text steps position = .ok (scanPieces text.length position (pieces rest)) := by
  induction steps generalizing position rest with
  | zero => cases enough
  | succ steps ih =>
      cases rest with
      | nil =>
          rw [tokensFrom, if_neg (Nat.not_lt.mpr (List.drop_eq_nil_iff.mp stands))]
          rfl
      | cons b after =>
          obtain ⟨rest, whole, dropped, shorter⟩ := first_rest b after
          have next : text.drop (position + (Piece.first b after).raw.length) = rest := by
            rw [← List.drop_drop, stands, dropped]
          have later := ih rest _ next (Nat.lt_of_le_of_lt shorter (Nat.lt_of_succ_lt_succ enough))
          rw [tokensFrom, if_pos (lt_length stands), lexedAt_eq text after position b stands,
            ok_bind, pieces_cons, dropped]
          cases piece : Piece.first b after with
          | gap raw =>
              rw [piece] at later
              exact later
          | lexeme kind word raw =>
              rw [piece] at later whole
              dsimp only [Piece.raw] at later whole
              by_cases invalid : kind = .invalid
              · subst invalid
                have last : rest = [] := by
                  have all := first_invalid b after word raw piece
                  rw [all] at whole
                  exact List.self_eq_append_right.mp whole
                rw [last]
                rfl
              · have valid : ¬ (Piece.lexeme kind word raw).isInvalid = true := by
                  rwa [lexeme_isInvalid]
                dsimp only [lexedPiece]
                rw [if_neg invalid, later, ok_bind, scanPieces, scanPieces, unterminatedFrom,
                  if_neg valid]
                dsimp only [lexemesFrom, Piece.raw]
                cases unterminatedFrom (position + raw.length) (pieces rest) <;> rfl

theorem scanTokens_eq (text : Bytes) : scanTokens text = .ok (Notation.scanTokens text) :=
  tokensFrom_eq text text _ 0 rfl (Nat.lt_succ_self _)

def openBracketDepth (text : Bytes) : Checked Int := do
  let scan ← scanTokens text
  match scan.openString with
  | some _ => return -1
  | none => return scan.tokens.foldl (fun depth token => depth + depthChange token.kind) 0

theorem openBracketDepth_eq (text : Bytes) :
    openBracketDepth text = .ok (Notation.openBracketDepth text) := by
  rw [openBracketDepth, scanTokens_eq, ok_bind, Notation.openBracketDepth]
  cases (Notation.scanTokens text).openString <;> rfl

end EndpointPreview.ByPosition
