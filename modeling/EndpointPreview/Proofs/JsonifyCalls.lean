import EndpointPreview.Proofs.LiteralDerivations
import EndpointPreview.Proofs.ReturnedLiterals
import EndpointPreview.Proofs.Seams
import EndpointPreview.StrictFormats

/-!
A literal returned as it stands and in a `jsonify` call. The call is taken off when its closing
parenthesis is the last byte of the statement, so both statements return the same unless a comment
stands behind the call. Of a statement over several rows all rows are read, as long as each row
but the last one leaves a bracket or a string open.
-/

namespace EndpointPreview.Notation

open Text

theorem words_jsonify (text : Bytes) :
    words (jsonifyCall ++ text) =
        (.identifier, ascii "jsonify") :: (.leftParen, ascii "(") :: words text ∧
      stringsClosed (jsonifyCall ++ text) = stringsClosed text := by
  have name : Piece.first (byte 'j') (ascii "sonify(" ++ text) =
      .plain .identifier (ascii "jsonify") := rfl
  have opening : Piece.first (byte '(') text = .plain .leftParen (ascii "(") := by
    cases text <;> rfl
  have call : jsonifyCall ++ text = byte 'j' :: (ascii "sonify(" ++ text) := rfl
  have behind_name : (byte 'j' :: (ascii "sonify(" ++ text)).drop (ascii "jsonify").length =
      byte '(' :: text := rfl
  rw [call, words_cons, stringsClosed_cons, name, Piece.plain]
  dsimp only [Piece.raw]
  rw [behind_name, words_cons, stringsClosed_cons, opening]
  exact ⟨rfl, rfl⟩

def tokensDepth (tokens : List Token) : Int := netDepth (tokens.map Token.word)

theorem tokensDepth_cons (token : Token) (rest : List Token) :
    tokensDepth (token :: rest) = depthChange token.kind + tokensDepth rest := rfl

theorem tokensDepth_append (front back : List Token) :
    tokensDepth (front ++ back) = tokensDepth front + tokensDepth back := by
  unfold tokensDepth
  rw [List.map_append, netDepth_append]

theorem tokensDepth_flat {tokens : List Token} (flat : ∀ token ∈ tokens, Flat token) :
    tokensDepth tokens = 0 := by
  induction tokens with
  | nil => rfl
  | cons token rest ih =>
      obtain ⟨⟨opens, closes⟩, others⟩ := List.forall_mem_cons.mp flat
      simp [tokensDepth_cons, depthChange, opens, closes, ih others]

theorem tokensDepth_enclosed {first last : Token} (encloses : Encloses first last)
    (inner : List Token) : tokensDepth (first :: (inner ++ [last])) = tokensDepth inner := by
  have nothing : tokensDepth [] = 0 := rfl
  simp only [tokensDepth_cons, tokensDepth_append, depthChange, encloses.opens, encloses.closes,
    encloses.one_way, nothing, ↓reduceIte, Bool.false_eq_true]
  omega

theorem tokensDepth_separated {front back : List Token} {mark : Token} (flat : Flat mark) :
    tokensDepth (front ++ mark :: back) = tokensDepth front + tokensDepth back := by
  simp [tokensDepth_append, tokensDepth_cons, depthChange, flat.1, flat.2]

theorem Trailing.flat {trail : List Token} (trailing : Trailing trail) : tokensDepth trail = 0 := by
  cases trailing with
  | nothing => rfl
  | comma kind => exact tokensDepth_flat (by simpa using Flat.of_kind kind ⟨rfl, rfl⟩)

theorem tokensDepth_contained {first last : Token} {inner trail : List Token}
    (encloses : Encloses first last) (trailing : Trailing trail) :
    tokensDepth (first :: (inner ++ (trail ++ [last]))) = tokensDepth inner := by
  rw [← List.append_assoc, tokensDepth_enclosed encloses, tokensDepth_append, trailing.flat,
    Int.add_zero]

/-- The brackets of what is written are closed. -/
theorem Writes.closes [Json.Dialect] {tokens : List Token} {phrase : Phrase}
    (writes : Writes tokens phrase) : tokensDepth tokens = 0 := by
  induction writes with
  | strings some_token all =>
      exact tokensDepth_flat fun token member => .of_kind (all token member) ⟨rfl, rfl⟩
  | number kind _ | trueName kind _ | falseName kind _ | noneName kind _ =>
      exact tokensDepth_flat (by simpa using Flat.of_kind kind ⟨rfl, rfl⟩)
  | negative sign number _ | positive sign number _ =>
      have both := And.intro (Flat.of_kind sign ⟨rfl, rfl⟩) (Flat.of_kind number ⟨rfl, rfl⟩)
      exact tokensDepth_flat (by simpa using both)
  | emptyList opens closes => exact tokensDepth_enclosed (.square opens closes) []
  | emptyTuple opens closes => exact tokensDepth_enclosed (.round opens closes) []
  | emptyDictionary opens closes => exact tokensDepth_enclosed (.curly opens closes) []
  | grouped opens _ closes ih => exact (tokensDepth_enclosed (.round opens closes) _).trans ih
  | list opens _ trailing closes ih =>
      exact (tokensDepth_contained (.square opens closes) trailing).trans ih
  | tuple opens _ trailing _ closes ih =>
      exact (tokensDepth_contained (.round opens closes) trailing).trans ih
  | dictionary opens _ trailing closes ih =>
      exact (tokensDepth_contained (.curly opens closes) trailing).trans ih
  | lastItem _ ih | lastEntry _ ih => exact ih
  | moreItems _ mark _ ih later | moreEntries _ mark _ ih later | entry _ _ mark _ ih later =>
      rw [tokensDepth_separated (.of_kind mark ⟨rfl, rfl⟩), ih, later]
      rfl

/-- What a literal is read from: tokens that write its value. -/
theorem literal_written [Json.Dialect] (text : Bytes) (value : Json)
    (found : literal? text = some value) :
    ∃ tokens, tokens.map Token.word = words text ∧ Writes tokens (.value value) := by
  obtain ⟨tokens, last, scan, own, ends⟩ := scan_closed text (literal_closed text value found)
  have inside : ∀ token ∈ tokens, token.kind ≠ .finish := by
    intro token member
    apply words_kind text token.word
    rw [← own]
    exact List.mem_map_of_mem member
  unfold literal? at found
  dsimp only at found
  rw [scan] at found
  exact ⟨tokens, own, ((literalOfTokens_iff inside (congrArg Prod.fst ends) value).mp found).1⟩

theorem literal_closes [Json.Dialect] (text : Bytes) (value : Json)
    (found : literal? text = some value) : netDepth (words text) = 0 := by
  obtain ⟨tokens, own, written⟩ := literal_written text value found
  rw [← own]
  exact written.closes

-- No literal starts with the name of the call.
theorem literal_call [Json.Dialect] (text : Bytes) : literal? (jsonifyCall ++ text) = none := by
  cases closed : stringsClosed (jsonifyCall ++ text) with
  | false =>
      obtain ⟨_, offset, scan, _⟩ := scan_open _ closed
      unfold literal?
      dsimp only
      rw [scan]
  | true =>
      obtain ⟨tokens, last, scan, own, _⟩ := scan_closed _ closed
      rw [(words_jsonify text).1] at own
      cases tokens with
      | nil => cases own
      | cons token rest =>
          obtain ⟨name, _⟩ := List.cons.inj own
          have kind : token.kind = .identifier := congrArg Prod.fst name
          have unknown : nameValue token.text = none := by
            have text : token.text = ascii "jsonify" := congrArg Prod.snd name
            rw [text]
            rfl
          unfold literal?
          dsimp only
          rw [scan]
          unfold literalOfTokens readValue
          simp [nextKind_cons, nextText_cons, kind, unknown]

-- What may stand behind a statement in its row: white space, or a comment.
inductive Trail : Bytes → Prop where
  | blank {gap : Bytes} (blank : isBlank gap = true) (one_row : newline ∉ gap) : Trail gap
  | comment {gap note : Bytes} (blank : isBlank gap = true) (one_row : newline ∉ gap ++ note) :
      Trail (gap ++ byte '#' :: note)

namespace Trail

variable {trail : Bytes}

theorem one_row (own : Trail trail) : newline ∉ trail := by
  cases own with
  | blank _ one_row => exact one_row
  | comment _ one_row =>
      rw [List.mem_append, not_or] at one_row
      have other : newline ≠ byte '#' := by decide
      simp only [List.mem_append, List.mem_cons, not_or]
      exact ⟨one_row.1, other, one_row.2⟩

theorem stops (own : Trail trail) : EndsPiece trail := by
  cases own with
  | blank blank _ => exact .of_blank blank
  | comment blank _ =>
      have mark (note : Bytes) : EndsPiece (byte '#' :: note) := by
        rintro b ⟨⟩
        rfl
      exact (mark _).behind_gap blank

theorem words_eq (own : Trail trail) : words trail = [] ∧ stringsClosed trail = true := by
  cases own with
  | @blank gap blank _ =>
      obtain ⟨own, closed, _⟩ := words_gap trail [] blank
      rw [List.append_nil] at own closed
      exact ⟨own, closed⟩
  | @comment gap note blank one_row =>
      obtain ⟨own, closed, _⟩ := words_gap gap (byte '#' :: note) blank
      have inside : newline ∉ note := fun member => one_row (List.mem_append_right _ member)
      have comment := words_row note [] inside (by rintro b ⟨⟩)
      rw [List.append_nil] at comment
      rw [own, closed, comment.1, comment.2]
      exact ⟨rfl, rfl⟩

end Trail

/-- Nothing of a row is left behind a comment. -/
theorem dropWhile_own_row (row : Bytes) (one_row : newline ∉ row) :
    row.dropWhile (· != newline) = [] := by
  have whole := dropWhile_row row [] one_row (by rintro b ⟨⟩)
  rwa [List.append_nil] at whole

theorem words_trail {text trail : Bytes} (closed : stringsClosed text = true) (own : Trail trail) :
    words (text ++ trail) = words text ∧ stringsClosed (text ++ trail) = true := by
  obtain ⟨whole, whole_open⟩ := words_append text trail own.stops closed
  rw [whole, whole_open, behind]
  split
  · rw [dropWhile_own_row trail own.one_row]
    exact ⟨List.append_nil _, rfl⟩
  · rw [own.words_eq.1, own.words_eq.2]
    exact ⟨List.append_nil _, rfl⟩

theorem literal_trail [Json.Dialect] {literal trail : Bytes} {value : Json}
    (read : literal? literal = some value) (own : Trail trail) :
    literal? (literal ++ trail) = some value := by
  have closed := literal_closed literal value read
  obtain ⟨same, same_closed⟩ := words_trail closed own
  rw [literal_words literal (literal ++ trail) (same_closed.trans closed.symm) fun _ => same]
  exact read

/-- A call is taken off if its closing parenthesis is the last byte. -/
theorem unwrapJsonify_cases (text : Bytes) :
    (∃ argument, text = jsonifyCall ++ (argument ++ [byte ')']) ∧ unwrapJsonify text = argument) ∨
      unwrapJsonify text = text := by
  unfold unwrapJsonify
  by_cases unwraps : (startsWith jsonifyCall text && text.getLast? == some (byte ')')) = true
  · rw [if_pos unwraps]
    rw [Bool.and_eq_true, beq_iff_eq] at unwraps
    obtain ⟨after, rfl⟩ := List.isPrefixOf_iff_prefix.mp unwraps.1
    cases after using List.reverseRecOn with
    | nil => exact absurd unwraps.2 (by decide)
    | append_singleton argument last =>
        rw [← List.append_assoc, List.getLast?_concat] at unwraps
        obtain rfl := Option.some.inj unwraps.2
        exact .inl ⟨argument, rfl, by rw [List.drop_left, List.dropLast_concat]⟩
  · exact .inr (if_neg unwraps)

theorem unwrapJsonify_call (argument : Bytes) :
    unwrapJsonify (jsonifyCall ++ (argument ++ [byte ')'])) = argument := by
  have starts : startsWith jsonifyCall (jsonifyCall ++ (argument ++ [byte ')'])) = true :=
    List.isPrefixOf_iff_prefix.mpr (List.prefix_append _ _)
  unfold unwrapJsonify
  rw [starts, ← List.append_assoc, List.getLast?_concat, if_pos (by rfl), List.append_assoc,
    List.drop_left, List.dropLast_concat]

theorem unwrapJsonify_other (text : Bytes) (other : text.getLast? ≠ some (byte ')')) :
    unwrapJsonify text = text := by
  obtain ⟨argument, rfl, _⟩ | same := unwrapJsonify_cases text
  · rw [← List.append_assoc, List.getLast?_concat] at other
    exact absurd rfl other
  · exact same

/-- The value of a literal as it stands. -/
theorem plain_value [Json.Dialect] {literal trail : Bytes} {value : Json}
    (read : literal? literal = some value) (own : Trail trail) :
    expressionLiteral? (trim (literal ++ trail)) = some value := by
  have whole : literal? (trim (literal ++ trail)) = some value :=
    (literal_trim _).trans (literal_trail read own)
  rw [expressionLiteral_text]
  obtain ⟨argument, call, _⟩ | same := unwrapJsonify_cases (trim (literal ++ trail))
  · rw [call, literal_call] at whole
    cases whole
  · rw [same]
    exact whole

theorem words_parenthesis (text : Bytes) :
    words (byte ')' :: text) = (.rightParen, [byte ')']) :: words text ∧
      stringsClosed (byte ')' :: text) = stringsClosed text := by
  have closing : Piece.first (byte ')') text = .plain .rightParen [byte ')'] := by
    cases text <;> rfl
  rw [words_cons, stringsClosed_cons, closing]
  exact ⟨rfl, rfl⟩

-- A parenthesis behind a literal is read, unless it belongs to a comment of the literal.
theorem literal_parenthesis [Json.Dialect] {literal trail : Bytes} {value : Json}
    (read : literal? literal = some value) (own : Trail trail) :
    literal? (literal ++ byte ')' :: trail) = if endsInComment literal then some value else none := by
  have closed := literal_closed literal value read
  have stops : EndsPiece (byte ')' :: trail) := by
    rintro b ⟨⟩
    rfl
  have one_row : newline ∉ byte ')' :: trail := by
    rw [List.mem_cons, not_or]
    exact ⟨by decide, own.one_row⟩
  obtain ⟨same, same_closed⟩ := words_append literal (byte ')' :: trail) stops closed
  by_cases commented : endsInComment literal = true
  · rw [if_pos commented, ← read]
    rw [behind, if_pos commented, dropWhile_own_row _ one_row] at same same_closed
    exact literal_words literal _ (same_closed.trans closed.symm) fun _ =>
      same.trans (List.append_nil _)
  · rw [if_neg commented]
    rw [behind, if_neg commented, (words_parenthesis trail).1, own.words_eq.1] at same
    cases found : literal? (literal ++ byte ')' :: trail) with
    | none => rfl
    | some other =>
        have depth := literal_closes _ other found
        rw [same, netDepth_append, literal_closes literal value read] at depth
        cases depth

-- A call is taken off with the last byte of what stands behind its argument.
theorem called_end [Json.Dialect] (argument : Bytes) (last : UInt8) :
    literal? (unwrapJsonify (jsonifyCall ++ (argument ++ [last]))) =
      if last = byte ')' then literal? argument else none := by
  by_cases closes : last = byte ')'
  · rw [if_pos closes, closes, unwrapJsonify_call]
  · have other : (jsonifyCall ++ (argument ++ [last])).getLast? ≠ some (byte ')') := by
      rw [← List.append_assoc, List.getLast?_concat]
      exact fun same => closes (Option.some.inj same)
    rw [if_neg closes, unwrapJsonify_other _ other, literal_call]

/-- What is left of a comment without white space at its end. -/
theorem trim_comment (gap note : Bytes) (blank : isBlank gap = true) :
    trim (gap ++ byte '#' :: note) = byte '#' :: dropEndWhile isSpace note := by
  have solid := dropEnd_solid (byte '#') note rfl
  rw [trim_lead gap _ blank, ← solid]
  rfl

theorem trim_called (literal gap note : Bytes) :
    trim (jsonifyCall ++ (literal ++ byte ')' :: (gap ++ byte '#' :: note))) =
      jsonifyCall ++ (literal ++ byte ')' :: (gap ++ byte '#' :: dropEndWhile isSpace note)) := by
  have split (rest : Bytes) : jsonifyCall ++ (literal ++ byte ')' :: (gap ++ rest)) =
      jsonifyCall ++ (literal ++ byte ')' :: gap) ++ rest := by simp
  have keeps := dropEnd_keeps (jsonifyCall ++ (literal ++ byte ')' :: gap)) (byte '#' :: note) rfl
  rw [dropEnd_solid (byte '#') note rfl] at keeps
  rw [split, split]
  exact keeps

/-- The value of a literal in a call. -/
theorem called_value [Json.Dialect] {literal trail : Bytes} {value : Json}
    (read : literal? literal = some value) (own : Trail trail) :
    expressionLiteral? (trim (jsonifyCall ++ (literal ++ byte ')' :: trail))) =
      if isBlank trail ∨ endsInComment literal ∧ (trim trail).getLast? = some (byte ')') then
        some value
      else none := by
  rw [expressionLiteral_text]
  cases own with
  | blank blank one_row =>
      have call : jsonifyCall ++ (literal ++ byte ')' :: trail) =
          jsonifyCall ++ (literal ++ [byte ')']) ++ trail := by simp
      have trimmed : trim (jsonifyCall ++ (literal ++ [byte ')'])) =
          jsonifyCall ++ (literal ++ [byte ')']) :=
        trim_solid (byte 'j') (byte ')') (ascii "sonify(" ++ literal) rfl rfl
      rw [call, trim_trail _ _ blank, trimmed, unwrapJsonify_call, if_pos (.inl blank)]
      exact read
  | @comment gap note blank one_row =>
      have written : isBlank (gap ++ byte '#' :: note) = false := by
        rw [isBlank_append, isBlank_cons, Bool.and_eq_false_iff]
        exact .inr rfl
      have shorter : dropEndWhile isSpace note <+: note := List.rdropWhile_prefix isSpace note
      rw [trim_called, trim_comment gap note blank, written]
      rcases List.eq_nil_or_concat' (dropEndWhile isSpace note) with empty | ⟨front, last, parts⟩
      · have split : jsonifyCall ++ (literal ++ byte ')' :: (gap ++ [byte '#'])) =
            jsonifyCall ++ (literal ++ byte ')' :: gap ++ [byte '#']) := by simp
        rw [empty, split, called_end, if_neg (by decide), if_neg (by simp)]
      · have split : jsonifyCall ++ (literal ++ byte ')' :: (gap ++ byte '#' :: (front ++ [last]))) =
            jsonifyCall ++ (literal ++ byte ')' :: (gap ++ byte '#' :: front) ++ [last]) := by simp
        have commented : Trail (gap ++ byte '#' :: front) := by
          rw [parts] at shorter
          refine .comment blank fun member => one_row ?_
          rcases List.mem_append.mp member with before | inside
          · exact List.mem_append_left _ before
          · exact List.mem_append_right _ (shorter.subset (List.mem_append_left _ inside))
        rw [parts, split, called_end, literal_parenthesis read commented, ← List.cons_append,
          List.getLast?_concat]
        by_cases closes : last = byte ')'
        · rw [if_pos closes, closes]
          simp
        · rw [if_neg closes, if_neg]
          rintro (never | ⟨_, same⟩)
          · cases never
          · exact closes (Option.some.inj same)

def Endpoint.bodyRows (endpoint : Endpoint) : List Bytes :=
  (lines endpoint.body).drop endpoint.headerLines.toNat

theorem bodyRows_single (endpoint : Endpoint) : ∀ row ∈ endpoint.bodyRows, newline ∉ row :=
  fun row member => newline_not_mem_lines _ row (List.mem_of_mem_drop member)

theorem returnLiteral_below [Json.Dialect] (endpoint : Endpoint)
    (below : endpoint.inlineBody = []) : endpoint.returnLiteral? = returnIn endpoint.bodyRows := by
  unfold Endpoint.returnLiteral?
  rw [below]
  rfl

/-- The body of the endpoint is the statement: it stands behind the colon, or in the rows below the
header, whatever white space stands around its first row and whatever blank rows before it. -/
inductive Endpoint.Consists (endpoint : Endpoint) (statement : Bytes) : Prop where
  | inline (own : endpoint.inlineBody = statement)
  | below (gaps : List Bytes) (first : Bytes) (later : List Bytes) (empty : endpoint.inlineBody = [])
      (blank : ∀ row ∈ gaps, isBlank row = true)
      (rows : endpoint.bodyRows = gaps ++ first :: later)
      (text : unlines (trim first :: later) = statement)

theorem returnIn_gaps [Json.Dialect] (gaps rows : List Bytes)
    (blank : ∀ row ∈ gaps, isBlank row = true) : returnIn (gaps ++ rows) = returnIn rows := by
  have base : (gaps ++ rows).find? (!isBlank ·) = rows.find? (!isBlank ·) := by
    have none_there : gaps.find? (!isBlank ·) = none :=
      List.find?_eq_none.mpr fun row member => by simp [blank row member]
    rw [List.find?_append, none_there, Option.none_or]
  have later (indentation : Nat) : returnAt indentation (gaps ++ rows) = returnAt indentation rows := by
    clear base
    induction gaps with
    | nil => rfl
    | cons row gaps ih =>
        obtain ⟨own, others⟩ := List.forall_mem_cons.mp blank
        rw [List.cons_append, returnAt, if_neg (by simp [own]), ih others]
  unfold returnIn
  rw [base]
  simp only [later]

-- Where the statement goes on in another row, a bracket or a string is open.
def GoesOnInside (text : Bytes) : Prop :=
  ∀ front back, text = front ++ newline :: back → openBracketDepth front ≠ 0

theorem join_all (text : Bytes) (rows : List Bytes)
    (inside : ∀ front back, text ++ rows.flatMap (newline :: ·) = front ++ newline :: back →
      openBracketDepth front ≠ 0) :
    joinUntilBalanced text rows = text ++ rows.flatMap (newline :: ·) := by
  induction rows generalizing text with
  | nil => rw [List.flatMap_nil, List.append_nil, joinUntilBalanced]
  | cons row rows ih =>
      have whole : text ++ (row :: rows).flatMap (newline :: ·) =
          text ++ newline :: row ++ rows.flatMap (newline :: ·) := by simp
      have open_here : openBracketDepth text ≠ 0 :=
        inside text (row ++ rows.flatMap (newline :: ·)) (by simp)
      rw [whole] at inside ⊢
      rw [joinUntilBalanced, if_neg open_here]
      exact ih _ inside

def returnStatement (gap expression : Bytes) : Bytes := returnWord ++ (gap ++ expression)

structure IsGap (gap : Bytes) : Prop where
  blank : isBlank gap = true
  nonempty : gap ≠ []
  one_row : newline ∉ gap

namespace IsGap

variable {gap expression : Bytes}

theorem isReturn_statement (own : IsGap gap) : isReturn (returnStatement gap expression) = true := by
  obtain ⟨space, gap, rfl⟩ := List.exists_cons_of_ne_nil own.nonempty
  have blank := own.blank
  rw [isBlank_cons, Bool.and_eq_true] at blank
  have apart := endsPiece_outside isWordByte (by decide) (endsPiece_space space blank.1)
  have starts : startsWith returnWord (returnStatement (space :: gap) expression) = true :=
    List.isPrefixOf_iff_prefix.mpr (List.prefix_append _ _)
  have behind : (returnStatement (space :: gap) expression).drop returnWord.length =
      space :: gap ++ expression := List.drop_left
  unfold isReturn
  rw [starts, behind]
  simp [apart]

theorem returned_statement (own : IsGap gap) :
    returned (returnStatement gap expression) = trim expression := by
  unfold returned returnStatement
  rw [List.drop_left, trim_lead gap expression own.blank]

-- The first row of a statement, without white space around it.
theorem first_row (own : IsGap gap) {row rest : Bytes} (one_row : newline ∉ row)
    (trimmed : trim row = row) (starts : ∀ b ∈ rest.head?, b = newline)
    (whole : row ++ rest = returnStatement gap expression) :
    ∃ lead front, isBlank lead = true ∧ expression = lead ++ (front ++ rest) ∧
      isReturn row = true ∧ returned row = front := by
  obtain ⟨start, tail, rfl, start_row, tail_starts⟩ := Text.first_row expression
  have split : row ++ rest = returnStatement gap start ++ tail := by
    rw [whole]
    simp [returnStatement]
  have statement_row : newline ∉ returnStatement gap start := by
    have word_row : newline ∉ returnWord := by decide
    simp [returnStatement, word_row, own.one_row, start_row]
  obtain ⟨rfl, rfl⟩ := row_unique split one_row statement_row starts tail_starts
  obtain ⟨lead, trail, before, after, parts⟩ := trim_between start
  have ends : trail = [] := by
    rcases List.eq_nil_or_concat' trail with none_left | ⟨more, last, rfl⟩
    · exact none_left
    · have space := (isBlank_iff _).mp after last (by simp)
      rw [parts, returnStatement, ← List.append_assoc, ← List.append_assoc, ← List.append_assoc]
        at trimmed
      rw [trimmed_last _ last trimmed] at space
      cases space
  rw [ends, List.append_nil] at parts
  exact ⟨lead, trim start, before, by rw [← List.append_assoc, ← parts], own.isReturn_statement,
    own.returned_statement⟩

end IsGap

theorem returnLiteral_statement [Json.Dialect] {endpoint : Endpoint} {gap expression : Bytes}
    (space : IsGap gap) (inside : GoesOnInside expression)
    (consists : endpoint.Consists (returnStatement gap expression)) :
    endpoint.returnLiteral? = expressionLiteral? (trim expression) := by
  cases consists with
  | inline own =>
      unfold Endpoint.returnLiteral?
      rw [own, space.isReturn_statement, if_pos rfl, space.returned_statement]
  | below gaps first later empty gaps_blank rows text =>
      have one_row : newline ∉ trim first := by
        have own : first ∈ endpoint.bodyRows := by simp [rows]
        exact fun member => bodyRows_single endpoint first own (mem_of_mem_trim _ _ member)
      rw [unlines_flatMap] at text
      obtain ⟨lead, front, blank, rfl, opens, own⟩ :=
        space.first_row one_row (trim_trim first) (breaks_start later) text
      have solid : isBlank first = false := by
        by_contra blank
        rw [Bool.not_eq_false, ← trim_eq_nil_iff] at blank
        rw [blank] at opens
        cases opens
      have joined : joinUntilBalanced front later = front ++ later.flatMap (newline :: ·) := by
        apply join_all
        intro before back whole
        have depth := inside (lead ++ before) back (by rw [whole, List.append_assoc])
        rwa [openBracketDepth_lead lead before blank] at depth
      rw [returnLiteral_below endpoint empty, rows, returnIn_gaps gaps _ gaps_blank, returnIn,
        List.find?_cons_of_pos (by simp [solid])]
      dsimp only
      rw [returnAt, if_pos (by simp [solid, opens]), own, joined, trim_lead lead _ blank]

-- Where the literal goes on in another row, it leaves a bracket or a string open.
def BreaksInside (literal : Bytes) : Prop :=
  ∀ front back, literal = front ++ newline :: back → leavesOpen front = true

theorem breaksInside_iff (literal : Bytes) : BreaksInside literal ↔
    ∀ place < literal.length, literal[place]? = some newline →
      leavesOpen (literal.take place) = true := by
  constructor
  · intro inside place within breaks
    apply inside _ (literal.drop (place + 1))
    obtain ⟨_, own⟩ := List.getElem?_eq_some_iff.mp breaks
    rw [← own, List.getElem_cons_drop, List.take_append_drop]
  · rintro places front back rfl
    have within : front.length < (front ++ newline :: back).length := by simp
    have breaks : (front ++ newline :: back)[front.length]? = some newline := by simp
    have found := places front.length within breaks
    rwa [List.take_left] at found

instance (literal : Bytes) : Decidable (BreaksInside literal) :=
  decidable_of_iff _ (breaksInside_iff literal).symm

theorem break_inside {left middle right front back : Bytes} (left_row : newline ∉ left)
    (right_row : newline ∉ right) (whole : left ++ (middle ++ right) = front ++ newline :: back) :
    ∃ inner more, front = left ++ inner ∧ middle = inner ++ newline :: more := by
  obtain ⟨inner, rfl, rest⟩ : ∃ inner, front = left ++ inner ∧
      middle ++ right = inner ++ newline :: back := by
    rcases List.append_eq_append_iff.mp whole with ⟨inner, own, rest⟩ | ⟨inner, rfl, rest⟩
    · exact ⟨inner, own, rest⟩
    · cases inner with
      | nil => exact ⟨[], by simp, by simpa using rest.symm⟩
      | cons b inner =>
          obtain ⟨rfl, _⟩ := List.cons.inj rest
          simp at left_row
  rcases List.append_eq_append_iff.mp rest with ⟨more, _, behind⟩ | ⟨more, own, behind⟩
  · rw [behind] at right_row
    simp at right_row
  · cases more with
    | nil =>
        rw [List.nil_append] at behind
        rw [← behind] at right_row
        simp at right_row
    | cons b more =>
        obtain ⟨rfl, _⟩ := List.cons.inj behind
        exact ⟨inner, more, rfl, own⟩

theorem leavesOpen_depth {text : Bytes} (left : leavesOpen text = true) :
    openBracketDepth text ≠ 0 := by
  rw [openBracketDepth_words]
  rcases leavesOpen_cases left with string | ⟨closed, bracket⟩
  · simp [string]
  · rw [closed, if_pos rfl]
    omega

theorem leavesOpen_call {text : Bytes} (left : leavesOpen text = true) :
    openBracketDepth (jsonifyCall ++ text) ≠ 0 := by
  obtain ⟨own, same_closed⟩ := words_jsonify text
  have opening : netDepth (words (jsonifyCall ++ text)) = 1 + netDepth (words text) := by
    have name : depthChange .identifier = 0 := rfl
    have parenthesis : depthChange .leftParen = 1 := rfl
    rw [own, netDepth, netDepth, name, parenthesis, Int.zero_add]
  rw [openBracketDepth_words, same_closed, opening]
  rcases leavesOpen_cases left with string | ⟨closed, bracket⟩
  · simp [string]
  · rw [closed, if_pos rfl]
    omega

/-- A literal and the same literal in a `jsonify` call, each with the same end of its row. Both
statements return the value of the literal, unless a comment hides that the call is closed. -/
theorem jsonify_literal [Json.Dialect] {plain wrapped : Endpoint} {gap literal trail : Bytes}
    {value : Json} (read : literal? literal = some value) (space : IsGap gap) (own : Trail trail)
    (inside : BreaksInside literal)
    (first : plain.Consists (returnStatement gap (literal ++ trail)))
    (second : wrapped.Consists
      (returnStatement gap (jsonifyCall ++ (literal ++ byte ')' :: trail)))) :
    plain.returnLiteral? = some value ∧
      wrapped.returnLiteral? =
        if isBlank trail ∨ endsInComment literal ∧ (trim trail).getLast? = some (byte ')') then
          some value
        else none := by
  have plain_inside : GoesOnInside (literal ++ trail) := by
    intro front back whole
    have behind_nothing : [] ++ (literal ++ trail) = front ++ newline :: back := whole
    obtain ⟨_, more, rfl, breaks⟩ := break_inside List.not_mem_nil own.one_row behind_nothing
    exact leavesOpen_depth (inside front more breaks)
  have call_inside : GoesOnInside (jsonifyCall ++ (literal ++ byte ')' :: trail)) := by
    have one_row : newline ∉ byte ')' :: trail := by
      rw [List.mem_cons, not_or]
      exact ⟨by decide, own.one_row⟩
    intro front back whole
    obtain ⟨inner, more, rfl, breaks⟩ := break_inside (by decide) one_row whole
    exact leavesOpen_call (inside inner more breaks)
  rw [returnLiteral_statement space plain_inside first,
    returnLiteral_statement space call_inside second]
  exact ⟨plain_value read own, called_value read own⟩

def rowsEndpoint (statement : Bytes) : Endpoint :=
  { name := ascii "f"
    route := ascii "/a"
    method := defaultMethod
    parameters := []
    body := ascii "def f():\n    " ++ statement
    line := 2
    headerLines := 1
    inlineBody := [] }

section Strict

attribute [local instance] Json.strict

theorem jsonify_literal_rows :
    (rowsEndpoint (ascii "return [1, # one\n  2]")).returnLiteral? = some (.arr [.int 1, .int 2]) ∧
      (rowsEndpoint (ascii "return jsonify([1, # one\n  2])")).returnLiteral? =
        some (.arr [.int 1, .int 2]) :=
  @jsonify_literal _ _ _ (ascii " ") (ascii "[1, # one\n  2]") [] _ (by rfl)
    ⟨by decide, by decide, by decide⟩ (.blank (by decide) (by decide)) (by decide +kernel)
    (.below [] (ascii "    return [1, # one") [ascii "  2]"] rfl (by decide) (by decide +kernel) rfl)
    (.below [] (ascii "    return jsonify([1, # one") [ascii "  2])"] rfl (by decide)
      (by decide +kernel) rfl)

def remarkSource : Bytes := ascii "@endpoint('/a')\ndef f():\n    return jsonify([1])  # ok\n"

-- The last byte of the statement belongs to the comment, so the call stays and is no literal.
theorem remark_hides_call :
    (parse remarkSource).endpoints = [rowsEndpoint (ascii "return jsonify([1])  # ok")] ∧
    ¬ ∀ (plain wrapped : Endpoint) (gap literal trail : Bytes), (literal? literal).isSome = true →
      IsGap gap → Trail trail → BreaksInside literal →
      plain.Consists (returnStatement gap (literal ++ trail)) →
      wrapped.Consists (returnStatement gap (jsonifyCall ++ (literal ++ byte ')' :: trail))) →
      wrapped.returnLiteral? = plain.returnLiteral? := by
  refine ⟨by decide +kernel, fun always => ?_⟩
  have same := always (rowsEndpoint (ascii "return [1]  # ok"))
    (rowsEndpoint (ascii "return jsonify([1])  # ok")) (ascii " ") (ascii "[1]")
    (ascii "  # ok") (by decide +kernel) ⟨by decide, by decide, by decide⟩
    (@Trail.comment (ascii "  ") (ascii " ok") (by decide) (by decide)) (by decide +kernel)
    (.below [] (ascii "    return [1]  # ok") [] rfl (by decide) (by decide +kernel) rfl)
    (.below [] (ascii "    return jsonify([1])  # ok") [] rfl (by decide) (by decide +kernel) rfl)
  have read : (rowsEndpoint (ascii "return [1]  # ok")).returnLiteral? = some (.arr [.int 1]) := by
    rfl
  have hidden : (rowsEndpoint (ascii "return jsonify([1])  # ok")).returnLiteral? = none := by rfl
  rw [read, hidden] at same
  cases same

end Strict

end EndpointPreview.Notation
