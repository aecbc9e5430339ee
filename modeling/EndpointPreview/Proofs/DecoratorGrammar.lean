import EndpointPreview.Notation.Decorator
import EndpointPreview.Proofs.Functions
import EndpointPreview.Proofs.LiteralReading

/-!
The grammar of decorators. A line is read as a decorator exactly when its tokens are those of the
grammar, and a line that is refused is refused with a message and leaves the place it was to be
read into as it was.
-/

namespace EndpointPreview.Notation

open Text

def TokenKind.isMark : TokenKind → Bool
  | finish | invalid | identifier | number | string | other => false
  | _ => true

def Spelled (word : Word) : Prop := word.1.isMark = true → word.2 = word.1.name

theorem markKind_spelled (b : UInt8) : Spelled (markKind b, [b]) := by
  have case {mark : UInt8} {kind rest : TokenKind} (own : kind.name = [mark])
      (later : Spelled (rest, [b])) : Spelled (if b == mark then kind else rest, [b]) := by
    by_cases same : b = mark
    · rw [if_pos (by simpa using same), same]
      exact fun _ => own.symm
    · rwa [if_neg (by simpa using same)]
  unfold markKind
  iterate 14 refine case rfl ?_
  rintro ⟨⟩

theorem ofMark_spelled (b : UInt8) (after : Bytes) :
    ∀ word ∈ (Piece.ofMark b after).word?, Spelled word := by
  have single := markKind_spelled b
  cases after with
  | nil =>
      rintro word ⟨⟩
      exact single
  | cons next after =>
      unfold Piece.ofMark
      dsimp only
      split
      · rename_i kind pair
        rintro word ⟨⟩
        unfold pairKind? at pair
        split_ifs at pair with assign star
        · cases pair
          rintro ⟨⟩
        · cases pair
          simp only [Bool.and_eq_true, beq_iff_eq] at star
          obtain ⟨rfl, rfl⟩ := star
          exact fun _ => rfl
      · rintro word ⟨⟩
        exact single

theorem first_spelled (b : UInt8) (after : Bytes) :
    ∀ word ∈ (Piece.first b after).word?, Spelled word := by
  refine first_cases b after (fun _ => ?space) ?comment (fun _ => ?quote) (fun _ => ?number)
    (fun _ => ?name) ?mark
  case space => rintro word ⟨⟩
  case comment => rintro word ⟨⟩
  case quote =>
    unfold Piece.ofString
    dsimp only
    split <;> rintro word ⟨⟩ ⟨⟩
  case number => rintro word ⟨⟩ ⟨⟩
  case name => rintro word ⟨⟩ ⟨⟩
  case mark => exact ofMark_spelled b after

theorem words_spelled (text : Bytes) : ∀ word ∈ words text, Spelled word :=
  forall_words text fun b after _ => first_spelled b after

def markWord (kind : TokenKind) : Word := (kind, kind.name)

theorem Spelled.mark {word : Word} {kind : TokenKind} (spelled : Spelled word)
    (own : word.1 = kind) (mark : kind.isMark = true) : word = markWord kind := by
  subst own
  exact Prod.ext rfl (spelled mark)

-- The words between a route and the closing parenthesis, and the method they stand for.
inductive MethodPart : List Word → Bytes → Prop where
  | absent : MethodPart [] defaultMethod
  | given {method : Bytes} (named : method ≠ []) :
      MethodPart
        [markWord .comma, (.identifier, ascii "methods"), markWord .assign, markWord .leftBracket,
          (.string, method), markWord .rightBracket] method

-- The words of a decorator: `@endpoint(ROUTE)`, perhaps with a method behind the route.
inductive DecoratorWords : List Word → Decorator → Prop where
  | route {route method : Bytes} {part : List Word} (routed : route ≠ [])
      (methods : MethodPart part method) :
      DecoratorWords
        ([markWord .atSign, (.identifier, ascii "endpoint"), markWord .leftParen, (.string, route)]
          ++ part ++ [markWord .rightParen])
        ⟨route, method⟩

-- The line leaves no string open, and its words are those of the decorator and no more.
structure WritesDecorator (line : Bytes) (decorator : Decorator) : Prop where
  closed : (scanTokens line).openString = none
  grammar : ∃ written, DecoratorWords written decorator ∧
    (scanTokens line).tokens.map Token.word = written ++ [(.finish, [])]

def Opens (tokens : TokenRest) (front : List Word) (rest : TokenRest) : Prop :=
  ∃ taken, taken ++ rest = tokens ∧ taken.map Token.word = front

def SpelledTokens (tokens : TokenRest) : Prop := ∀ token ∈ tokens, Spelled token.word

theorem SpelledTokens.suffix {tokens rest : TokenRest} (spelled : SpelledTokens tokens)
    (back : rest <:+ tokens) : SpelledTokens rest :=
  fun token member => spelled token (back.subset member)

theorem SpelledTokens.drop {tokens : TokenRest} (spelled : SpelledTokens tokens) (count : Nat) :
    SpelledTokens (tokens.drop count) := spelled.suffix (List.drop_suffix count tokens)

namespace Opens

variable {tokens middle rest : TokenRest} {word : Word} {front more : List Word}

theorem append (first : Opens tokens front middle) (second : Opens middle more rest) :
    Opens tokens (front ++ more) rest := by
  obtain ⟨taken, rfl, rfl⟩ := first
  obtain ⟨further, rfl, rfl⟩ := second
  exact ⟨taken ++ further, List.append_assoc _ _ _, List.map_append⟩

theorem split (opens : Opens tokens (front ++ more) rest) :
    ∃ middle, Opens tokens front middle ∧ Opens middle more rest := by
  obtain ⟨taken, rfl, words⟩ := opens
  obtain ⟨first, second, rfl, rfl, rfl⟩ := List.map_eq_append_iff.mp words
  exact ⟨second ++ rest, ⟨first, (List.append_assoc _ _ _).symm, rfl⟩, ⟨second, rfl, rfl⟩⟩

theorem uncons (opens : Opens tokens (word :: more) rest) :
    ∃ token later, tokens = token :: later ∧ token.word = word ∧ Opens later more rest := by
  obtain ⟨taken, rfl, words⟩ := opens
  obtain ⟨token, later, rfl, rfl, rfl⟩ := List.map_eq_cons_iff.mp words
  exact ⟨token, later ++ rest, rfl, rfl, later, rfl, rfl⟩

theorem none (opens : Opens tokens [] rest) : rest = tokens := by
  obtain ⟨taken, rfl, words⟩ := opens
  rw [List.map_eq_nil_iff.mp words, List.nil_append]

theorem suffix (opens : Opens tokens front rest) : rest <:+ tokens := by
  obtain ⟨taken, whole, _⟩ := opens
  exact ⟨taken, whole⟩

theorem spelled (opens : Opens tokens front rest) (all : SpelledTokens tokens) :
    SpelledTokens rest := all.suffix opens.suffix

theorem word_mem (opens : Opens tokens front rest) (member : word ∈ front) :
    ∃ token ∈ tokens, token.word = word := by
  obtain ⟨taken, rfl, rfl⟩ := opens
  obtain ⟨token, among, own⟩ := List.mem_map.mp member
  exact ⟨token, List.mem_append_left _ among, own⟩

theorem head {token : Token} (own : token.word = word) : Opens (token :: rest) [word] rest :=
  ⟨[token], rfl, congrArg (fun word => [word]) own⟩

theorem nil (tokens : TokenRest) : Opens tokens [] tokens := ⟨[], rfl, rfl⟩

end Opens

section Taking

variable {kind : TokenKind} {wanted name : String} {tokens rest : TokenRest} {token : Token}
  {text : Bytes}

theorem bind_of_ok {Error First Next : Type} {first : Except Error First} {value : First}
    {next : First → Except Error Next} (done : first = .ok value) :
    (first >>= next) = next value := by
  rw [done]
  rfl

theorem takeKind_reads (word : token.word = (kind, text)) :
    takeKind kind wanted (token :: rest) = .ok (text, rest) := by
  obtain ⟨same, rfl⟩ := Prod.ext_iff.mp word
  exact if_pos same

theorem takeKind_ok (real : kind ≠ .finish)
    (taken : takeKind kind wanted tokens = .ok (text, rest)) :
    Opens tokens [(kind, text)] rest := by
  unfold takeKind at taken
  split_ifs at taken with same
  cases taken
  cases tokens with
  | nil => exact absurd same real.symm
  | cons token later => exact .head (Prod.ext same rfl)

theorem takeMark_ok (mark : kind.isMark = true) (spelled : SpelledTokens tokens)
    (taken : takeKind kind wanted tokens = .ok (text, rest)) :
    Opens tokens [markWord kind] rest := by
  have real : kind ≠ .finish := by
    rintro rfl
    cases mark
  obtain ⟨token, _, rfl, word, opens⟩ := (takeKind_ok real taken).uncons
  obtain rfl := opens.none
  exact .head ((spelled token List.mem_cons_self).mark (congrArg Prod.fst word) mark)

theorem takeName_reads (word : token.word = (.identifier, ascii name)) :
    takeName name (token :: rest) = .ok rest :=
  if_pos (Prod.ext_iff.mp word)

theorem takeName_ok (taken : takeName name tokens = .ok rest) :
    Opens tokens [(.identifier, ascii name)] rest := by
  unfold takeName at taken
  split_ifs at taken with same
  cases taken
  cases tokens with
  | nil => cases same.1
  | cons token later => exact .head (Prod.ext same.1 same.2)

theorem takeMethod_reads {method : Bytes} (named : method ≠ [])
    (opens : Opens tokens
      [(.identifier, ascii "methods"), markWord .assign, markWord .leftBracket,
        (.string, method), markWord .rightBracket] rest) :
    takeMethod tokens = .ok (method, rest) := by
  obtain ⟨_, _, rfl, name, opens⟩ := opens.uncons
  obtain ⟨_, _, rfl, assign, opens⟩ := opens.uncons
  obtain ⟨_, _, rfl, bracket, opens⟩ := opens.uncons
  obtain ⟨_, _, rfl, string, opens⟩ := opens.uncons
  obtain ⟨last, _, rfl, closing, opens⟩ := opens.uncons
  obtain rfl := opens.none
  have no_comma : ¬ last.kind = .comma := by
    rw [show last.kind = .rightBracket from congrArg Prod.fst closing]
    decide
  simp only [takeMethod, bind_of_ok (takeName_reads name), bind_of_ok (takeKind_reads assign),
    bind_of_ok (takeKind_reads bracket), bind_of_ok (takeKind_reads string), nextKind,
    if_neg no_comma, bind_of_ok (takeKind_reads closing), if_neg named]
  rfl

theorem takeMethod_ok {method : Bytes} (spelled : SpelledTokens tokens)
    (taken : takeMethod tokens = .ok (method, rest)) :
    method ≠ [] ∧ Opens tokens
      [(.identifier, ascii "methods"), markWord .assign, markWord .leftBracket,
        (.string, method), markWord .rightBracket] rest := by
  unfold takeMethod at taken
  obtain ⟨_, name, taken⟩ := bind_ok taken
  have opens := takeName_ok name
  obtain ⟨⟨_, _⟩, assign, taken⟩ := bind_ok taken
  have opens := opens.append (takeMark_ok rfl (opens.spelled spelled) assign)
  obtain ⟨⟨_, _⟩, bracket, taken⟩ := bind_ok taken
  have opens := opens.append (takeMark_ok rfl (opens.spelled spelled) bracket)
  obtain ⟨⟨_, _⟩, string, taken⟩ := bind_ok taken
  have opens := opens.append (takeKind_ok (by decide) string)
  dsimp only at taken
  split at taken
  · cases taken
  · obtain ⟨⟨_, _⟩, closing, taken⟩ := bind_ok taken
    have opens := opens.append (takeMark_ok rfl (opens.spelled spelled) closing)
    dsimp only at taken
    split at taken
    · cases taken
    · rename_i named
      cases taken
      exact ⟨named, opens⟩

/-- The part behind the route is read as what it says. -/
theorem takeMethodPart_reads {part : List Word} {method : Bytes} (methods : MethodPart part method)
    (opens : Opens tokens part rest) (stops : nextKind rest ≠ .comma) :
    takeMethodPart tokens = .ok (method, rest) := by
  cases methods with
  | absent =>
      obtain rfl := opens.none
      exact if_neg stops
  | given named =>
      obtain ⟨_, _, rfl, comma, opens⟩ := opens.uncons
      exact (if_pos (congrArg Prod.fst comma)).trans (takeMethod_reads named opens)

theorem takeMethodPart_ok {method : Bytes} (spelled : SpelledTokens tokens)
    (taken : takeMethodPart tokens = .ok (method, rest)) :
    ∃ part, MethodPart part method ∧ Opens tokens part rest := by
  unfold takeMethodPart at taken
  split at taken
  · rename_i comma
    cases tokens with
    | nil => cases comma
    | cons token later =>
        obtain ⟨own, others⟩ := List.forall_mem_cons.mp spelled
        obtain ⟨named, opens⟩ := takeMethod_ok others taken
        exact ⟨_, .given named, (Opens.head (own.mark comma rfl)).append opens⟩
  · cases taken
    exact ⟨[], .absent, .nil _⟩

theorem ofTokens_reads {written : List Word} {decorator : Decorator}
    (words : DecoratorWords written decorator) (opens : Opens tokens written rest)
    (ends : nextKind rest = .finish) : Decorator.ofTokens tokens = .ok decorator := by
  obtain ⟨routed, methods⟩ := words
  obtain ⟨behind, opens, ending⟩ := opens.split
  obtain ⟨_, _, rfl, mark, opens⟩ := opens.uncons
  obtain ⟨_, _, rfl, name, opens⟩ := opens.uncons
  obtain ⟨_, _, rfl, opening, opens⟩ := opens.uncons
  obtain ⟨_, _, rfl, string, opens⟩ := opens.uncons
  obtain ⟨last, _, rfl, closing, nothing⟩ := ending.uncons
  obtain rfl := nothing.none
  have stops : nextKind (last :: rest) ≠ .comma := by
    rw [nextKind, show last.kind = .rightParen from congrArg Prod.fst closing]
    decide
  have part := takeMethodPart_reads methods opens stops
  simp only [Decorator.ofTokens, bind_of_ok (takeKind_reads mark), bind_of_ok (takeName_reads name),
    bind_of_ok (takeKind_reads opening), bind_of_ok (takeKind_reads string), if_neg routed,
    bind_of_ok part, bind_of_ok (takeKind_reads closing), ends]
  rfl

theorem ofTokens_ok {decorator : Decorator} (spelled : SpelledTokens tokens)
    (read : Decorator.ofTokens tokens = .ok decorator) :
    ∃ written rest, DecoratorWords written decorator ∧ Opens tokens written rest ∧
      nextKind rest = .finish := by
  unfold Decorator.ofTokens at read
  obtain ⟨⟨_, _⟩, mark, read⟩ := bind_ok read
  have opens := takeMark_ok rfl spelled mark
  obtain ⟨_, name, read⟩ := bind_ok read
  have opens := opens.append (takeName_ok name)
  obtain ⟨⟨_, _⟩, opening, read⟩ := bind_ok read
  have opens := opens.append (takeMark_ok rfl (opens.spelled spelled) opening)
  obtain ⟨⟨_, _⟩, string, read⟩ := bind_ok read
  have opens := opens.append (takeKind_ok (by decide) string)
  dsimp only at read
  split at read
  · cases read
  · rename_i routed
    obtain ⟨⟨_, _⟩, methods, read⟩ := bind_ok read
    obtain ⟨part, methods, further⟩ := takeMethodPart_ok (opens.spelled spelled) methods
    have opens := opens.append further
    obtain ⟨⟨_, rest⟩, closing, read⟩ := bind_ok read
    have opens := opens.append (takeMark_ok rfl (opens.spelled spelled) closing)
    dsimp only at read
    split at read
    · cases read
    · rename_i ends
      cases read
      exact ⟨_, rest, .route routed methods, opens, not_not.mp ends⟩

end Taking

theorem scan_words (text : Bytes) : ∀ token ∈ (scanTokens text).tokens,
    token.word ∈ words text ∨ token.word = (.finish, []) := by
  cases closed : stringsClosed text with
  | false =>
      obtain ⟨tokens, offset, scan, own⟩ := scan_open text closed
      rw [scan, ← own]
      exact fun token member => .inl (List.mem_map_of_mem member)
  | true =>
      obtain ⟨tokens, last, scan, own, ends⟩ := scan_closed text closed
      rw [scan, ← own, List.forall_mem_append, List.forall_mem_singleton]
      exact ⟨fun token member => .inl (List.mem_map_of_mem member), .inr ends⟩

theorem scan_spelled (text : Bytes) : SpelledTokens (scanTokens text).tokens := by
  intro token member
  rcases scan_words text token member with inside | finish
  · exact words_spelled text token.word inside
  · rw [finish]
    rintro ⟨⟩

/-- A string that is left open is among the words. -/
theorem open_word (text : Bytes) (left : stringsClosed text = false) :
    ∃ word ∈ words text, word.1 = .invalid := by
  obtain ⟨piece, member, invalid⟩ : ∃ piece ∈ pieces text, piece.isInvalid = true := by
    simpa [stringsClosed] using left
  cases piece with
  | gap raw => cases invalid
  | lexeme kind word raw =>
      obtain rfl : kind = .invalid := by cases kind <;> first | rfl | cases invalid
      exact ⟨_, List.mem_filterMap.mpr ⟨_, member, rfl⟩, rfl⟩

theorem DecoratorWords.real {written : List Word} {decorator : Decorator}
    (words : DecoratorWords written decorator) :
    ∀ word ∈ written, word.1 ≠ .finish ∧ word.1 ≠ .invalid := by
  obtain ⟨routed, methods⟩ := words
  cases methods <;> simp [markWord]

/-- What stands before the first finish of a row of words that ends with its only one. -/
theorem before_finish {all written later : List Word} {last : Word}
    (inside : ∀ word ∈ all, word.1 ≠ .finish) (real : ∀ word ∈ written, word.1 ≠ .finish)
    (ends : last.1 = .finish) (same : written ++ last :: later = all ++ [(.finish, [])]) :
    written = all := by
  rcases List.append_eq_append_iff.mp same with ⟨more, rfl, tail⟩ | ⟨more, rfl, tail⟩
  · cases more with
    | nil => exact (List.append_nil _).symm
    | cons word more =>
        obtain ⟨rfl, _⟩ := List.cons.inj tail
        exact absurd ends (inside last (by simp))
  · cases more with
    | nil => exact List.append_nil _
    | cons word more =>
        obtain ⟨rfl, _⟩ := List.cons.inj tail
        exact absurd rfl (real (.finish, []) (by simp))

theorem writesDecorator_iff (line : Bytes) (decorator : Decorator) :
    WritesDecorator line decorator ↔
      stringsClosed line = true ∧ DecoratorWords (words line) decorator := by
  cases closed : stringsClosed line with
  | false =>
      obtain ⟨_, offset, scan, _⟩ := scan_open line closed
      constructor
      · rintro ⟨none_open, _⟩
        rw [scan] at none_open
        cases none_open
      · rintro ⟨⟨⟩, _⟩
  | true =>
      obtain ⟨tokens, last, scan, own, ends⟩ := scan_closed line closed
      have all : (scanTokens line).tokens.map Token.word = words line ++ [(.finish, [])] := by
        rw [scan, List.map_append, own, List.map_singleton, ends]
      constructor
      · rintro ⟨_, written, grammar, same⟩
        rw [all] at same
        rw [List.append_cancel_right same]
        exact ⟨rfl, grammar⟩
      · rintro ⟨_, grammar⟩
        exact ⟨by rw [scan], words line, grammar, all⟩

/-- A line is read as a decorator exactly when it writes the decorator. -/
theorem ofLine_iff (line : Bytes) (decorator : Decorator) :
    Decorator.ofLine line = .ok decorator ↔ WritesDecorator line decorator := by
  constructor
  · intro read
    obtain ⟨written, rest, grammar, ⟨taken, whole, own⟩, finish⟩ :=
      ofTokens_ok (scan_spelled line) read
    have real := grammar.real
    rw [writesDecorator_iff]
    cases closed : stringsClosed line with
    | false =>
        -- Without a finish among the tokens, the decorator would be all of them.
        exfalso
        obtain ⟨tokens, offset, scan, all⟩ := scan_open line closed
        rw [scan] at whole
        change taken ++ rest = tokens at whole
        rw [← whole, List.map_append, own] at all
        cases rest with
        | nil =>
            obtain ⟨word, member, invalid⟩ := open_word line closed
            rw [← all, List.map_nil, List.append_nil] at member
            exact (real word member).2 invalid
        | cons token later =>
            have inside : token.word ∈ words line := by
              rw [← all, List.map_cons]
              exact List.mem_append_right _ List.mem_cons_self
            exact words_kind line _ inside finish
    | true =>
        obtain ⟨tokens, last, scan, words_own, ends⟩ := scan_closed line closed
        have all : written ++ rest.map Token.word = words line ++ [(.finish, [])] := by
          rw [← own, ← List.map_append, whole, scan, List.map_append, words_own,
            List.map_singleton, ends]
        refine ⟨rfl, ?_⟩
        cases rest with
        | nil =>
            rw [List.map_nil, List.append_nil] at all
            exact absurd rfl (real (.finish, []) (by rw [all]; simp)).1
        | cons token later =>
            rwa [before_finish (words_kind line) (fun word member => (real word member).1) finish
              all] at grammar
  · rintro ⟨_, written, grammar, all⟩
    obtain ⟨taken, rest, whole, own, ends⟩ := List.map_eq_append_iff.mp all
    obtain ⟨last, nothing, rfl, finish, _⟩ := List.map_eq_cons_iff.mp ends
    exact ofTokens_reads grammar ⟨taken, whole.symm, own⟩ (congrArg Prod.fst finish)

theorem DecoratorError.message_said (error : DecoratorError) : error.message ≠ [] := by
  cases error <;> simp [DecoratorError.message, ascii]

-- The decorator that is being put together, and the one that the caller holds.
structure Places where
  draft : Decorator
  held : Decorator

abbrev Filling := ExceptT DecoratorError (StateM Places)

def fillMethod (tokens : TokenRest) : Filling TokenRest := do
  let (method, tokens) ← takeMethod tokens
  modify fun places => { places with draft := { places.draft with method := method } }
  return tokens

def fillMethodPart (tokens : TokenRest) : Filling TokenRest :=
  if nextKind tokens = .comma then fillMethod (tokens.drop 1) else pure tokens

-- The caller gets the draft, and only when it is read to its end.
def fillDecorator (tokens : TokenRest) : Filling Unit := do
  let (_, tokens) ← takeKind .atSign "'@'" tokens
  let tokens ← takeName "endpoint" tokens
  let (_, tokens) ← takeKind .leftParen "'('" tokens
  let (route, tokens) ← takeKind .string "a quoted route" tokens
  if route = [] then throw .emptyRoute
  modify fun places => { places with draft := { places.draft with route := route } }
  let tokens ← fillMethodPart tokens
  let (_, tokens) ← takeKind .rightParen "')'" tokens
  if nextKind tokens ≠ .finish then throw (.trailing (nextText tokens))
  modify fun places => { places with held := places.draft }

structure Caller where
  held : Decorator
  message : Bytes

def readInto (line : Bytes) (caller : Caller) : Bool × Caller :=
  match (fillDecorator (scanTokens line).tokens).run.run ⟨⟨[], defaultMethod⟩, caller.held⟩ with
  | (.ok (), places) => (true, { caller with held := places.held })
  | (.error error, places) => (false, ⟨places.held, error.message⟩)

-- The run ends as the reading does; at an error the caller holds what it held.
inductive Fills (held : Decorator) :
    Except DecoratorError Decorator → Except DecoratorError Unit × Places → Prop where
  | read (decorator : Decorator) : Fills held (.ok decorator) (.ok (), ⟨decorator, decorator⟩)
  | stopped (error : DecoratorError) (draft : Decorator) :
      Fills held (.error error) (.error error, ⟨draft, held⟩)

section Filling

variable {held draft : Decorator}

theorem Fills.bind {Value : Type} {taken : Except DecoratorError Value}
    {next : Value → Except DecoratorError Decorator} {fill : Value → Filling Unit}
    (later : ∀ value, Fills held (next value) ((fill value).run.run ⟨draft, held⟩)) :
    Fills held (taken >>= next) ((liftM taken >>= fill : Filling Unit).run.run ⟨draft, held⟩) := by
  cases taken with
  | error error => exact .stopped error draft
  | ok value => exact later value

theorem Fills.methodPart {tokens : TokenRest} {route : Bytes}
    {next : Bytes × TokenRest → Except DecoratorError Decorator} {fill : TokenRest → Filling Unit}
    (later : ∀ method rest,
      Fills held (next (method, rest)) ((fill rest).run.run ⟨⟨route, method⟩, held⟩)) :
    Fills held (takeMethodPart tokens >>= next)
      ((fillMethodPart tokens >>= fill).run.run ⟨⟨route, defaultMethod⟩, held⟩) := by
  unfold takeMethodPart fillMethodPart
  split
  · unfold fillMethod
    cases takeMethod (tokens.drop 1) with
    | error error => exact .stopped error _
    | ok part => exact later part.1 part.2
  · exact later defaultMethod tokens

theorem fillDecorator_fills (tokens : TokenRest) (route : Bytes) :
    Fills held (Decorator.ofTokens tokens)
      ((fillDecorator tokens).run.run ⟨⟨route, defaultMethod⟩, held⟩) := by
  unfold Decorator.ofTokens fillDecorator
  refine .bind fun _ => .bind fun _ => .bind fun _ => .bind fun ⟨route, tokens⟩ => ?_
  dsimp only
  split
  · exact .stopped _ _
  · refine .methodPart fun method rest => .bind fun ⟨_, last⟩ => ?_
    dsimp only
    split
    · exact .stopped _ _
    · exact .read ⟨route, method⟩

/-- The caller gets the decorator, or a message and no other decorator. -/
theorem readInto_eq (line : Bytes) (caller : Caller) :
    readInto line caller = match Decorator.ofLine line with
      | .ok decorator => (true, { caller with held := decorator })
      | .error error => (false, { caller with message := error.message }) := by
  have fills := @fillDecorator_fills caller.held (scanTokens line).tokens []
  unfold readInto Decorator.ofLine
  generalize Decorator.ofTokens (scanTokens line).tokens = read at fills ⊢
  generalize (fillDecorator (scanTokens line).tokens).run.run _ = outcome at fills ⊢
  cases fills with
  | read decorator => rfl
  | stopped error draft => rfl

end Filling

/-- A line is a decorator exactly when it writes one, which is then what the caller holds. For any
other line the caller holds what it held, and gets a message. -/
theorem readInto_grammar (line : Bytes) (caller : Caller) :
    (∀ decorator, Decorator.ofLine line = .ok decorator ↔ WritesDecorator line decorator) ∧
      (∀ decorator, readInto line caller = (true, { caller with held := decorator }) ↔
        WritesDecorator line decorator) ∧
      ((∃ message, message ≠ [] ∧
          readInto line caller = (false, { caller with message := message })) ↔
        ∀ decorator, ¬ WritesDecorator line decorator) := by
  refine ⟨ofLine_iff line, fun decorator => ?_, ?_⟩
  · rw [← ofLine_iff, readInto_eq]
    cases Decorator.ofLine line <;> simp
  · simp only [← ofLine_iff, readInto_eq]
    cases read : Decorator.ofLine line with
    | error error => simp [error.message_said]
    | ok decorator => simp

end EndpointPreview.Notation
