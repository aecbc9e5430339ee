import EndpointPreview.Proofs.ModuleReading

/-!
Quoting a route and reading it again. Any text but the empty one can be the route of a decorator,
since a decorator may write a newline as an escape. The quoted form escapes quotes and backslashes
only, so it is read again as its route exactly when the route has no newline; with one it goes over
several rows and is a string that is never closed.
-/

namespace EndpointPreview.Notation

open Text

def ReadableRoute (route : Bytes) : Prop :=
  ∃ line decorator, Decorator.ofLine line = .ok decorator ∧ decorator.route = route

def escapeRouteByte (b : UInt8) : Bytes :=
  if b == newline then [backslash, byte 'n'] else quoteRouteByte b

theorem escapeRouteByte_writes (b : UInt8) : WritesByte b (escapeRouteByte b) := by
  by_cases same : b = newline
  · subst same
    exact .escape (byte 'n') rfl
  · rw [show escapeRouteByte b = quoteRouteByte b from if_neg (by simpa using same)]
    exact quoteRouteByte_writes b same

theorem escapeRouteByte_row (b : UInt8) : newline ∉ escapeRouteByte b := by
  by_cases same : b = newline
  · subst same
    decide
  · rw [show escapeRouteByte b = quoteRouteByte b from if_neg (by simpa using same)]
    have other : newline ≠ b := Ne.symm same
    unfold quoteRouteByte
    split <;> simp [other, show newline ≠ backslash by decide]

/-- Any text but the empty one is the route of a decorator that stays on one row. -/
theorem route_written (route : Bytes) (routed : route ≠ []) :
    ∃ line, newline ∉ line ∧ Decorator.ofLine line = .ok ⟨route, defaultMethod⟩ := by
  refine ⟨decoratorWith escapeRouteByte route, ?_,
    decoratorWith_read routed fun b _ => escapeRouteByte_writes b⟩
  have inside : newline ∉ route.flatMap escapeRouteByte := by
    rw [List.mem_flatMap]
    rintro ⟨b, _, row⟩
    exact escapeRouteByte_row b row
  have around : newline ∉ ascii "@endpoint(" ∧ newline ∉ ascii ")" ∧ newline ≠ singleQuote := by
    decide
  simp [decoratorWith, quoteWith, inside, around]

theorem readableRoute_iff (route : Bytes) : ReadableRoute route ↔ route ≠ [] := by
  constructor
  · rintro ⟨line, decorator, read, rfl⟩
    exact decorator_route line decorator read
  · intro routed
    obtain ⟨line, _, read⟩ := route_written route routed
    exact ⟨line, _, read, rfl⟩

def closedRoute (route : Bytes) : TokenScan :=
  ⟨[⟨.string, route, 0⟩, ⟨.rightParen, ascii ")", (quoteRoute route).length⟩,
    ⟨.finish, [], (quoteRoute route).length + 1⟩], none⟩

def openRoute (route : Bytes) : TokenScan :=
  ⟨[⟨.invalid, quoteRoute route ++ ascii ")", 0⟩], some 0⟩

theorem quoteRoute_behind (route rest : Bytes) : quoteRoute route ++ rest =
    singleQuote :: (route.flatMap quoteRouteByte ++ singleQuote :: rest) := by
  simp [quoteRoute]

theorem scan_closedRoute (route : Bytes) (routed : route ≠ []) (one_row : newline ∉ route) :
    scanTokens (quoteRoute route ++ ascii ")") = closedRoute route := by
  have closing : pieces (ascii ")") = [.plain .rightParen (ascii ")")] := rfl
  have parts : pieces (quoteRoute route ++ ascii ")") =
      [.lexeme .string route (quoteRoute route), .plain .rightParen (ascii ")")] := by
    conv => lhs; rw [quoteRoute_behind]
    rw [pieces_cons, first_quoted route _ routed one_row, ← quoteRoute_behind]
    dsimp only [Piece.raw]
    rw [List.drop_left, closing]
  unfold scanTokens closedRoute
  rw [parts]
  simp [lexemesFrom, unterminatedFrom, Piece.plain, Piece.isInvalid, ascii]

theorem quoteRouteByte_starts (b : UInt8) : StartsInside (quoteRouteByte b) := by
  by_cases same : b = newline
  · subst same
    exact ⟨newline, [], rfl, by decide⟩
  · exact (quoteRouteByte_writes b same).starts

/-- The string of a quoted route breaks off at the first newline of the route. -/
theorem scan_openRoute (route : Bytes) (several : newline ∈ route) :
    scanTokens (quoteRoute route ++ ascii ")") = openRoute route := by
  have opens := written_not_triple (ascii ")") (List.ne_nil_of_mem several)
    fun b _ => quoteRouteByte_starts b
  obtain ⟨front, later, whole, one_row⟩ := List.eq_append_cons_of_mem several
  have left : stringBody? singleQuote false
      (route.flatMap quoteRouteByte ++ singleQuote :: ascii ")") = none := by
    have passes := passes_written
      (newline :: (later.flatMap quoteRouteByte ++ singleQuote :: ascii ")"))
      (route_writes front one_row)
    rw [Passes, stringBody_break _ _ rfl] at passes
    rw [whole, List.flatMap_append, List.flatMap_cons, List.append_assoc, List.append_assoc]
    exact passes
  have first : Piece.first singleQuote (route.flatMap quoteRouteByte ++ singleQuote :: ascii ")") =
      .lexeme .invalid (quoteRoute route ++ ascii ")") (quoteRoute route ++ ascii ")") := by
    rw [first_quote _ _ rfl, ofString_open opens left, quoteRoute_behind]
  have parts : pieces (quoteRoute route ++ ascii ")") =
      [.lexeme .invalid (quoteRoute route ++ ascii ")") (quoteRoute route ++ ascii ")")] := by
    conv => lhs; rw [quoteRoute_behind]
    rw [pieces_cons, first, ← quoteRoute_behind]
    dsimp only [Piece.raw]
    rw [List.drop_length]
    rfl
  unfold scanTokens openRoute
  rw [parts]
  rfl

theorem closedRoute_ne_openRoute (route : Bytes) : closedRoute route ≠ openRoute route := by
  intro same
  cases congrArg TokenScan.openString same

theorem count_quoted (route : Bytes) :
    (route.flatMap quoteRouteByte).count newline = route.count newline := by
  have once (b : UInt8) : (quoteRouteByte b).count newline = [b].count newline := by
    unfold quoteRouteByte
    split
    · exact List.count_cons_of_ne (by decide)
    · rfl
  induction route with
  | nil => rfl
  | cons b route ih =>
      rw [List.flatMap_cons, List.count_append, once, ih, ← List.singleton_append (l := route),
        List.count_append]

/-- A text that does not end with a newline has one row more than newlines. -/
theorem lines_length (text : Bytes) (last : UInt8) (other : last ≠ newline) :
    (lines (text ++ [last])).length = text.count newline + 1 := by
  rw [lines, List.length_map]
  induction text with
  | nil => simp [rawLines, other]
  | cons b text ih =>
      by_cases same : b = newline
      · subst same
        simp [rawLines, ih]
      · obtain ⟨row, rows, split⟩ : ∃ row rows, rawLines (text ++ [last]) = row :: rows := by
          refine List.exists_cons_of_ne_nil ?_
          intro nothing
          rw [nothing] at ih
          cases ih
        have more : rows.length = text.count newline := by simpa [split] using ih
        simp [rawLines, same, split, List.count_cons_of_ne same, more]

theorem lines_quoteRoute (route : Bytes) :
    (lines (quoteRoute route)).length = route.count newline + 1 := by
  have rows := lines_length (singleQuote :: route.flatMap quoteRouteByte) singleQuote (by decide)
  rwa [List.count_cons_of_ne (by decide), count_quoted] at rows

theorem lines_quoted_row (route : Bytes) (one_row : newline ∉ route) :
    lines (quoteRoute route) = [quoteRoute route] := by
  have single := newline_not_mem_quoteRoute route one_row
  have kept : chompReturn (quoteRoute route) = quoteRoute route :=
    chompReturn_concat _ singleQuote (by decide)
  rw [lines, rawLines_last _ single (List.cons_ne_nil _ _), List.map_singleton, kept]

theorem lines_quoteRoute_iff (route : Bytes) :
    lines (quoteRoute route) = [quoteRoute route] ↔ newline ∉ route := by
  refine ⟨fun single => ?_, lines_quoted_row route⟩
  have count := lines_quoteRoute route
  rw [single] at count
  exact List.count_eq_zero.mp (by simpa using count)

/-- The quoted form of a route, with a parenthesis behind it, is read as the route exactly when no
newline is in the route, and exactly then it is one row. Otherwise it is a string that is left open
and one row more than there are newlines. -/
theorem quoteRoute_codec (route : Bytes) (readable : ReadableRoute route) :
    (scanTokens (quoteRoute route ++ ascii ")") = closedRoute route ↔ newline ∉ route) ∧
      (lines (quoteRoute route) = [quoteRoute route] ↔ newline ∉ route) ∧
      (scanTokens (quoteRoute route ++ ascii ")") = openRoute route ↔ newline ∈ route) ∧
      (lines (quoteRoute route)).length = route.count newline + 1 := by
  have routed := (readableRoute_iff route).mp readable
  have apart := closedRoute_ne_openRoute route
  refine ⟨?_, lines_quoteRoute_iff route, ?_, lines_quoteRoute route⟩
  · by_cases several : newline ∈ route
    · simp [scan_openRoute route several, several, apart.symm]
    · simp [scan_closedRoute route routed several, several]
  · by_cases several : newline ∈ route
    · simp [scan_openRoute route several, several]
    · simp [scan_closedRoute route routed several, several, apart]

/-- A route with a quote, a backslash and a carriage return, and one with an escaped newline. -/
theorem quoteRoute_codec_escapes :
    (ReadableRoute (ascii "/it's\\\r") ∧
      scanTokens (quoteRoute (ascii "/it's\\\r") ++ ascii ")") =
        closedRoute (ascii "/it's\\\r")) ∧
      ReadableRoute (ascii "/a\nb") ∧
      scanTokens (quoteRoute (ascii "/a\nb") ++ ascii ")") = openRoute (ascii "/a\nb") := by
  have first : ReadableRoute (ascii "/it's\\\r") := (readableRoute_iff _).mpr (by decide)
  have second : ReadableRoute (ascii "/a\nb") := (readableRoute_iff _).mpr (by decide)
  exact ⟨⟨first, (quoteRoute_codec _ first).1.mpr (by decide)⟩, second,
    (quoteRoute_codec _ second).2.2.1.mpr (by decide)⟩

/-- The escape of a newline is lost: the decorator has a route over two rows, and its quoted form is
not read again. -/
theorem quoteRoute_newline :
    Decorator.ofLine (ascii "@endpoint('/a\\nb')") = .ok ⟨ascii "/a\nb", defaultMethod⟩ ∧
      scanTokens (quoteRoute (ascii "/a\nb") ++ ascii ")") ≠ closedRoute (ascii "/a\nb") ∧
      lines (quoteRoute (ascii "/a\nb")) = [ascii "'/a", ascii "b'"] := by
  decide +kernel

end EndpointPreview.Notation
