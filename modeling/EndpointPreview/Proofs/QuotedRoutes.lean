import EndpointPreview.Notation.Module
import EndpointPreview.Proofs.StringBodies
import EndpointPreview.Proofs.Words

/-!
Routes as they are written in a module. A quoted route is one string again, and the
decorator row with it reads as the route, as long as the route stays on one row.
-/

namespace EndpointPreview.Notation

open Text

inductive WritesByte (b : UInt8) : Bytes → Prop where
  | plain (straight : b ≠ backslash) (inside : b ≠ singleQuote) (same_row : b ≠ newline) :
      WritesByte b [b]
  | escape (mark : UInt8) (value : escapeValue mark = [b]) : WritesByte b [backslash, mark]

def StartsInside (row : Bytes) : Prop := ∃ b more, row = b :: more ∧ b ≠ singleQuote

theorem WritesByte.starts {b : UInt8} {raw : Bytes} (writes : WritesByte b raw) :
    StartsInside raw := by
  cases writes with
  | plain straight inside same_row => exact ⟨b, [], rfl, inside⟩
  | escape mark value => exact ⟨backslash, [mark], rfl, by decide⟩

def quoteWith (write : UInt8 → Bytes) (text : Bytes) : Bytes :=
  singleQuote :: text.flatMap write ++ [singleQuote]

section Written

variable {write : UInt8 → Bytes} {text : Bytes}

-- The string behind the opening quote is the text, up to what stands behind it.
theorem passes_written (behind : Bytes) (each : ∀ b ∈ text, WritesByte b (write b)) :
    Passes singleQuote false (text.flatMap write) text behind := by
  have bytes : text.flatMap (fun b => [b]) = text := List.flatMap_singleton' text
  have parts : Passes singleQuote false (text.flatMap write) (text.flatMap fun b => [b]) behind := by
    apply Passes.row
    intro before b after whole
    have writes := each b (by simp [whole])
    generalize write b = raw at writes
    cases writes with
    | plain straight inside same_row =>
        apply Passes.byte b _ straight
        · simpa [closingMark] using Ne.symm inside
        · exact fun same => absurd same same_row
    | escape mark value => exact .escape value _
  rwa [bytes] at parts

theorem written_not_triple (rest : Bytes) (nonempty : text ≠ [])
    (starts : ∀ b ∈ text, StartsInside (write b)) :
    opensTriple singleQuote (text.flatMap write ++ singleQuote :: rest) = false := by
  obtain ⟨b, later, rfl⟩ := List.exists_cons_of_ne_nil nonempty
  obtain ⟨first, more, own, inside⟩ := starts b List.mem_cons_self
  apply opensTriple_other
  rw [List.flatMap_cons, own]
  simp [inside]

-- A quoted text is read as one string, whatever follows.
theorem first_written (rest : Bytes) (nonempty : text ≠ [])
    (each : ∀ b ∈ text, WritesByte b (write b)) :
    Piece.first singleQuote (text.flatMap write ++ singleQuote :: rest) =
      .lexeme .string text (quoteWith write text) :=
  ofString_passed rfl (written_not_triple rest nonempty fun b member => (each b member).starts)
    (passes_written (singleQuote :: rest) each)

def decoratorWith (write : UInt8 → Bytes) (route : Bytes) : Bytes :=
  ascii "@endpoint(" ++ quoteWith write route ++ ascii ")"

-- The pieces of a decorator row.
theorem pieces_decoratorWith (routed : text ≠ []) (each : ∀ b ∈ text, WritesByte b (write b)) :
    pieces (decoratorWith write text) =
      [.plain .atSign (ascii "@"), .plain .identifier (ascii "endpoint"),
        .plain .leftParen (ascii "("), .lexeme .string text (quoteWith write text),
        .plain .rightParen (ascii ")")] := by
  let quoted := text.flatMap write ++ singleQuote :: ascii ")"
  have row : decoratorWith write text =
      byte '@' :: (ascii "endpoint(" ++ singleQuote :: quoted) := by
    simp [decoratorWith, quoteWith, quoted, ascii]
  have at_sign : Piece.first (byte '@') (ascii "endpoint(" ++ singleQuote :: quoted) =
      .plain .atSign (ascii "@") := rfl
  have name : Piece.first (byte 'e') (ascii "ndpoint(" ++ singleQuote :: quoted) =
      .plain .identifier (ascii "endpoint") := rfl
  have opening : Piece.first (byte '(') (singleQuote :: quoted) =
      .plain .leftParen (ascii "(") := rfl
  have string : Piece.first singleQuote quoted = .lexeme .string text (quoteWith write text) :=
    first_written (ascii ")") routed each
  have closing : Piece.first (byte ')') [] = .plain .rightParen (ascii ")") := rfl
  have after_string : (singleQuote :: quoted).drop (quoteWith write text).length = ascii ")" := by
    have whole : singleQuote :: quoted = quoteWith write text ++ ascii ")" := by
      simp [quoted, quoteWith]
    rw [whole, List.drop_left]
  rw [row, pieces_cons, at_sign]
  congr 1
  change pieces (byte 'e' :: (ascii "ndpoint(" ++ singleQuote :: quoted)) = _
  rw [pieces_cons, name]
  congr 1
  change pieces (byte '(' :: singleQuote :: quoted) = _
  rw [pieces_cons, opening]
  congr 1
  change pieces (singleQuote :: quoted) = _
  rw [pieces_cons, string]
  congr 1
  change pieces ((singleQuote :: quoted).drop (quoteWith write text).length) = _
  rw [after_string]
  change pieces (byte ')' :: []) = _
  rw [pieces_cons, closing]
  rfl

theorem decoratorWith_read (routed : text ≠ []) (each : ∀ b ∈ text, WritesByte b (write b)) :
    Decorator.ofLine (decoratorWith write text) = .ok ⟨text, defaultMethod⟩ := by
  have last : unterminatedFrom 0 (pieces (decoratorWith write text)) = none := by
    rw [pieces_decoratorWith routed each]
    rfl
  unfold Decorator.ofLine scanTokens
  dsimp only
  rw [last, pieces_decoratorWith routed each]
  obtain ⟨b, route, rfl⟩ := List.exists_cons_of_ne_nil routed
  rfl

end Written

theorem quoteRouteByte_writes (b : UInt8) (other : b ≠ newline) :
    WritesByte b (quoteRouteByte b) := by
  by_cases escaped : (b == backslash || b == singleQuote) = true
  · rw [show quoteRouteByte b = [backslash, b] from if_pos escaped]
    simp only [Bool.or_eq_true, beq_iff_eq] at escaped
    refine .escape b ?_
    rcases escaped with rfl | rfl <;> rfl
  · rw [show quoteRouteByte b = [b] from if_neg escaped]
    simp only [Bool.or_eq_true, beq_iff_eq, not_or] at escaped
    exact .plain escaped.1 escaped.2 other

theorem route_writes (route : Bytes) (one_row : newline ∉ route) :
    ∀ b ∈ route, WritesByte b (quoteRouteByte b) := fun b member =>
  quoteRouteByte_writes b fun same => one_row (same ▸ member)

-- A quoted route is read as one string, whatever follows.
theorem first_quoted (route rest : Bytes) (routed : route ≠ []) (one_row : newline ∉ route) :
    Piece.first singleQuote (route.flatMap quoteRouteByte ++ singleQuote :: rest) =
      .lexeme .string route (quoteRoute route) :=
  first_written rest routed (route_writes route one_row)

def decoratorRow (route : Bytes) : Bytes := ascii "@endpoint(" ++ quoteRoute route ++ ascii ")"

theorem decoratorRow_read (route : Bytes) (routed : route ≠ []) (one_row : newline ∉ route) :
    Decorator.ofLine (decoratorRow route) = .ok ⟨route, defaultMethod⟩ :=
  decoratorWith_read routed (route_writes route one_row)

end EndpointPreview.Notation
