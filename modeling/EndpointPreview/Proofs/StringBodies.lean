import EndpointPreview.Proofs.Pieces

/-!
Strings read part by part. A part of a string that neither closes it nor breaks off its row is
read on its own, whatever follows, and a string is its parts between two marks.
-/

namespace EndpointPreview.Notation

open Text

theorem isQuote_other (quote : UInt8) (mark : isQuote quote = true) :
    quote ≠ backslash ∧ isSpace quote = false := by
  simp only [isQuote, Bool.or_eq_true, beq_iff_eq] at mark
  rcases mark with (rfl | rfl) | rfl <;> decide

theorem closingMark_cons (quote : UInt8) (triple : Bool) :
    ∃ more, closingMark quote triple = quote :: more := by
  cases triple with
  | false => exact ⟨[], rfl⟩
  | true => exact ⟨[quote, quote], rfl⟩

theorem mem_closingMark (quote b : UInt8) (triple : Bool) (member : b ∈ closingMark quote triple) :
    b = quote := by
  cases triple <;> simpa [closingMark] using member

theorem first_quote (quote : UInt8) (after : Bytes) (mark : isQuote quote = true) :
    Piece.first quote after = Piece.ofString quote after := by
  simp only [isQuote, Bool.or_eq_true, beq_iff_eq] at mark
  rcases mark with (rfl | rfl) | rfl <;> rfl

/-- A string of one mark, unless it is empty and the mark stands behind it again. -/
theorem opensTriple_other (quote : UInt8) (after : Bytes) (other : after.take 2 ≠ [quote, quote]) :
    opensTriple quote after = false := by
  have no_pair : [quote, quote].isPrefixOf after = false := by
    rw [Bool.eq_false_iff]
    intro pair
    have front := List.prefix_iff_eq_take.mp (List.isPrefixOf_iff_prefix.mp pair)
    exact other front.symm
  rw [opensTriple, no_pair, Bool.and_false]

-- A string after a byte that starts no escape.
theorem stringBody_cons (quote : UInt8) (triple : Bool) (b : UInt8) (rest : Bytes)
    (straight : b ≠ backslash) :
    stringBody? quote triple (b :: rest) =
      if (closingMark quote triple).isPrefixOf (b :: rest) then
        some ⟨[], closingMark quote triple, (b :: rest).drop (closingMark quote triple).length⟩
      else if b == newline && !triple then none
      else (stringBody? quote triple rest).map (.prepend [b] [b]) := by
  have no_escape : (b == backslash) = false := by simpa using straight
  cases rest with
  | nil =>
      cases triple with
      | false =>
          by_cases closes : b = quote
          · subst closes
            simp [stringBody?, closingMark]
          · simp [stringBody?, closingMark, closes, Ne.symm closes]
      | true => simp [stringBody?, closingMark, List.isPrefixOf]
  | cons next rest =>
      cases triple <;> simp [stringBody?, no_escape, closingMark]

theorem stringBody_escape (quote : UInt8) (triple : Bool) (next : UInt8) (rest : Bytes) :
    stringBody? quote triple (backslash :: next :: rest) =
      (stringBody? quote triple rest).map (.prepend (escapeValue next) [backslash, next]) := by
  simp [stringBody?]

theorem stringBody_closing (quote : UInt8) (triple : Bool) (rest : Bytes)
    (mark : isQuote quote = true) :
    stringBody? quote triple (closingMark quote triple ++ rest) =
      some ⟨[], closingMark quote triple, rest⟩ := by
  obtain ⟨more, parts⟩ := closingMark_cons quote triple
  have closes : (closingMark quote triple).isPrefixOf (quote :: (more ++ rest)) = true := by
    rw [← List.cons_append, ← parts]
    exact List.isPrefixOf_iff_prefix.mpr (List.prefix_append _ _)
  have behind : (quote :: (more ++ rest)).drop (closingMark quote triple).length = rest := by
    rw [← List.cons_append, parts, List.drop_left]
  conv => lhs; rw [parts, List.cons_append]
  rw [stringBody_cons _ _ _ _ (isQuote_other quote mark).1, if_pos closes, behind]

theorem stringBody_break (quote : UInt8) (rest : Bytes) (mark : isQuote quote = true) :
    stringBody? quote false (newline :: rest) = none := by
  have other : quote ≠ newline := by
    rintro rfl
    cases mark
  rw [stringBody_cons _ _ _ _ (by decide)]
  simp [closingMark, other]

def Passes (quote : UInt8) (triple : Bool) (raw content behind : Bytes) : Prop :=
  stringBody? quote triple (raw ++ behind) =
    (stringBody? quote triple behind).map (.prepend content raw)

namespace Passes

variable {quote : UInt8} {triple : Bool}

theorem nil (behind : Bytes) : Passes quote triple [] [] behind := by
  have same : StringBody.prepend [] [] = id := rfl
  rw [Passes, same, Option.map_id]
  rfl

theorem escape {mark : UInt8} {content : Bytes} (value : escapeValue mark = content)
    (behind : Bytes) : Passes quote triple [backslash, mark] content behind := by
  subst value
  exact stringBody_escape quote triple mark behind

theorem byte (b : UInt8) (behind : Bytes) (straight : b ≠ backslash)
    (inside : ¬ closingMark quote triple <+: b :: behind) (same_row : b = newline → triple = true) :
    Passes quote triple [b] [b] behind := by
  have no_closing : ¬ (closingMark quote triple).isPrefixOf (b :: behind) = true := by
    rwa [List.isPrefixOf_iff_prefix]
  have no_break : ¬ (b == newline && !triple) = true := by simpa using same_row
  rw [Passes, List.singleton_append, stringBody_cons _ _ _ _ straight, if_neg no_closing,
    if_neg no_break]

theorem append {raw content more further behind : Bytes}
    (first : Passes quote triple raw content (more ++ behind))
    (second : Passes quote triple more further behind) :
    Passes quote triple (raw ++ more) (content ++ further) behind := by
  unfold Passes at first second ⊢
  rw [List.append_assoc, first, second, Option.map_map]
  congr 1
  funext body
  simp [StringBody.prepend]

/-- Parts one after the other. -/
theorem row {Part : Type} {write read : Part → Bytes} (parts : List Part) (behind : Bytes)
    (each : ∀ before part after, parts = before ++ part :: after →
      Passes quote triple (write part) (read part) (after.flatMap write ++ behind)) :
    Passes quote triple (parts.flatMap write) (parts.flatMap read) behind := by
  induction parts with
  | nil => exact .nil behind
  | cons part later ih =>
      have tail := ih fun before part after whole =>
        each (_ :: before) part after (congrArg _ whole)
      exact (each [] part later rfl).append tail

end Passes

/-- A plain string that is never closed takes the rest of the text. -/
theorem ofString_open {quote : UInt8} {after : Bytes} (opens : opensTriple quote after = false)
    (left : stringBody? quote false after = none) :
    Piece.ofString quote after = .lexeme .invalid (quote :: after) (quote :: after) := by
  have body : (quote :: after).drop (closingMark quote false).length = after := rfl
  unfold Piece.ofString
  rw [opens]
  dsimp only
  rw [body, left]

/-- A string is one lexeme between its marks. -/
theorem ofString_passed {quote : UInt8} {triple : Bool} {raw content rest : Bytes}
    (mark : isQuote quote = true)
    (opens : opensTriple quote
      ((closingMark quote triple).drop 1 ++ (raw ++ (closingMark quote triple ++ rest))) = triple)
    (passes : Passes quote triple raw content (closingMark quote triple ++ rest)) :
    Piece.ofString quote
        ((closingMark quote triple).drop 1 ++ (raw ++ (closingMark quote triple ++ rest))) =
      .lexeme .string content (closingMark quote triple ++ (raw ++ closingMark quote triple)) := by
  obtain ⟨more, parts⟩ := closingMark_cons quote triple
  have opening : quote :: ((closingMark quote triple).drop 1 ++
      (raw ++ (closingMark quote triple ++ rest))) =
      closingMark quote triple ++ (raw ++ (closingMark quote triple ++ rest)) := by
    rw [parts]
    rfl
  have body := stringBody_closing quote triple rest mark
  unfold Passes at passes
  unfold Piece.ofString
  rw [opens, opening]
  dsimp only
  rw [List.drop_left, passes, body]
  simp [StringBody.prepend]

end EndpointPreview.Notation
