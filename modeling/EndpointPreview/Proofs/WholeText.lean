import EndpointPreview.Proofs.Lines
import EndpointPreview.Proofs.PlainText
import EndpointPreview.Text.Utf8

/-!
Texts of whole UTF-8 characters and their parts. Every byte of a character but the only one of an
ASCII character lies above ASCII, so a text that is cut beside an ASCII byte is cut between
characters. Whatever is cut off before, what is left ends where a character ends.
-/

namespace EndpointPreview.Utf8

open Text

theorem step_plain (b : UInt8) (low : b ≤ 0x7F) : step .boundary b = some .boundary :=
  if_pos low

/-- An ASCII byte stands between characters. -/
theorem at_boundary (state next : Expect) (b : UInt8) (low : b ≤ 0x7F)
    (stepped : step state b = some next) : state = .boundary ∧ next = .boundary := by
  have tail (least most : UInt8) (after : Expect) (high : 0x80 ≤ least)
      (inside : between least most b after = some next) : False := by
    unfold between at inside
    split at inside
    · rename_i bounds
      have least_low : (0x80 : UInt8) ≤ 0x7F :=
        UInt8.le_trans high (UInt8.le_trans bounds.1 low)
      exact absurd least_low (by decide)
    · cases inside
  cases state with
  | boundary =>
      rw [step_plain b low] at stepped
      exact ⟨rfl, (Option.some.inj stepped).symm⟩
  | tail1 | tail2 | tail3 | afterE0 | afterED | afterF0 | afterF4 =>
      exact (tail _ _ _ (by decide) stepped).elim

theorem run_cons (state next : Expect) (b : UInt8) (rest : Bytes)
    (read : run state (b :: rest) = some next) :
    ∃ between, step state b = some between ∧ run between rest = some next := by
  unfold run at read
  cases stepped : step state b with
  | none =>
      rw [stepped] at read
      cases read
  | some between =>
      rw [stepped] at read
      exact ⟨between, rfl, read⟩

/-- A text that goes on with an ASCII byte ends where a character ends. -/
theorem run_before (state next : Expect) (text : Bytes) (b : UInt8) (rest : Bytes) (low : b ≤ 0x7F)
    (read : run state (text ++ b :: rest) = some next) :
    run state text = some .boundary ∧ run .boundary rest = some next := by
  rw [run_append] at read
  obtain ⟨middle, first, second⟩ := Option.bind_eq_some_iff.mp read
  obtain ⟨after, stepped, last⟩ := run_cons middle next b rest second
  obtain ⟨rfl, rfl⟩ := at_boundary middle after b low stepped
  exact ⟨first, last⟩

theorem run_plain (text : Bytes) (plain : Plain text) : run .boundary text = some .boundary := by
  induction text with
  | nil => rfl
  | cons b rest ih =>
      obtain ⟨low, later⟩ := (Plain.cons_iff b rest).mp plain
      rw [run, step_plain b low]
      exact ih later

/-- Plain text at the end may be cut off. -/
theorem run_plain_end (state : Expect) (text trail : Bytes) (plain : Plain trail)
    (read : run state (text ++ trail) = some .boundary) : run state text = some .boundary := by
  cases trail with
  | nil => rwa [List.append_nil] at read
  | cons b rest => exact (run_before state _ text b rest (plain b List.mem_cons_self) read).1

theorem plain_blank (text : Bytes) (blank : isBlank text = true) : Plain text := fun b member =>
  Plain.isSpace_le b ((isBlank_iff text).mp blank b member)

theorem isValid_iff (text : Bytes) : isValid text = true ↔ run .boundary text = some .boundary := by
  unfold isValid
  exact decide_eq_true_iff

theorem isValid_plain (text : Bytes) (plain : Plain text) : isValid text = true :=
  (isValid_iff text).mpr (run_plain text plain)

theorem isValid_append (left right : Bytes) (first : isValid left = true)
    (second : isValid right = true) : isValid (left ++ right) = true := by
  rw [isValid_iff] at *
  rw [run_append, first]
  exact second

/-- A text that ends where a character ends, whatever was cut off in front of it. -/
def EndsWhole (text : Bytes) : Prop := ∃ state, run state text = some .boundary

theorem EndsWhole.of_valid {text : Bytes} (valid : isValid text = true) : EndsWhole text :=
  ⟨.boundary, (isValid_iff text).mp valid⟩

namespace EndsWhole

variable {text : Bytes}

theorem suffix (ends : EndsWhole text) {part : Bytes} (back : part <:+ text) : EndsWhole part := by
  obtain ⟨front, rfl⟩ := back
  obtain ⟨state, read⟩ := ends
  rw [run_append] at read
  obtain ⟨middle, _, rest⟩ := Option.bind_eq_some_iff.mp read
  exact ⟨middle, rest⟩

/-- What follows plain text is of whole characters. -/
theorem after_plain {front rest : Bytes} (ends : EndsWhole (front ++ rest)) (plain : Plain front)
    (nonempty : front ≠ []) : isValid rest = true := by
  obtain ⟨state, read⟩ := ends
  cases front using List.reverseRecOn with
  | nil => exact absurd rfl nonempty
  | append_singleton before last =>
      rw [List.append_assoc] at read
      have low : last ≤ 0x7F := plain last (List.mem_append_right _ List.mem_cons_self)
      exact (isValid_iff rest).mpr (run_before state _ before last rest low read).2

theorem plain_end {trail : Bytes} (ends : EndsWhole (text ++ trail)) (plain : Plain trail) :
    EndsWhole text := by
  obtain ⟨state, read⟩ := ends
  exact ⟨state, run_plain_end state text trail plain read⟩

theorem append (ends : EndsWhole text) {rest : Bytes} (valid : isValid rest = true) :
    EndsWhole (text ++ rest) := by
  obtain ⟨state, read⟩ := ends
  refine ⟨state, ?_⟩
  rw [run_append, read]
  exact (isValid_iff rest).mp valid

theorem trim (ends : EndsWhole text) : EndsWhole (Text.trim text) := by
  obtain ⟨lead, trail, _, after, whole⟩ := trim_between text
  rw [whole] at ends
  exact (ends.plain_end (plain_blank trail after)).suffix (List.suffix_append _ _)

end EndsWhole

theorem isValid_trim (text : Bytes) (valid : isValid text = true) :
    isValid (trim text) = true := by
  obtain ⟨lead, trail, before, after, whole⟩ := trim_between text
  rw [isValid_iff] at valid ⊢
  rw [whole] at valid
  have read := run_plain_end _ _ trail (plain_blank trail after) valid
  rw [run_append, run_plain lead (plain_blank lead before)] at read
  exact read

theorem isValid_chompReturn (row : Bytes) (valid : isValid row = true) :
    isValid (chompReturn row) = true := by
  rcases chompReturn_cases row with same | ends
  · rwa [same]
  · rw [isValid_iff] at valid ⊢
    rw [ends] at valid
    exact run_plain_end _ _ [carriageReturn] (by decide) valid

theorem rawLines_eq_nil (text : Bytes) (none_left : rawLines text = []) : text = [] := by
  cases text with
  | nil => rfl
  | cons b rest =>
      unfold rawLines at none_left
      split at none_left
      · cases none_left
      · split at none_left <;> cases none_left

-- The first line starts where the text starts, perhaps inside a character.
theorem run_rawLines (state : Expect) (text line : Bytes) (later : List Bytes)
    (read : run state text = some .boundary) (rows : rawLines text = line :: later) :
    run state line = some .boundary ∧ ∀ row ∈ later, isValid row = true := by
  induction text generalizing state line later with
  | nil => cases rows
  | cons b rest ih =>
      unfold rawLines at rows
      split at rows
      · rename_i ends
        obtain ⟨rfl, rfl⟩ := List.cons.inj rows
        have low : b ≤ 0x7F := by
          rw [beq_iff_eq.mp ends]
          decide
        obtain ⟨between, stepped, after⟩ := run_cons state _ b rest read
        obtain ⟨rfl, rfl⟩ := at_boundary state between b low stepped
        refine ⟨rfl, ?_⟩
        cases next : rawLines rest with
        | nil => exact fun _ member => absurd member List.not_mem_nil
        | cons first others =>
            obtain ⟨own, all⟩ := ih _ first others after next
            exact List.forall_mem_cons.mpr ⟨(isValid_iff first).mpr own, all⟩
      · split at rows
        · rename_i none_left
          obtain ⟨rfl, rfl⟩ := List.cons.inj rows
          rw [rawLines_eq_nil rest none_left] at read
          exact ⟨read, fun _ member => absurd member List.not_mem_nil⟩
        · rename_i first others next
          obtain ⟨rfl, rfl⟩ := List.cons.inj rows
          obtain ⟨between, stepped, after⟩ := run_cons state _ b rest read
          obtain ⟨own, all⟩ := ih between first others after next
          refine ⟨?_, all⟩
          rw [run, stepped]
          exact own

theorem isValid_lines (text : Bytes) (valid : isValid text = true) :
    ∀ row ∈ lines text, isValid row = true := by
  intro row member
  obtain ⟨raw, inside, rfl⟩ := List.mem_map.mp member
  apply isValid_chompReturn
  cases rows : rawLines text with
  | nil =>
      rw [rows] at inside
      cases inside
  | cons line later =>
      obtain ⟨own, all⟩ := run_rawLines _ text line later ((isValid_iff text).mp valid) rows
      rw [rows] at inside
      rcases List.mem_cons.mp inside with rfl | rest
      · exact (isValid_iff _).mpr own
      · exact all raw rest

theorem isValid_unlines (rows : List Bytes) (valid : ∀ row ∈ rows, isValid row = true) :
    isValid (unlines rows) = true := by
  induction rows with
  | nil => rfl
  | cons row rest ih =>
      obtain ⟨own, all⟩ := List.forall_mem_cons.mp valid
      cases rest with
      | nil => exact own
      | cons next rest =>
          rw [unlines_cons]
          exact isValid_append row _ own (isValid_append [newline] _ (by decide) (ih all))

end EndpointPreview.Utf8
