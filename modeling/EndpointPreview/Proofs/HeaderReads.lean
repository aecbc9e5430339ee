import EndpointPreview.Proofs.HeaderBlocks

/-!
Header blocks and the reads that bring them. The bytes of a connection come in reads of bounded
length, and the limit is looked at before a read and not within it. A block that ends within the
limit is read the same however the bytes are split; one whose end lies beyond what the last read
before the limit can bring is read by no split.
-/

namespace EndpointPreview.Text

/-- A text up to the end of what is found in it ends with that. -/
theorem found_suffix {needle text : Bytes} {position : Nat}
    (found : indexOf? needle text = some position) :
    needle <:+ text.take (position + needle.length) := by
  obtain ⟨here, -⟩ := (indexOf_some needle text position).mp found
  rw [List.take_add, ← List.prefix_iff_eq_take.mp here]
  exact List.suffix_append _ _

end EndpointPreview.Text

namespace EndpointPreview.Http

open Text

def readSize : Nat := 1024

-- The most bytes that reads can bring when each of them begins below the limit.
def headerReach : Nat := headerLimit - 1 + readSize

/-- What of the chunks is read. A block is complete with a read that began below the limit, and no
byte of that read is lost; one that is not has all chunks, or enough of them to reach the limit. -/
def HeaderRead.Consumes (received : Bytes) (chunks : List Bytes) : HeaderRead → Prop
  | .complete headers extra later => ∃ before chunk, chunks = before ++ chunk :: later ∧
      (received ++ readAll before).length < headerLimit ∧
      headers ++ extra = received ++ readAll before ++ chunk
  | .incomplete left => ∃ before later, chunks = before ++ later ∧
      left = received ++ readAll before ∧ (later = [] ∨ headerLimit ≤ left.length)

theorem HeaderRead.Consumes.next {received chunk : Bytes} {chunks : List Bytes} {outcome : HeaderRead}
    (consumes : outcome.Consumes (received ++ chunk) chunks) :
    outcome.Consumes received (chunk :: chunks) := by
  cases outcome with
  | complete headers extra later =>
      obtain ⟨before, last, rfl, below, kept⟩ := consumes
      have joined : received ++ chunk ++ readAll before = received ++ readAll (chunk :: before) := by
        simp [readAll]
      rw [joined] at below kept
      exact ⟨chunk :: before, last, rfl, below, kept⟩
  | incomplete left =>
      obtain ⟨before, later, rfl, rfl, ends⟩ := consumes
      refine ⟨chunk :: before, later, rfl, ?_, ends⟩
      simp [readAll]

theorem readHeadersFrom_consumes (received : Bytes) (chunks : List Bytes) :
    (readHeadersFrom received chunks).Consumes received chunks := by
  induction chunks generalizing received with
  | nil => exact ⟨[], [], rfl, (List.append_nil received).symm, .inl rfl⟩
  | cons chunk later ih =>
      rw [readHeadersFrom]
      split
      · rename_i full
        exact ⟨[], chunk :: later, rfl, (List.append_nil received).symm, .inr full⟩
      · rename_i below
        dsimp only
        split
        · refine ⟨[], chunk, rfl, ?_, ?_⟩
          · simpa [readAll] using below
          · rw [List.take_append_drop]
            simp [readAll]
        · exact (ih (received ++ chunk)).next

theorem readHeaders_consumes (chunks : List Bytes) : (readHeaders chunks).Consumes [] chunks :=
  readHeadersFrom_consumes [] chunks

/-- A complete block and what came with it are no longer than reads below the limit can bring. -/
theorem HeaderRead.Consumes.within {chunks : List Bytes} {headers extra : Bytes} {later : List Bytes}
    (consumes : (HeaderRead.complete headers extra later).Consumes [] chunks)
    (reads : ∀ chunk ∈ chunks, chunk.length ≤ readSize) :
    (headers ++ extra).length ≤ headerReach := by
  obtain ⟨before, chunk, rfl, below, kept⟩ := consumes
  have short := reads chunk (by simp)
  rw [kept, List.length_append]
  unfold headerReach
  omega

/-- How a header block is read does not depend on the split of the bytes into reads. -/
theorem readHeaders_split (chunks : List Bytes)
    (reads : ∀ chunk ∈ chunks, chunk ≠ [] ∧ chunk.length ≤ readSize) :
    (∀ position, indexOf? blankLine (readAll chunks) = some position →
      position + blankLine.length ≤ headerLimit →
        ∃ headers extra taken later, readHeaders chunks = .complete headers extra later ∧
          headers = (readAll chunks).take (position + blankLine.length) ∧
          chunks = taken ++ later ∧ headers ++ extra = readAll taken) ∧
      (¬ blankLine <:+: (readAll chunks).take headerReach →
        ∃ received, readHeaders chunks = .incomplete received) := by
  have outcome := readHeaders_reads chunks
  have consumes := readHeaders_consumes chunks
  cases read : readHeaders chunks with
  | complete headers extra later =>
      rw [read] at outcome consumes
      obtain ⟨first, found, own, -⟩ := outcome
      constructor
      · intro position known _
        obtain rfl : first = position := Option.some.inj (found.symm.trans known)
        obtain ⟨before, chunk, split, -, kept⟩ := consumes
        refine ⟨headers, extra, before ++ [chunk], later, rfl, own, ?_, ?_⟩
        · rw [split, List.append_assoc, List.singleton_append]
        · rw [kept]
          simp [readAll]
      · intro absent
        have within := consumes.within fun chunk member => (reads chunk member).2
        have fits : headers.length ≤ headerReach := by
          rw [List.length_append] at within
          omega
        have ends : blankLine <:+: headers := own ▸ (found_suffix found).isInfix
        have front : headers <+: (readAll chunks).take headerReach := by
          rw [List.prefix_take_iff]
          exact ⟨own ▸ List.take_prefix _ _, fits⟩
        exact absurd (ends.trans front.isInfix) absent
  | incomplete received =>
      rw [read] at outcome
      constructor
      · intro position found fits
        have late := outcome position found
        omega
      · intro _
        exact ⟨received, rfl⟩

/-- A blank line that three reads bring in parts, and a connection that ends without one. -/
theorem readHeaders_split_straddling :
    let chunks := [ascii "GET / HTTP/1.0\r", ascii "\n\r", ascii "\nab", ascii "cd"]
    let ended := [ascii "GET / HTTP/1.0\r", ascii "\n\r"]
    (∀ chunk ∈ chunks ++ ended, chunk ≠ [] ∧ chunk.length ≤ readSize) ∧
      indexOf? blankLine (readAll chunks) = some 14 ∧ 14 + blankLine.length ≤ headerLimit ∧
      (∃ headers extra taken later, readHeaders chunks = .complete headers extra later ∧
        headers = (readAll chunks).take 18 ∧
        chunks = taken ++ later ∧ headers ++ extra = readAll taken) ∧
      ¬ blankLine <:+: (readAll ended).take headerReach ∧
      ∃ received, readHeaders ended = .incomplete received := by
  intro chunks ended
  have reads : ∀ chunk ∈ chunks ++ ended, chunk ≠ [] ∧ chunk.length ≤ readSize := by decide
  obtain ⟨first, second⟩ := List.forall_mem_append.mp reads
  have found : indexOf? blankLine (readAll chunks) = some 14 := rfl
  have fits : 14 + blankLine.length ≤ headerLimit := by decide
  have unended : ¬ blankLine <:+: (readAll ended).take headerReach := fun inside => by
    have whole := (contains_iff _ _).mpr (inside.trans (List.take_prefix _ _).isInfix)
    revert whole
    decide
  exact ⟨reads, found, fits, (readHeaders_split chunks first).1 14 found fits, unended,
    (readHeaders_split ended second).2 unended⟩

end EndpointPreview.Http
