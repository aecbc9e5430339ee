import EndpointPreview.Proofs.HeaderBlocks
import EndpointPreview.Proofs.LocalUrls

/-!
Paths without a scheme. A text that starts with a slash names a path on this machine, with a query
behind its first question mark and a fragment that is dropped. It is read so unless it holds the
mark of a scheme anywhere, which makes a URL of another scheme out of it, or a question mark in its
fragment, which opens a query there.
-/

namespace EndpointPreview.Text

theorem cut_none (needle text : Bytes) : cut? needle text = none ↔ ¬ needle <:+: text := by
  rw [← contains_iff, contains, cut?, Option.map_eq_none_iff, Bool.not_eq_true,
    Option.isSome_eq_false_iff, Option.isNone_iff_eq_none]

/-- A text that is cut is what stands before the needle, the needle and what stands after it; and
the cut is the same whatever stands there. -/
theorem cut_some {needle text before after : Bytes} (solid : needle ≠ [])
    (cut : cut? needle text = some (before, after)) :
    text = before ++ needle ++ after ∧
      ∀ other, cut? needle (before ++ needle ++ other) = some (before, other) := by
  obtain ⟨position, found, parts⟩ := Option.map_eq_some_iff.mp cut
  obtain ⟨rfl, rfl⟩ := Prod.mk.inj parts
  obtain ⟨⟨rest, here⟩, _⟩ := (indexOf_some _ _ _).mp found
  have fits : position ≤ text.length := by
    have inside := congrArg List.length here
    have positive := List.length_pos_iff.mpr solid
    simp only [List.length_append, List.length_drop] at inside
    omega
  have whole : text = text.take position ++ needle ++ text.drop (position + needle.length) := by
    rw [← List.drop_drop, ← here, List.drop_left, List.append_assoc, here, List.take_append_drop]
  refine ⟨whole, fun other => ?_⟩
  have length : (text.take position).length = position := List.length_take_of_le fits
  have first : indexOf? needle (text.take position ++ needle) = some position := by
    rw [whole] at found
    refine indexOf_within needle _ _ position found ?_
    rw [List.length_append, length]
  unfold cut?
  rw [indexOf_append needle _ other position solid first, Option.map_some]
  generalize text.take position = front at length
  subst length
  rw [← List.length_append, List.drop_left, List.append_assoc, List.take_left]

/-- The needle does not occur in what stands before its first occurrence. -/
theorem cut_front {needle text before after : Bytes} (solid : needle ≠ [])
    (cut : cut? needle text = some (before, after)) : ¬ needle <:+: before := by
  obtain ⟨position, found, parts⟩ := Option.map_eq_some_iff.mp cut
  obtain ⟨rfl, -⟩ := Prod.mk.inj parts
  rintro ⟨front, behind, whole⟩
  have first := ((indexOf_some _ _ _).mp found).2 front.length
  have length := congrArg List.length whole
  have positive := List.length_pos_iff.mpr solid
  simp only [List.length_append, List.length_take] at length
  have split : text = front ++ (needle ++ (behind ++ text.drop position)) := by
    rw [← List.append_assoc, ← List.append_assoc, whole, List.take_append_drop]
  refine first (by omega) ?_
  rw [split, List.drop_left]
  exact List.prefix_append _ _

end EndpointPreview.Text

namespace EndpointPreview.Http.Url

open Text

def endsPath (b : UInt8) : Bool := b == byte '?' || b == byte '#'

def pathText (text : Bytes) : Bytes := text.takeWhile (!endsPath ·)

def ownQuery (text : Bytes) : Bytes :=
  match text.dropWhile (!endsPath ·) with
  | [] => []
  | mark :: rest => if mark = byte '?' then beforeMark (byte '#') rest else []

def fragmentQuery (text : Bytes) : Bytes :=
  match text.dropWhile (!endsPath ·) with
  | [] => []
  | mark :: rest =>
      if mark = byte '?' then []
      else beforeMark (byte '#') ((rest.dropWhile (· != byte '?')).drop 1)

theorem endsPath_iff (b : UInt8) : endsPath b = true ↔ b = byte '?' ∨ b = byte '#' := by
  simp [endsPath]

theorem endsPath_not_mem {text : Bytes} (unmarked : ∀ b ∈ text, endsPath b = false) :
    byte '?' ∉ text ∧ byte '#' ∉ text :=
  ⟨fun member => absurd (unmarked _ member) (by decide),
    fun member => absurd (unmarked _ member) (by decide)⟩

/-- A path, and what follows from the byte on that ends it. -/
theorem path_split (text : Bytes) : ∃ front rest, text = front ++ rest ∧
    (∀ b ∈ front, endsPath b = false) ∧ (∀ b ∈ rest.head?, endsPath b = true) ∧
    pathText text = front ∧ text.dropWhile (!endsPath ·) = rest := by
  refine ⟨_, _, List.takeWhile_append_dropWhile.symm, fun b member => ?_, fun b head => ?_,
    rfl, rfl⟩
  · simpa using List.mem_takeWhile_imp member
  · have stops := List.head?_dropWhile_not (!endsPath ·) text
    rw [Option.mem_def.mp head] at stops
    simpa using stops

theorem beforeMark_append (mark : UInt8) (front rest : Bytes) (unmarked : mark ∉ front) :
    beforeMark mark (front ++ mark :: rest) = front := (takeWhile_mark mark front rest unmarked).1

/-- The path ends at the first question mark or hash; a query may stand behind either. -/
theorem pathAndQuery_eq (text : Bytes) :
    pathAndQuery text = (rooted (pathText text), ownQuery text ++ fragmentQuery text) := by
  obtain ⟨front, rest, whole, inside, stops, path, from_mark⟩ := path_split text
  obtain ⟨unasked, unhashed⟩ := endsPath_not_mem inside
  unfold ownQuery fragmentQuery
  rw [path, from_mark, whole]
  cases rest with
  | nil =>
      rw [List.append_nil, pathAndQuery, cutAt_none _ front unasked]
      simp only [beforeMark_all _ front unhashed, List.append_nil]
  | cons mark rest =>
      rcases (endsPath_iff mark).mp (stops mark rfl) with rfl | rfl
      · rw [pathAndQuery, cutAt_mark _ front rest unasked]
        simp only [beforeMark_all _ front unhashed, if_true, List.append_nil]
      · have hashed : byte '#' ≠ byte '?' := by decide
        dsimp only
        rw [if_neg hashed, if_neg hashed, List.nil_append]
        by_cases asked : byte '?' ∈ rest
        · obtain ⟨fragment, query, rfl, clear⟩ := List.eq_append_cons_of_mem asked
          have outside : byte '?' ∉ front ++ byte '#' :: fragment := by
            rw [List.mem_append, List.mem_cons, not_or, not_or]
            exact ⟨unasked, hashed.symm, clear⟩
          rw [← List.cons_append, ← List.append_assoc, pathAndQuery, cutAt_mark _ _ query outside]
          dsimp only
          rw [beforeMark_append _ front fragment unhashed,
            (takeWhile_mark _ fragment query clear).2,
            List.drop_one, List.tail_cons]
        · have outside : byte '?' ∉ front ++ byte '#' :: rest := by
            rw [List.mem_append, List.mem_cons, not_or, not_or]
            exact ⟨unasked, hashed.symm, asked⟩
          rw [pathAndQuery, cutAt_none _ _ outside]
          dsimp only
          rw [beforeMark_append _ front rest unhashed, dropWhile_unmarked _ rest asked]
          rfl

theorem schemeMark_ne_nil : schemeMark ≠ [] := List.cons_ne_nil _ _

/-- A text with a scheme is read when the authority behind it is. -/
theorem parse_schemed {text scheme rest : Bytes}
    (cut : cut? schemeMark text = some (scheme, rest)) (url : Url) :
    parse text = .ok url ↔
      authority (rest.takeWhile (!endsAuthority ·)) = .ok (url.host, url.port) ∧
        url.scheme = lowercase scheme ∧
        (url.path, url.query) = pathAndQuery (rest.dropWhile (!endsAuthority ·)) := by
  unfold parse
  rw [cut]
  dsimp only [ofParts]
  generalize pathAndQuery (rest.dropWhile (!endsAuthority ·)) = target
  obtain ⟨path, query⟩ := target
  cases authority (rest.takeWhile (!endsAuthority ·)) with
  | error fault => exact ⟨(by rintro ⟨⟩), (by rintro ⟨⟨⟩, _⟩)⟩
  | ok place =>
      obtain ⟨host, port⟩ := place
      constructor
      · rintro ⟨⟩
        exact ⟨rfl, rfl, rfl⟩
      · obtain ⟨scheme, host, port, path, query⟩ := url
        rintro ⟨⟨⟩, rfl, ⟨⟩⟩
        rfl

/-- A text with a scheme is refused for its authority. -/
theorem parse_refused {text scheme rest : Bytes}
    (cut : cut? schemeMark text = some (scheme, rest)) (error : UrlError) :
    parse text = .error error ↔
      authority (rest.takeWhile (!endsAuthority ·)) = .error error.fault ∧ error.url = text := by
  unfold parse
  rw [cut]
  dsimp only [ofParts]
  cases authority (rest.takeWhile (!endsAuthority ·)) with
  | ok place => exact ⟨(by rintro ⟨⟩), (by rintro ⟨⟨⟩, _⟩)⟩
  | error fault =>
      constructor
      · rintro ⟨⟩
        exact ⟨rfl, rfl⟩
      · obtain ⟨own, url⟩ := error
        rintro ⟨⟨⟩, rfl⟩
        rfl

def bare (text : Bytes) : Url := ⟨localScheme, localHost, none, pathText text, ownQuery text⟩

structure BareReading (text : Bytes) : Prop where
  -- Without the mark of a scheme it is the path, but a question mark in the fragment opens a query
  -- too.
  unmarked : ¬ schemeMark <:+: text →
    parse text = .ok { bare text with query := ownQuery text ++ fragmentQuery text }
  -- With the mark of a scheme it is no path: all before the mark is the scheme, and the host is the
  -- one named behind it.
  marked : schemeMark <:+: text → ∀ url, parse text = .ok url →
    ∃ path rest, text = byte '/' :: path ++ schemeMark ++ rest ∧
      url.scheme = byte '/' :: lowercase path ∧
      authority (rest.takeWhile (!endsAuthority ·)) = .ok (url.host, url.port)
  -- So it is the path that it names exactly when both are missing.
  named : parse text = .ok (bare text) ↔ ¬ schemeMark <:+: text ∧ fragmentQuery text = []

theorem pathText_head (text : Bytes) (slash : text.head? = some (byte '/')) :
    (pathText text).head? = some (byte '/') := by
  obtain ⟨rest, rfl⟩ := List.head?_eq_some_iff.mp slash
  rfl

theorem parse_unmarked (text : Bytes) (slash : text.head? = some (byte '/'))
    (unmarked : ¬ schemeMark <:+: text) :
    parse text = .ok { bare text with query := ownQuery text ++ fragmentQuery text } := by
  have path : rooted (pathText text) = pathText text := by
    simp [rooted, pathText_head text slash]
  unfold parse
  rw [(cut_none schemeMark text).mpr unmarked]
  simp only [ofPath, pathAndQuery_eq, path, bare]

theorem parse_marked (text : Bytes) (slash : text.head? = some (byte '/'))
    (marked : schemeMark <:+: text) (url : Url) (read : parse text = .ok url) :
    ∃ path rest, text = byte '/' :: path ++ schemeMark ++ rest ∧
      url.scheme = byte '/' :: lowercase path ∧
      authority (rest.takeWhile (!endsAuthority ·)) = .ok (url.host, url.port) := by
  cases cut : cut? schemeMark text with
  | none => exact absurd marked ((cut_none schemeMark text).mp cut)
  | some parts =>
      obtain ⟨scheme, rest⟩ := parts
      obtain ⟨whole, _⟩ := cut_some schemeMark_ne_nil cut
      obtain ⟨place, schemed, _⟩ := (parse_schemed cut url).mp read
      -- The mark of a scheme does not start with a slash, so the slash belongs to the scheme.
      cases scheme with
      | nil =>
          rw [whole] at slash
          cases slash
      | cons first path =>
          rw [whole] at slash
          obtain rfl : first = byte '/' := Option.some.inj slash
          exact ⟨path, rest, whole, schemed, place⟩

/-- A text that starts with a slash is a path of this machine, unless it holds the mark of a scheme
or asks in its fragment. -/
theorem parse_bare (text : Bytes) (slash : text.head? = some (byte '/')) : BareReading text := by
  have read := parse_unmarked text slash
  refine ⟨read, parse_marked text slash, fun named => ?_, fun ⟨unmarked, unasked⟩ => ?_⟩
  · by_cases marked : schemeMark <:+: text
    · obtain ⟨path, rest, _, scheme, _⟩ := parse_marked text slash marked _ named
      cases scheme
    · rw [read marked] at named
      have query : ownQuery text ++ fragmentQuery text = ownQuery text :=
        congrArg Url.query (Except.ok.inj named)
      exact ⟨marked, List.append_right_eq_self.mp query⟩
  · rw [read unmarked, unasked, List.append_nil]
    rfl

theorem parse_bare_fragment :
    (ascii "/menu?day=1#top").head? = some (byte '/') ∧
      parse (ascii "/menu?day=1#top") =
        .ok ⟨ascii "http", ascii "localhost", none, ascii "/menu", ascii "day=1"⟩ := by
  have slash : (ascii "/menu?day=1#top").head? = some (byte '/') := rfl
  have unmarked : ¬ schemeMark <:+: ascii "/menu?day=1#top" :=
    (cut_none _ _).mp rfl
  exact ⟨slash, (parse_bare _ slash).named.mpr ⟨unmarked, rfl⟩⟩

/-- A path that carries a URL in its query is sent to the host of that URL, and a question mark in
a fragment is taken for a query. -/
theorem bare_misread :
    parse (ascii "/go?to=http://example.com/x") =
        .ok ⟨ascii "/go?to=http", ascii "example.com", none, ascii "/x", []⟩ ∧
      bare (ascii "/go?to=http://example.com/x") =
        ⟨ascii "http", ascii "localhost", none, ascii "/go", ascii "to=http://example.com/x"⟩ ∧
      parse (ascii "/a#b?c") =
        .ok ⟨ascii "http", ascii "localhost", none, ascii "/a", ascii "c"⟩ ∧
      bare (ascii "/a#b?c") = ⟨ascii "http", ascii "localhost", none, ascii "/a", []⟩ :=
  ⟨rfl, rfl, rfl, rfl⟩

end EndpointPreview.Http.Url
