import EndpointPreview.Proofs.UrlNormalForm

/-!
Fragments of URLs. What stands behind the first hash of a text should not matter, and it does not
when the hash stands behind the authority and no question mark opens a query in the fragment. In
the scheme or in the authority the hash is read as a byte of the name there. The one fragment in an
authority that does not matter is behind the bracket of a host, where all but a port is skipped.
-/

namespace EndpointPreview.Http.Url

open Text

def withoutFragment (text : Bytes) : Bytes := beforeMark (byte '#') text

theorem beforeMark_clear_front (mark : UInt8) (front rest : Bytes) (clear : mark ∉ front) :
    beforeMark mark (front ++ rest) = front ++ beforeMark mark rest :=
  List.takeWhile_append_of_pos fun b member => by
    simpa using fun same : b = mark => clear (same ▸ member)

theorem beforeMark_front (mark : UInt8) (front rest : Bytes) (member : mark ∈ front) :
    beforeMark mark (front ++ rest) = beforeMark mark front := by
  obtain ⟨before, after, rfl, clear⟩ := List.eq_append_cons_of_mem member
  rw [List.append_assoc, List.cons_append, beforeMark_append mark before _ clear,
    beforeMark_append mark before _ clear]

/-- Without its fragment a text has the same path, and its own query. -/
theorem pathAndQuery_withoutFragment (text : Bytes) :
    pathAndQuery (withoutFragment text) = (rooted (pathText text), ownQuery text) := by
  obtain ⟨front, rest, whole, inside, stops, path, from_mark⟩ := path_split text
  obtain ⟨unasked, unhashed⟩ := endsPath_not_mem inside
  rw [path, ownQuery, from_mark, whole, withoutFragment]
  cases rest with
  | nil =>
      rw [List.append_nil, beforeMark_all _ front unhashed, pathAndQuery_plain front inside]
  | cons mark rest =>
      rcases (endsPath_iff mark).mp (stops mark rfl) with rfl | rfl
      · have kept : beforeMark (byte '#') (byte '?' :: rest) =
            byte '?' :: beforeMark (byte '#') rest := rfl
        rw [beforeMark_clear_front _ front _ unhashed, kept, pathAndQuery,
          cutAt_mark _ front _ unasked]
        dsimp only
        rw [beforeMark_all _ front unhashed, beforeMark_all _ _ (beforeMark_clear _ rest),
          if_pos rfl]
      · rw [beforeMark_append _ front rest unhashed, pathAndQuery_plain front inside]
        rfl

def SkipsFragment (place : Bytes) : Prop :=
  ∃ host junk fragment, place = byte '[' :: host ++ byte ']' :: (junk ++ byte '#' :: fragment) ∧
    byte ']' ∉ host ∧ byte '#' ∉ host ∧ byte '#' ∉ junk ∧ junk.head? ≠ some (byte ':')

theorem SkipsFragment.hashed {place : Bytes} (skips : SkipsFragment place) : byte '#' ∈ place := by
  obtain ⟨host, junk, fragment, rfl, -⟩ := skips
  exact List.mem_append_right _ (List.mem_cons_of_mem _ (List.mem_append_right _ List.mem_cons_self))

theorem mem_beside {b mark : UInt8} (apart : b ≠ mark) (front rest : Bytes) :
    b ∈ front ++ mark :: rest ↔ b ∈ front ∨ b ∈ rest := by
  rw [List.mem_append, List.mem_cons, or_iff_right apart]

theorem port_unhashed (written : Bytes) (port : Option Nat) (read : port? written = .ok port) :
    byte '#' ∉ written := by
  intro hashed
  rw [port?, if_neg (List.ne_nil_of_mem hashed)] at read
  split at read
  · cases read
  · rename_i digits
    have every : written.all isDigit = true := by
      cases all : written.all isDigit with
      | true => rfl
      | false => exact absurd (by simp [all]) digits
    exact absurd (List.all_eq_true.mp every _ hashed) (by decide)

theorem lowercase_hashed (text : Bytes) : byte '#' ∈ lowercase text ↔ byte '#' ∈ text := by
  constructor
  · intro member
    obtain ⟨b, inside, lowered⟩ := List.mem_map.mp member
    rwa [← (toLower_eq rfl rfl b).mp lowered]
  · exact mem_lowercase _ _ rfl

/-- Without a colon in front, what follows a bracket is no port. -/
theorem behindBracket_none (after : Bytes) (uncoloned : after.head? ≠ some (byte ':')) :
    behindBracket after = [] := if_neg fun colon => uncoloned (beq_iff_eq.mp colon)

theorem behindBracket_hashed (junk fragment : Bytes)
    (unhashed : byte '#' ∉ behindBracket (junk ++ byte '#' :: fragment)) :
    junk.head? ≠ some (byte ':') := by
  intro colon
  obtain ⟨port, rfl⟩ := List.head?_eq_some_iff.mp colon
  exact unhashed (List.mem_append_right port (List.mem_cons_self))

/-- A fragment in an authority that does not matter stands behind a bracket. -/
theorem skipsFragment_of_same (place host : Bytes) (port : Option Nat)
    (hashed : byte '#' ∈ place) (whole : authority place = .ok (host, port))
    (front : authority (withoutFragment place) = .ok (host, port)) : SkipsFragment place := by
  obtain ⟨own, written, split, number, lowered⟩ := (authority_ok _ _ _).mp whole
  obtain ⟨other, _, split_front, _, rfl⟩ := (authority_ok _ _ _).mp front
  have outside : byte '#' ∉ own := fun member => by
    rw [← lowercase_hashed, lowered, lowercase_hashed] at member
    exact beforeMark_clear _ place (hostAndPort_inside _ _ _ split_front member)
  have unported := port_unhashed written port number
  rcases hostAndPort_cases place own written split with
    ⟨after, rfl, closed, rfl⟩ | ⟨rfl, -⟩ | rfl
  · have opened : byte '#' ∉ byte '[' :: own :=
      List.not_mem_cons_of_ne_of_not_mem (by decide) outside
    have behind := ((mem_beside (by decide) _ after).mp hashed).resolve_left opened
    obtain ⟨junk, fragment, rfl, clear⟩ := List.eq_append_cons_of_mem behind
    exact ⟨own, junk, fragment, rfl, closed, outside, clear,
      behindBracket_hashed junk fragment unported⟩
  · exact absurd hashed outside
  · have behind := ((mem_beside (by decide) own written).mp hashed).resolve_left outside
    exact absurd behind unported

theorem authority_bracketed (host after : Bytes) (closed : byte ']' ∉ host)
    (uncoloned : after.head? ≠ some (byte ':')) :
    authority (byte '[' :: host ++ byte ']' :: after) = .ok (lowercase host, none) := by
  refine (authority_ok _ _ _).mpr ⟨host, [], ?_, rfl, rfl⟩
  rw [hostAndPort_opened host after closed, behindBracket_none after uncoloned]

theorem same_of_skipsFragment (place : Bytes) (skips : SkipsFragment place) :
    ∃ host, authority place = .ok (host, none) ∧
      authority (withoutFragment place) = .ok (host, none) := by
  obtain ⟨host, junk, fragment, rfl, closed, unhashed, clear, uncoloned⟩ := skips
  have behind : (junk ++ byte '#' :: fragment).head? ≠ some (byte ':') := by
    cases junk with
    | nil => exact fun colon => absurd (Option.some.inj colon) (by decide)
    | cons b junk => exact uncoloned
  have before : byte '#' ∉ byte '[' :: host ++ byte ']' :: junk := by
    rw [mem_beside (by decide), not_or]
    exact ⟨List.not_mem_cons_of_ne_of_not_mem (by decide) unhashed, clear⟩
  have front : withoutFragment (byte '[' :: host ++ byte ']' :: (junk ++ byte '#' :: fragment)) =
      byte '[' :: host ++ byte ']' :: junk := by
    rw [← List.cons_append, ← List.append_assoc]
    exact beforeMark_append _ _ fragment before
  refine ⟨lowercase host, authority_bracketed host _ closed behind, ?_⟩
  rw [front, authority_bracketed host junk closed uncoloned]

def SameReading (text other : Bytes) : Prop := (parse text).toOption = (parse other).toOption

instance (text other : Bytes) : Decidable (SameReading text other) :=
  inferInstanceAs (Decidable ((parse text).toOption = (parse other).toOption))

-- The fragment of a text with this authority and this target does not matter.
inductive FragmentIdle (place target : Bytes) : Prop
  | refused (whole front : UrlFault) (wrong : authority place = .error whole)
      (still : authority (withoutFragment place) = .error front)
  | behind (outside : byte '#' ∉ place) (unasked : fragmentQuery target = [])
  | bracketed (skips : SkipsFragment place) (root : pathAndQuery target = (ascii "/", []))

section Read

variable {text other scheme place target rest next : Bytes}

def SamePlace (place target other next : Bytes) : Prop :=
  ((∃ fault, authority place = .error fault) ∧ ∃ fault, authority other = .error fault) ∨
    ∃ located, authority place = .ok located ∧ authority other = .ok located ∧
      pathAndQuery target = pathAndQuery next

theorem parse_refuses (cut : cut? schemeMark text = some (scheme, rest)) {fault : UrlFault}
    (wrong : authority (rest.takeWhile (!endsAuthority ·)) = .error fault) :
    (parse text).toOption = none := by
  rw [(parse_refused cut ⟨fault, text⟩).mpr ⟨wrong, rfl⟩]
  rfl

theorem parse_locates (cut : cut? schemeMark text = some (scheme, rest))
    {located : Bytes × Option Nat}
    (read : authority (rest.takeWhile (!endsAuthority ·)) = .ok located) :
    (parse text).toOption = some ⟨lowercase scheme, located.1, located.2,
      (pathAndQuery (rest.dropWhile (!endsAuthority ·))).1,
      (pathAndQuery (rest.dropWhile (!endsAuthority ·))).2⟩ :=
  congrArg Except.toOption ((parse_schemed cut ⟨_, _, _, _, _⟩).mpr ⟨read, rfl, rfl⟩)

theorem sameReading_iff (cut : cut? schemeMark text = some (scheme, rest))
    (cut_other : cut? schemeMark other = some (scheme, next)) :
    SameReading text other ↔
      SamePlace (rest.takeWhile (!endsAuthority ·)) (rest.dropWhile (!endsAuthority ·))
        (next.takeWhile (!endsAuthority ·)) (next.dropWhile (!endsAuthority ·)) := by
  rw [SameReading, SamePlace]
  cases first : authority (rest.takeWhile (!endsAuthority ·)) with
  | error fault =>
      rw [parse_refuses cut first]
      cases second : authority (next.takeWhile (!endsAuthority ·)) with
      | error wrong =>
          rw [parse_refuses cut_other second]
          exact iff_of_true rfl (.inl ⟨⟨fault, rfl⟩, wrong, rfl⟩)
      | ok located =>
          rw [parse_locates cut_other second]
          exact iff_of_false nofun (by rintro (⟨-, _, ⟨⟩⟩ | ⟨_, ⟨⟩, -⟩))
  | ok located =>
      rw [parse_locates cut first]
      cases second : authority (next.takeWhile (!endsAuthority ·)) with
      | error wrong =>
          rw [parse_refuses cut_other second]
          exact iff_of_false nofun (by rintro (⟨⟨_, ⟨⟩⟩, -⟩ | ⟨_, -, ⟨⟩, -⟩))
      | ok further =>
          rw [parse_locates cut_other second]
          constructor
          · intro same
            obtain ⟨-, host, port, path, query⟩ := Url.mk.inj (Option.some.inj same)
            obtain rfl : located = further := Prod.ext host port
            exact .inr ⟨located, rfl, rfl, Prod.ext path query⟩
          · rintro (⟨⟨_, ⟨⟩⟩, -⟩ | ⟨_, ⟨⟩, ⟨⟩, same⟩)
            rw [same]

end Read

/-- A fragment that starts in the scheme takes the mark of the scheme with it, and what is left
names a path on this machine. -/
theorem fragment_in_scheme {text scheme rest : Bytes}
    (cut : cut? schemeMark text = some (scheme, rest)) (hashed : byte '#' ∈ scheme) :
    ¬ SameReading text (withoutFragment text) := by
  intro same
  have whole := (cut_some schemeMark_ne_nil cut).1
  have front : withoutFragment text = withoutFragment scheme := by
    rw [whole, List.append_assoc]
    exact beforeMark_front _ scheme _ hashed
  have unmarked : ¬ schemeMark <:+: withoutFragment scheme := fun marked =>
    cut_front schemeMark_ne_nil cut (marked.trans (List.takeWhile_prefix _).isInfix)
  have local_reading : parse (withoutFragment scheme) = .ok (ofPath (withoutFragment scheme)) := by
    rw [parse, (cut_none _ _).mpr unmarked]
  rw [SameReading, front, local_reading] at same
  cases read : parse text with
  | error wrong =>
      rw [read] at same
      cases same
  | ok url =>
      rw [read] at same
      obtain rfl : url = ofPath (withoutFragment scheme) := Option.some.inj same
      have schemed : localScheme = lowercase scheme := ((parse_schemed cut _).mp read).2.1
      have member := (lowercase_hashed scheme).mpr hashed
      rw [← schemed] at member
      exact absurd member (by decide)

theorem target_withoutFragment (target : Bytes)
    (stops : ∀ b, target.head? = some b → endsAuthority b = true) :
    ∀ b, (withoutFragment target).head? = some b → endsAuthority b = true := by
  intro b head
  cases target with
  | nil => cases head
  | cons first target =>
      have ends := stops first rfl
      have apart : byte '#' ∉ [first] := fun member => by
        rw [← List.mem_singleton.mp member] at ends
        cases ends
      have kept := beforeMark_clear_front _ [first] target apart
      rw [List.singleton_append, List.singleton_append] at kept
      rw [withoutFragment, kept] at head
      rwa [← Option.some.inj head]

theorem fragmentQuery_idle (target : Bytes) :
    pathAndQuery target = pathAndQuery (withoutFragment target) ↔ fragmentQuery target = [] := by
  rw [pathAndQuery_eq, pathAndQuery_withoutFragment, Prod.mk.injEq, List.append_right_eq_self]
  exact and_iff_right rfl

theorem target_stops (rest : Bytes) :
    ∀ b, (rest.dropWhile (!endsAuthority ·)).head? = some b → endsAuthority b = true := by
  intro b head
  have stops := List.head?_dropWhile_not (!endsAuthority ·) rest
  rw [head] at stops
  simpa using stops

/-- A fragment that starts behind the scheme. -/
theorem fragment_behind_scheme (place target : Bytes)
    (inside : ∀ b ∈ place, (!endsAuthority b) = true)
    (stops : ∀ b, target.head? = some b → endsAuthority b = true) :
    SamePlace place target
        ((withoutFragment (place ++ target)).takeWhile (!endsAuthority ·))
        ((withoutFragment (place ++ target)).dropWhile (!endsAuthority ·)) ↔
      FragmentIdle place target := by
  by_cases hashed : byte '#' ∈ place
  · have within : ∀ b ∈ withoutFragment place, (!endsAuthority b) = true := fun b member =>
      inside b ((List.takeWhile_prefix _).subset member)
    obtain ⟨front, back⟩ := ofParts_split (withoutFragment place) [] within nofun
    rw [List.append_nil] at front back
    rw [withoutFragment, beforeMark_front _ place target hashed, ← withoutFragment, front, back]
    constructor
    · rintro (⟨⟨whole, wrong⟩, front, still⟩ | ⟨⟨host, port⟩, whole, front, same⟩)
      · exact .refused whole front wrong still
      · exact .bracketed (skipsFragment_of_same place host port hashed whole front) same
    · intro idle
      cases idle with
      | refused whole front wrong still => exact .inl ⟨⟨whole, wrong⟩, front, still⟩
      | behind outside unasked => exact absurd hashed outside
      | bracketed skips root =>
          obtain ⟨host, whole, front⟩ := same_of_skipsFragment place skips
          exact .inr ⟨_, whole, front, root⟩
  · obtain ⟨front, back⟩ :=
      ofParts_split place (withoutFragment target) inside (target_withoutFragment target stops)
    rw [withoutFragment, beforeMark_clear_front _ place target hashed, ← withoutFragment, front,
      back]
    constructor
    · rintro (⟨⟨whole, wrong⟩, -⟩ | ⟨located, -, -, same⟩)
      · refine .refused whole whole wrong ?_
        rwa [withoutFragment, beforeMark_all _ place hashed]
      · exact .behind hashed ((fragmentQuery_idle target).mp same)
    · intro idle
      cases idle with
      | refused whole front wrong still => exact .inl ⟨⟨whole, wrong⟩, whole, wrong⟩
      | behind outside unasked =>
          have same := (fragmentQuery_idle target).mpr unasked
          cases read : authority place with
          | error fault => exact .inl ⟨⟨fault, read⟩, fault, read⟩
          | ok located => exact .inr ⟨located, read, read, same⟩
      | bracketed skips root => exact absurd skips.hashed hashed

/-- A fragment behind a scheme does not matter exactly when it stands behind the authority and asks
nothing, behind a bracket, or in an authority that is refused anyway. -/
theorem parse_fragment (text : Bytes) (schemed : schemeMark <:+: text) :
    ∃ scheme rest, cut? schemeMark text = some (scheme, rest) ∧
      (SameReading text (withoutFragment text) ↔ byte '#' ∉ scheme ∧
        FragmentIdle (rest.takeWhile (!endsAuthority ·)) (rest.dropWhile (!endsAuthority ·))) := by
  cases cut : cut? schemeMark text with
  | none => exact absurd schemed ((cut_none _ _).mp cut)
  | some sides =>
      obtain ⟨scheme, rest⟩ := sides
      refine ⟨scheme, rest, rfl, ?_⟩
      by_cases hashed : byte '#' ∈ scheme
      · exact iff_of_false (fragment_in_scheme cut hashed) fun idle => idle.1 hashed
      · obtain ⟨whole, others⟩ := cut_some schemeMark_ne_nil cut
        have clear : byte '#' ∉ scheme ++ schemeMark := by
          rw [List.mem_append, not_or]
          exact ⟨hashed, by decide⟩
        have front : withoutFragment text = scheme ++ schemeMark ++ withoutFragment rest := by
          rw [whole]
          exact beforeMark_clear_front _ _ rest clear
        have cut_front := others (withoutFragment rest)
        rw [← front] at cut_front
        have place := fragment_behind_scheme (rest.takeWhile (!endsAuthority ·))
          (rest.dropWhile (!endsAuthority ·)) (fun _ => List.mem_takeWhile_imp) (target_stops rest)
        rw [List.takeWhile_append_dropWhile] at place
        rw [sameReading_iff cut cut_front, place, and_iff_right hashed]

/-- A fragment behind a query is dropped. -/
theorem parse_fragment_idle :
    schemeMark <:+: ascii "HTTP://LocalHost:5000/api/status?verbose=1#top" ∧
      SameReading (ascii "HTTP://LocalHost:5000/api/status?verbose=1#top")
        (ascii "HTTP://LocalHost:5000/api/status?verbose=1") := by
  have schemed : schemeMark <:+: ascii "HTTP://LocalHost:5000/api/status?verbose=1#top" :=
    (contains_iff _ _).mp rfl
  obtain ⟨scheme, rest, cut, same⟩ := parse_fragment _ schemed
  obtain ⟨rfl, rfl⟩ : ascii "HTTP" = scheme ∧
      ascii "LocalHost:5000/api/status?verbose=1#top" = rest :=
    Prod.mk.inj (Option.some.inj (Eq.trans rfl cut))
  exact ⟨schemed, same.mpr ⟨by decide, .behind (by decide) rfl⟩⟩

/-- A fragment behind a host is read as its end, one behind a port makes the URL invalid, and a
question mark in a fragment opens a query. -/
theorem fragment_read :
    (parse (ascii "http://localhost#top") =
        .ok ⟨ascii "http", ascii "localhost#top", none, ascii "/", []⟩ ∧
      ¬ SameReading (ascii "http://localhost#top")
        (withoutFragment (ascii "http://localhost#top"))) ∧
    (parse (ascii "http://localhost:80#top") =
        .error ⟨.badPort, ascii "http://localhost:80#top"⟩ ∧
      ¬ SameReading (ascii "http://localhost:80#top")
        (withoutFragment (ascii "http://localhost:80#top"))) ∧
    parse (ascii "http://h/a#b?c") = .ok ⟨ascii "http", ascii "h", none, ascii "/a", ascii "c"⟩ ∧
      ¬ SameReading (ascii "http://h/a#b?c") (withoutFragment (ascii "http://h/a#b?c")) :=
  ⟨⟨rfl, by decide⟩, ⟨rfl, by decide⟩, rfl, by decide⟩

end EndpointPreview.Http.Url
