import EndpointPreview.Proofs.ServiceUrls
import EndpointPreview.Proofs.UrlPositions

/-!
The normal form of URLs. What is read from a text is in lower case up to its path, the path starts
with a slash and ends before any query or fragment, and a port is one. The text of such a URL is
read as the same URL, unless a bracket in its host is taken for one of those that are put around a
host with a colon.
-/

namespace EndpointPreview.Text

def IsCaseless (mark : Bytes) : Prop := ∀ m ∈ mark, ∀ b, toLower b = m ↔ b = m

theorem prefix_lowercase {mark : Bytes} (caseless : IsCaseless mark) (text : Bytes) :
    mark.isPrefixOf (lowercase text) = mark.isPrefixOf text := by
  induction mark generalizing text with
  | nil => rfl
  | cons m mark ih =>
      obtain ⟨own, others⟩ := List.forall_mem_cons.mp caseless
      cases text with
      | nil => rfl
      | cons b rest =>
          have same : (m == toLower b) = (m == b) := by
            apply Bool.eq_iff_iff.mpr
            rw [beq_iff_eq, beq_iff_eq, eq_comm, own b, eq_comm]
          have further := ih others rest
          rw [lowercase] at further ⊢
          rw [List.map_cons, List.isPrefixOf_cons_cons, List.isPrefixOf_cons_cons, same, further]

theorem indexFrom_lowercase {mark : Bytes} (caseless : IsCaseless mark) (start : Nat)
    (text : Bytes) : indexFrom mark start (lowercase text) = indexFrom mark start text := by
  induction text generalizing start with
  | nil => rfl
  | cons b rest ih =>
      have front := prefix_lowercase caseless (b :: rest)
      rw [lowercase, List.map_cons] at front
      rw [lowercase, List.map_cons, indexFrom, indexFrom, front, ← lowercase, ih]

theorem cut_lowercase {mark text before after : Bytes} (caseless : IsCaseless mark)
    (cut : cut? mark text = some (before, after)) :
    cut? mark (lowercase text) = some (lowercase before, lowercase after) := by
  obtain ⟨position, found, parts⟩ := Option.map_eq_some_iff.mp cut
  obtain ⟨rfl, rfl⟩ := Prod.mk.inj parts
  rw [cut?, indexOf?, indexFrom_lowercase caseless, ← indexOf?, found]
  simp [lowercase]

theorem toLower_toLower (b : UInt8) : toLower (toLower b) = toLower b := by
  grind only [toLower, isUpper]

theorem lowercase_lowercase (text : Bytes) : lowercase (lowercase text) = lowercase text := by
  rw [lowercase, lowercase, List.map_map]
  exact List.map_congr_left fun b _ => toLower_toLower b

end EndpointPreview.Text

namespace EndpointPreview.Http.Url

open Text

structure IsNormal (url : Url) : Prop where
  slash : url.path.head? = some (byte '/')
  path : byte '?' ∉ url.path ∧ byte '#' ∉ url.path
  query : byte '#' ∉ url.query
  port : ∀ port ∈ url.port, 0 < port ∧ port ≤ 65535

-- A scheme and a host as they are read: in lower case, the scheme up to the first mark of one and
-- the host within an authority.
structure IsPlaced (url : Url) : Prop where
  scheme : ∀ rest, cut? schemeMark (url.scheme ++ schemeMark ++ rest) = some (url.scheme, rest)
  lowered : lowercase url.scheme = url.scheme ∧ lowercase url.host = url.host
  host : ∀ b ∈ url.host, endsAuthority b = false

theorem toLower_eq {m : UInt8} (other : isLower m = false) (own : toLower m = m) (b : UInt8) :
    toLower b = m ↔ b = m := by
  constructor
  · rintro rfl
    exact (toLower_other b other).symm
  · rintro rfl
    exact own

theorem schemeMark_caseless : IsCaseless schemeMark := by
  have colon := toLower_eq (m := byte ':') rfl rfl
  have slash := toLower_eq (m := byte '/') rfl rfl
  exact List.forall_mem_cons.mpr ⟨colon, List.forall_mem_cons.mpr
    ⟨slash, List.forall_mem_singleton.mpr slash⟩⟩

theorem beforeMark_clear (mark : UInt8) (text : Bytes) : mark ∉ beforeMark mark text := by
  intro member
  simpa using List.mem_takeWhile_imp member

theorem rooted_head (path : Bytes) : (rooted path).head? = some (byte '/') := by
  by_cases slash : path.head? = some (byte '/')
  · rw [rooted_slash path slash, slash]
  · rw [rooted_other path slash]
    rfl

theorem rooted_clear (path : Bytes) (clear : ∀ b ∈ path, endsPath b = false) :
    ∀ b ∈ rooted path, endsPath b = false := by
  by_cases slash : path.head? = some (byte '/')
  · rwa [rooted_slash path slash]
  · rw [rooted_other path slash]
    exact List.forall_mem_cons.mpr ⟨rfl, clear⟩

theorem ownQuery_clear (text : Bytes) : byte '#' ∉ ownQuery text := by
  rw [ownQuery]
  split
  · exact List.not_mem_nil
  · split
    · exact beforeMark_clear _ _
    · exact List.not_mem_nil

theorem fragmentQuery_clear (text : Bytes) : byte '#' ∉ fragmentQuery text := by
  rw [fragmentQuery]
  split
  · exact List.not_mem_nil
  · split
    · exact List.not_mem_nil
    · exact beforeMark_clear _ _

/-- Path and query of any text are in normal form. -/
theorem pathAndQuery_normal (text path query : Bytes)
    (read : (path, query) = pathAndQuery text) :
    path.head? = some (byte '/') ∧ (byte '?' ∉ path ∧ byte '#' ∉ path) ∧ byte '#' ∉ query := by
  rw [pathAndQuery_eq] at read
  obtain ⟨rfl, rfl⟩ := Prod.mk.inj read
  have inside : ∀ b ∈ pathText text, endsPath b = false := fun b member => by
    simpa using List.mem_takeWhile_imp member
  refine ⟨rooted_head _, endsPath_not_mem (rooted_clear _ inside), ?_⟩
  rw [List.mem_append, not_or]
  exact ⟨ownQuery_clear text, fragmentQuery_clear text⟩

theorem port_normal (written : Bytes) (port : Nat) (read : port? written = .ok (some port)) :
    0 < port ∧ port ≤ 65535 := by
  rw [port?] at read
  split at read
  · cases read
  · split at read
    · cases read
    · dsimp only at read
      split at read
      · cases read
      · rename_i inside
        obtain rfl := Option.some.inj (Except.ok.inj read)
        omega

theorem cutAtLast_whole (mark : UInt8) (text before after : Bytes)
    (cut : cutAtLast? mark text = some (before, after)) : text = before ++ mark :: after := by
  obtain ⟨⟨behind, front⟩, turned, parts⟩ := Option.map_eq_some_iff.mp cut
  obtain ⟨rfl, rfl⟩ := Prod.mk.inj parts
  have whole := congrArg List.reverse (cutAt_whole _ _ _ _ turned)
  rwa [List.reverse_reverse, List.reverse_append, List.reverse_cons, List.append_assoc,
    List.singleton_append] at whole

def behindBracket (after : Bytes) : Bytes :=
  if after.head? == some (byte ':') then after.drop 1 else []

theorem hostAndPort_opened (host after : Bytes) (closed : byte ']' ∉ host) :
    hostAndPort (byte '[' :: host ++ byte ']' :: after) = .ok (host, behindBracket after) := by
  have apart : byte ']' ∉ byte '[' :: host := by
    rw [List.mem_cons, not_or]
    exact ⟨by decide, closed⟩
  have opens : ((byte '[' :: host ++ byte ']' :: after).head? == some (byte '[')) = true := rfl
  rw [hostAndPort, if_pos opens, cutAt_mark _ _ _ apart]
  rfl

/-- An authority is a host in brackets with what follows, a host alone, or a host and a port. -/
theorem hostAndPort_cases (authority host written : Bytes)
    (split : hostAndPort authority = .ok (host, written)) :
    (∃ after, authority = byte '[' :: host ++ byte ']' :: after ∧ byte ']' ∉ host ∧
        written = behindBracket after) ∨
      (authority = host ∧ written = []) ∨ authority = host ++ byte ':' :: written := by
  rw [hostAndPort] at split
  split at split
  · rename_i opens
    cases cut : cutAt? (byte ']') authority with
    | none =>
        rw [cut] at split
        cases split
    | some sides =>
        obtain ⟨opened, after⟩ := sides
        rw [cut] at split
        obtain ⟨rfl, rfl⟩ := Prod.mk.inj (Except.ok.inj split)
        have whole := cutAt_whole _ _ _ _ cut
        have closed := cutAt_before _ _ _ _ cut
        cases opened with
        | nil =>
            rw [whole] at opens
            cases opens
        | cons first host =>
            rw [whole] at opens
            obtain rfl : first = byte '[' := Option.some.inj (beq_iff_eq.mp opens)
            exact .inl ⟨after, whole, fun member => closed (List.mem_cons_of_mem _ member), rfl⟩
  · cases cut : cutAtLast? (byte ':') authority with
    | none =>
        rw [cut] at split
        obtain ⟨rfl, rfl⟩ := Prod.mk.inj (Except.ok.inj split)
        exact .inr (.inl ⟨rfl, rfl⟩)
    | some sides =>
        rw [cut] at split
        obtain rfl : sides = (host, written) := Except.ok.inj split
        exact .inr (.inr (cutAtLast_whole _ _ _ _ cut))

/-- The host of an authority is written in it. -/
theorem hostAndPort_inside (authority host written : Bytes)
    (split : hostAndPort authority = .ok (host, written)) : host ⊆ authority := by
  rcases hostAndPort_cases authority host written split with
    ⟨after, rfl, -⟩ | ⟨rfl, -⟩ | rfl
  · exact List.subset_append_of_subset_left _ (List.subset_cons_self _ _)
  · exact List.Subset.refl _
  · exact List.subset_append_left _ _

/-- An authority is read as a host and the port that is written behind it. -/
theorem authority_ok (text host : Bytes) (port : Option Nat) :
    authority text = .ok (host, port) ↔
      ∃ own written, hostAndPort text = .ok (own, written) ∧ port? written = .ok port ∧
        lowercase own = host := by
  rw [authority]
  cases split : hostAndPort text with
  | error fault => exact ⟨(by rintro ⟨⟩), (by rintro ⟨_, _, ⟨⟩, _⟩)⟩
  | ok place =>
      obtain ⟨own, written⟩ := place
      constructor
      · intro read
        cases number : port? written with
        | error fault =>
            simp only [bind, Except.bind, number] at read
            cases read
        | ok number =>
            simp only [bind, Except.bind, number] at read
            obtain ⟨rfl, rfl⟩ := Prod.mk.inj (Except.ok.inj read)
            exact ⟨own, written, rfl, number, rfl⟩
      · rintro ⟨_, _, ⟨⟩, number, rfl⟩
        simp only [bind, Except.bind, number]
        rfl

theorem endsAuthority_toLower (b : UInt8) : endsAuthority (toLower b) = endsAuthority b := by
  have slash := toLower_eq (m := byte '/') rfl rfl b
  have question := toLower_eq (m := byte '?') rfl rfl b
  apply Bool.eq_iff_iff.mpr
  simp only [endsAuthority, Bool.or_eq_true, beq_iff_eq]
  rw [slash, question]

theorem parse_normal (text : Bytes) (url : Url) (read : parse text = .ok url) :
    url.IsNormal ∧ url.IsPlaced := by
  cases cut : cut? schemeMark text with
  | none =>
      rw [parse, cut] at read
      obtain rfl := Except.ok.inj read
      obtain ⟨slash, path, query⟩ := pathAndQuery_normal text _ _ rfl
      have within : localHost.all (!endsAuthority ·) = true := rfl
      have host : ∀ b ∈ localHost, endsAuthority b = false := fun b member => by
        simpa using List.all_eq_true.mp within b member
      have port : ∀ port ∈ (none : Option Nat), 0 < port ∧ port ≤ 65535 := fun port member =>
        absurd member (Option.not_mem_none port)
      exact ⟨⟨slash, path, query, port⟩, fun _ => rfl, ⟨rfl, rfl⟩, host⟩
  | some sides =>
      obtain ⟨scheme, rest⟩ := sides
      obtain ⟨place, schemed, located⟩ := (parse_schemed cut url).mp read
      obtain ⟨slash, path, query⟩ := pathAndQuery_normal _ _ _ located
      obtain ⟨own, written, split, number, lowered⟩ := (authority_ok _ _ _).mp place
      have port : ∀ port ∈ url.port, 0 < port ∧ port ≤ 65535 := fun port member =>
        port_normal written port (number.trans (congrArg _ member))
      refine ⟨⟨slash, path, query, port⟩, ?_, ⟨?_, ?_⟩, fun b member => ?_⟩
      · have again := cut_lowercase schemeMark_caseless cut
        rw [schemed]
        exact (cut_some schemeMark_ne_nil again).2
      · rw [schemed, lowercase_lowercase]
      · rw [← lowered, lowercase_lowercase]
      · rw [← lowered] at member
        obtain ⟨c, inside, rfl⟩ := List.mem_map.mp member
        have within := List.mem_takeWhile_imp (hostAndPort_inside _ _ _ split inside)
        rw [endsAuthority_toLower]
        simpa using within

section Written

variable (url : Url)

def writtenPort : Bytes :=
  match url.port with
  | some port => decimal port
  | none => []

theorem hostAndPort_text (unbracketed : byte '[' ∉ url.host ∧ byte ']' ∉ url.host) :
    hostAndPort (url.hostText ++ url.portText) = .ok (url.host, url.writtenPort) := by
  rw [hostText]
  split
  · have whole : byte '[' :: url.host ++ [byte ']'] ++ url.portText =
        byte '[' :: url.host ++ byte ']' :: url.portText := by simp
    rw [whole, hostAndPort_opened _ _ unbracketed.2, portText, writtenPort]
    cases url.port with
    | none => rfl
    | some port => rfl
  · rename_i plain
    rw [portText, writtenPort]
    cases url.port with
    | some port => exact hostAndPort_plain url.host port unbracketed.1
    | none =>
        have opens : ¬ (url.host.head? == some (byte '[')) = true := fun head =>
          unbracketed.1 (List.mem_of_mem_head? (beq_iff_eq.mp head))
        have single : byte ':' ∉ url.host.reverse := by
          rw [List.mem_reverse]
          exact fun member => plain (List.contains_iff_mem.mpr member)
        dsimp only
        rw [List.append_nil, hostAndPort, if_neg opens, cutAtLast?, cutAt_none _ _ single]
        rfl

theorem authority_text (normal : url.IsNormal) (placed : url.IsPlaced)
    (unbracketed : byte '[' ∉ url.host ∧ byte ']' ∉ url.host) :
    authority (url.hostText ++ url.portText) = .ok (url.host, url.port) := by
  refine (authority_ok _ _ _).mpr ⟨_, _, hostAndPort_text url unbracketed, ?_, placed.lowered.2⟩
  rw [writtenPort]
  cases written : url.port with
  | none => rfl
  | some port =>
      obtain ⟨low, high⟩ := normal.port port written
      exact port_decimal port low high

theorem authority_inside (placed : url.IsPlaced) :
    ∀ b ∈ url.hostText ++ url.portText, (!endsAuthority b) = true := by
  have digits (port : Nat) : ∀ b ∈ decimal port, endsAuthority b = false := fun b member =>
    digit_outside endsAuthority rfl (AllDigits.decimal port b member)
  have host : ∀ b ∈ url.hostText, endsAuthority b = false := by
    rw [hostText]
    split
    · exact List.forall_mem_cons.mpr ⟨rfl, List.forall_mem_append.mpr
        ⟨placed.host, List.forall_mem_singleton.mpr rfl⟩⟩
    · exact placed.host
  have port : ∀ b ∈ url.portText, endsAuthority b = false := by
    rw [portText]
    split
    · exact List.forall_mem_cons.mpr ⟨rfl, digits _⟩
    · exact List.forall_mem_nil _
  intro b member
  rw [List.forall_mem_append.mpr ⟨host, port⟩ b member]
  rfl

theorem target_head (normal : url.IsNormal) : url.target.head? = some (byte '/') := by
  rw [target]
  split
  · exact normal.slash
  · rw [List.head?_append, normal.slash]
    rfl

theorem pathAndQuery_target (normal : url.IsNormal) :
    pathAndQuery url.target = (url.path, url.query) := by
  have path : rooted (beforeMark (byte '#') url.path) = url.path := by
    rw [beforeMark_all _ _ normal.path.2, rooted_slash _ normal.slash]
  rw [target]
  split
  · rename_i empty
    rw [pathAndQuery, cutAt_none _ _ normal.path.1]
    dsimp only
    rw [path, List.isEmpty_iff.mp empty]
  · rw [pathAndQuery, cutAt_mark _ _ _ normal.path.1]
    dsimp only
    rw [path, beforeMark_all _ _ normal.query]

/-- The text of a URL in normal form is read as that URL. -/
theorem parse_text (normal : url.IsNormal) (placed : url.IsPlaced)
    (unbracketed : byte '[' ∉ url.host ∧ byte ']' ∉ url.host) : parse url.text = .ok url := by
  have stops : ∀ b, url.target.head? = some b → endsAuthority b = true := by
    intro b head
    rw [target_head url normal] at head
    rw [← Option.some.inj head]
    rfl
  obtain ⟨front, back⟩ :=
    ofParts_split (url.hostText ++ url.portText) url.target (authority_inside url placed) stops
  have whole : url.text = url.scheme ++ schemeMark ++ (url.hostText ++ url.portText ++ url.target) := by
    simp [text]
  rw [whole]
  refine (parse_schemed (placed.scheme _) url).mpr ⟨?_, placed.lowered.1.symm, ?_⟩
  · rw [front, authority_text url normal placed unbracketed]
  · rw [back, pathAndQuery_target url normal]

end Written

structure Reading (text : Bytes) : Prop where
  total : ByPosition.Url.parse text = .ok (parse text)
  -- A text is refused for its authority, and the error tells the text.
  refused : ∀ error, parse text = .error error → error.url = text ∧
    ∃ scheme rest, cut? schemeMark text = some (scheme, rest) ∧
      authority (rest.takeWhile (!endsAuthority ·)) = .error error.fault
  normal : ∀ url, parse text = .ok url → url.IsNormal
  stable : ∀ url, parse text = .ok url → byte '[' ∉ url.host ∧ byte ']' ∉ url.host →
    parse url.text = .ok url

/-- What is read from a text is in normal form, and its own text is read as the same. -/
theorem parse_stable (text : Bytes) : Reading text where
  total := ByPosition.Url.parse_eq text
  refused error wrong := by
    cases cut : cut? schemeMark text with
    | none =>
        rw [parse, cut] at wrong
        cases wrong
    | some sides =>
        obtain ⟨scheme, rest⟩ := sides
        obtain ⟨place, own⟩ := (parse_refused cut error).mp wrong
        exact ⟨own, scheme, rest, rfl, place⟩
  normal url read := (parse_normal text url read).1
  stable url read unbracketed := by
    obtain ⟨normal, placed⟩ := parse_normal text url read
    exact parse_text url normal placed unbracketed

example : (parse (ascii "HTTP://A:b:080?q#f")).map text = .ok (ascii "http://[a:b]:80/?q") := rfl

end EndpointPreview.Http.Url
