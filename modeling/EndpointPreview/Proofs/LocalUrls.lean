import Mathlib.Data.List.TakeWhile
import EndpointPreview.Http.Url
import EndpointPreview.Proofs.PlainText

/-!
URLs of ports on this machine. A host that names this machine, in any case, with a port and a
path, is read back as that port and that path; a number that is no port makes no URL. What follows
the path as a query does not change it.
-/

namespace EndpointPreview.Text

theorem toLower_other (b : UInt8) (other : isLower (toLower b) = false) : toLower b = b := by
  unfold toLower at other ⊢
  by_cases upper : isUpper b = true
  · rw [if_pos upper] at other
    simp only [isUpper, isLower, Bool.and_eq_true, Bool.and_eq_false_iff, decide_eq_true_eq,
      decide_eq_false_iff_not, UInt8.le_iff_toNat_le, UInt8.toNat_add, UInt8.reduceToNat]
      at upper other
    omega
  · rw [if_neg upper]

theorem lowercase_other (text known : Bytes) (same : lowercase text = known)
    (other : known.any isLower = false) : text = known := by
  subst same
  unfold lowercase at other ⊢
  refine (List.map_id text).symm.trans (List.map_congr_left fun b inside => ?_)
  have own := List.any_eq_false.mp other (toLower b) (List.mem_map_of_mem inside)
  exact (toLower_other b (Bool.eq_false_iff.mpr own)).symm

end EndpointPreview.Text

namespace EndpointPreview.Http.Url

open Text

theorem port_decimal (port : Nat) (low : 0 < port) (high : port ≤ 65535) :
    port? (decimal port) = .ok (some port) := by
  have digits : (decimal port).all isDigit = true :=
    List.all_eq_true.mpr (isDigit_of_mem_decimal port)
  have short : ¬ 5 < (decimal port).length := Nat.not_lt.mpr ((length_decimal port).mpr (by omega))
  have inside : ¬ (port = 0 ∨ 65535 < port) := by omega
  simp [port?, decimal_ne_nil, digits, short, decimal_value, inside]

theorem port_outside (port : Nat) (outside : ¬ (0 < port ∧ port ≤ 65535)) :
    ∃ fault, port? (decimal port) = .error fault := by
  have digits : (decimal port).all isDigit = true :=
    List.all_eq_true.mpr (isDigit_of_mem_decimal port)
  by_cases long : 5 < (decimal port).length
  · exact ⟨.badPort, by simp [port?, decimal_ne_nil, long]⟩
  · have wrong : port = 0 ∨ 65535 < port := by omega
    exact ⟨.portRange, by simp [port?, decimal_ne_nil, digits, long, decimal_value, wrong]⟩

def localNames : List Bytes := [ascii "localhost", ascii "127.0.0.1", ascii "[::1]"]

def onPort (host : Bytes) (port : Nat) (rest : Bytes) : Bytes :=
  ascii "http://" ++ (host ++ byte ':' :: decimal port ++ rest)

-- A byte that is its own lower case stands in a text as often as in its lower case.
theorem mem_lowercase (b : UInt8) (text : Bytes) (own : toLower b = b) (member : b ∈ text) :
    b ∈ lowercase text := by
  rw [← own]
  exact List.mem_map_of_mem member

theorem cutAtLast_decimal (host : Bytes) (port : Nat) :
    cutAtLast? (byte ':') (host ++ byte ':' :: decimal port) = some (host, decimal port) := by
  have digits : ∀ b ∈ (decimal port).reverse, (b != byte ':') = true := by
    intro b member
    have digit := isDigit_of_mem_decimal port b (List.mem_reverse.mp member)
    rw [bne_iff_ne]
    rintro rfl
    revert digit
    decide
  have turned : (host ++ byte ':' :: decimal port).reverse =
      (decimal port).reverse ++ byte ':' :: host.reverse := by simp
  unfold cutAtLast? cutAt?
  rw [turned, List.dropWhile_append_of_pos digits, List.takeWhile_append_of_pos digits]
  simp

theorem hostAndPort_plain (host : Bytes) (port : Nat) (unopened : byte '[' ∉ host) :
    hostAndPort (host ++ byte ':' :: decimal port) = .ok (host, decimal port) := by
  have unbracketed : ((host ++ byte ':' :: decimal port).head? == some (byte '[')) = false := by
    cases host with
    | nil => rfl
    | cons first rest =>
        have other : first ≠ byte '[' := fun same => unopened (same ▸ List.mem_cons_self)
        simpa using other
  unfold hostAndPort
  rw [unbracketed, cutAtLast_decimal]
  rfl

theorem hostAndPort_bracketed (port : Nat) :
    hostAndPort (ascii "[::1]" ++ byte ':' :: decimal port) = .ok (ascii "::1", decimal port) := rfl

/-- A name of this machine in any case, in front of a port. -/
theorem hostAndPort_local (host : Bytes) (port : Nat) (named : lowercase host ∈ localNames) :
    ∃ name, hostAndPort (host ++ byte ':' :: decimal port) = .ok (name, decimal port) ∧
      lowercase name ∈ [ascii "localhost", ascii "127.0.0.1", ascii "::1"] := by
  by_cases bracketed : lowercase host = ascii "[::1]"
  · have same := lowercase_other host _ bracketed (by decide)
    rw [same]
    exact ⟨_, hostAndPort_bracketed port, by decide⟩
  · have plain : lowercase host = ascii "localhost" ∨ lowercase host = ascii "127.0.0.1" := by
      simpa [localNames, bracketed] using named
    refine ⟨host, hostAndPort_plain host port ?_, ?_⟩
    · intro opened
      have member := mem_lowercase _ host rfl opened
      rcases plain with same | same <;> rw [same] at member <;> revert member <;> decide
    · rcases plain with same | same <;> simp [same]

theorem local_authority (host : Bytes) (port : Nat) (named : lowercase host ∈ localNames) :
    ∀ b ∈ host ++ byte ':' :: decimal port, (!endsAuthority b) = true := by
  intro b member
  have ends (own : toLower b = b) (inside : b ∈ host) :
      b ∈ localNames.flatten := List.mem_flatten_of_mem named (mem_lowercase b host own inside)
  unfold endsAuthority
  rw [Bool.not_eq_true', Bool.or_eq_false_iff, beq_eq_false_iff_ne, beq_eq_false_iff_ne]
  have apart (mark : UInt8) (own : toLower mark = mark) (colon : mark ≠ byte ':')
      (digit : isDigit mark = false) (unnamed : mark ∉ localNames.flatten) : b ≠ mark := by
    rintro rfl
    rcases List.mem_append.mp member with front | back
    · exact unnamed (ends own front)
    · rcases List.mem_cons.mp back with same | written
      · exact colon same
      · rw [isDigit_of_mem_decimal port b written] at digit
        cases digit
  exact ⟨apart _ rfl (by decide) (by decide) (by decide),
    apart _ rfl (by decide) (by decide) (by decide)⟩

theorem cut_scheme (rest : Bytes) :
    cut? schemeMark (ascii "http://" ++ rest) = some (ascii "http", rest) := rfl

theorem ofParts_split (front rest : Bytes) (inside : ∀ b ∈ front, (!endsAuthority b) = true)
    (stops : ∀ b, rest.head? = some b → endsAuthority b = true) :
    (front ++ rest).takeWhile (!endsAuthority ·) = front ∧
      (front ++ rest).dropWhile (!endsAuthority ·) = rest := by
  rw [List.takeWhile_append_of_pos inside, List.dropWhile_append_of_pos inside]
  cases rest with
  | nil => exact ⟨List.append_nil front, rfl⟩
  | cons b rest =>
      have ends : (!endsAuthority b) = false := by rw [stops b rfl, Bool.not_true]
      rw [List.takeWhile_cons_of_neg (by simp [ends]), List.dropWhile_cons_of_neg (by simp [ends])]
      exact ⟨List.append_nil front, rfl⟩

section Whole

variable (host : Bytes) (port : Nat) (rest : Bytes) (named : lowercase host ∈ localNames)
  (stops : ∀ b, rest.head? = some b → endsAuthority b = true)
include named stops

/-- The URL that is read, with the host that its authority names in lower case. -/
theorem parse_written (name : Bytes) (low : 0 < port) (high : port ≤ 65535)
    (written : hostAndPort (host ++ byte ':' :: decimal port) = .ok (name, decimal port)) :
    parse (onPort host port rest) = .ok ⟨ascii "http", lowercase name, some port,
      (pathAndQuery rest).1, (pathAndQuery rest).2⟩ := by
  obtain ⟨front, back⟩ :=
    ofParts_split (host ++ byte ':' :: decimal port) rest (local_authority host port named) stops
  unfold parse onPort
  rw [cut_scheme]
  dsimp only
  unfold ofParts authority
  rw [front, back, written]
  simp only [bind, Except.bind, port_decimal port low high]
  rfl

theorem parse_onPort (low : 0 < port) (high : port ≤ 65535) :
    ∃ url, parse (onPort host port rest) = .ok url ∧ url.isLoopback = true ∧
      url.port = some port ∧ url.path = (pathAndQuery rest).1 := by
  obtain ⟨name, written, own⟩ := hostAndPort_local host port named
  refine ⟨_, parse_written host port rest named stops name low high written, ?_, rfl, rfl⟩
  simp only [List.mem_cons, List.not_mem_nil, or_false] at own
  rcases own with same | same | same <;> simp [isLoopback, same]

theorem parse_outside (outside : ¬ (0 < port ∧ port ≤ 65535)) :
    ∃ error, parse (onPort host port rest) = .error error := by
  obtain ⟨name, written, _⟩ := hostAndPort_local host port named
  obtain ⟨fault, wrong⟩ := port_outside port outside
  obtain ⟨front, _⟩ :=
    ofParts_split (host ++ byte ':' :: decimal port) rest (local_authority host port named) stops
  refine ⟨⟨fault, onPort host port rest⟩, ?_⟩
  have cut := cut_scheme (host ++ byte ':' :: decimal port ++ rest)
  unfold parse
  rw [show cut? schemeMark (onPort host port rest) = _ from cut]
  dsimp only
  unfold ofParts authority
  rw [front, written]
  simp only [bind, Except.bind, wrong]
  rfl

end Whole

theorem beforeMark_all (mark : UInt8) (text : Bytes) (unmarked : mark ∉ text) :
    beforeMark mark text = text := by
  apply List.takeWhile_eq_self_iff.mpr
  intro b member
  rw [bne_iff_ne]
  rintro rfl
  exact unmarked member

/-- A route is the path of every URL in which a query may follow it. -/
theorem path_route (route query : Bytes) (slash : route.head? = some (byte '/'))
    (unasked : byte '?' ∉ route) (unmarked : byte '#' ∉ route)
    (asked : query = [] ∨ ∃ text, query = byte '?' :: text) :
    (pathAndQuery (route ++ query)).1 = route := by
  have whole : rooted (beforeMark (byte '#') route) = route := by
    rw [beforeMark_all _ route unmarked]
    simp [rooted, slash]
  have before : ∀ b ∈ route, (b != byte '?') = true := by
    intro b member
    rw [bne_iff_ne]
    rintro rfl
    exact unasked member
  unfold pathAndQuery cutAt?
  rw [List.dropWhile_append_of_pos before, List.takeWhile_append_of_pos before]
  rcases asked with rfl | ⟨text, rfl⟩
  · simpa using whole
  · simpa using whole

end EndpointPreview.Http.Url
