import EndpointPreview.Text.Bytes

/-!
UTF-8: a one-byte-at-a-time acceptor and the encoding of a code point. The
acceptor refuses overlong forms, surrogates and values above 0x10FFFF.
-/

namespace EndpointPreview.Utf8

inductive Expect where
  | boundary
  | tail1
  | tail2
  | tail3
  | afterE0
  | afterED
  | afterF0
  | afterF4
  deriving DecidableEq, Repr

def between (low high b : UInt8) (next : Expect) : Option Expect :=
  if low ≤ b ∧ b ≤ high then some next else none

def lead (b : UInt8) : Option Expect :=
  if b ≤ 0x7F then some .boundary
  else if b < 0xC2 then none
  else if b ≤ 0xDF then some .tail1
  else if b = 0xE0 then some .afterE0
  else if b = 0xED then some .afterED
  else if b ≤ 0xEF then some .tail2
  else if b = 0xF0 then some .afterF0
  else if b ≤ 0xF3 then some .tail3
  else if b = 0xF4 then some .afterF4
  else none

def step : Expect → UInt8 → Option Expect
  | .boundary, b => lead b
  | .tail1, b => between 0x80 0xBF b .boundary
  | .tail2, b => between 0x80 0xBF b .tail1
  | .tail3, b => between 0x80 0xBF b .tail2
  | .afterE0, b => between 0xA0 0xBF b .tail1
  | .afterED, b => between 0x80 0x9F b .tail1
  | .afterF0, b => between 0x90 0xBF b .tail2
  | .afterF4, b => between 0x80 0x8F b .tail2

def run : Expect → Bytes → Option Expect
  | state, [] => some state
  | state, b :: rest =>
      match step state b with
      | some next => run next rest
      | none => none

def isValid (text : Bytes) : Bool := run .boundary text = some .boundary

def encode (point : Nat) : Bytes :=
  if point < 0x80 then [UInt8.ofNat point]
  else if point < 0x800 then
    [UInt8.ofNat (0xC0 + point / 64), UInt8.ofNat (0x80 + point % 64)]
  else if point < 0x10000 then
    [UInt8.ofNat (0xE0 + point / 4096), UInt8.ofNat (0x80 + point / 64 % 64),
      UInt8.ofNat (0x80 + point % 64)]
  else
    [UInt8.ofNat (0xF0 + point / 262144), UInt8.ofNat (0x80 + point / 4096 % 64),
      UInt8.ofNat (0x80 + point / 64 % 64), UInt8.ofNat (0x80 + point % 64)]

/-! Running over two parts is running over the first, then over the second. -/

theorem run_append (state : Expect) (left right : Bytes) :
    run state (left ++ right) = (run state left).bind fun next => run next right := by
  induction left generalizing state with
  | nil => rfl
  | cons b rest ih =>
      simp only [List.cons_append, run]
      cases step state b with
      | none => rfl
      | some next => exact ih next

end EndpointPreview.Utf8
