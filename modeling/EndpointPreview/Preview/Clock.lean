import EndpointPreview.Text.Bytes

/-!
Points in time as milliseconds since the start of 1970, UTC, and their text
`YYYY-MM-DDTHH:MM:SS.mmmZ`.
-/

namespace EndpointPreview.Preview

open Text

abbrev Millis := Nat

structure Date where
  year : Nat
  month : Nat
  day : Nat
  deriving DecidableEq, Repr

-- The date that lies `days` days after 1970-01-01, counting years from March.
def Date.ofDays (days : Nat) : Date :=
  let shifted := days + 719468
  let era := shifted / 146097
  let dayOfEra := shifted % 146097
  let yearOfEra := (dayOfEra - dayOfEra / 1460 + dayOfEra / 36524 - dayOfEra / 146096) / 365
  let dayOfYear := dayOfEra - (365 * yearOfEra + yearOfEra / 4 - yearOfEra / 100)
  let marchMonth := (5 * dayOfYear + 2) / 153
  let month := if marchMonth < 10 then marchMonth + 3 else marchMonth - 9
  { year := yearOfEra + era * 400 + (if month ≤ 2 then 1 else 0)
    month
    day := dayOfYear - (153 * marchMonth + 2) / 5 + 1 }

def padded (width n : Nat) : Bytes :=
  let digits := decimal n
  List.replicate (width - digits.length) (byte '0') ++ digits

def timestamp (time : Millis) : Bytes :=
  let date := Date.ofDays (time / 86400000)
  let second := time / 1000 % 86400
  padded 4 date.year ++ ascii "-" ++ padded 2 date.month ++ ascii "-" ++ padded 2 date.day ++
  ascii "T" ++ padded 2 (second / 3600) ++ ascii ":" ++ padded 2 (second / 60 % 60) ++
  ascii ":" ++ padded 2 (second % 60) ++ ascii "." ++ padded 3 (time % 1000) ++ ascii "Z"

end EndpointPreview.Preview
