import StreamQuery.Time.Calendar
import StreamQuery.Time.Duration

/-!
# Points in time

A timestamp is an instant together with the offset from UTC in which it is
shown. Only the instant counts for identity and order. The local date is one of
the years -9999 to 9999; the date in UTC may lie outside by as much as the offset.
A timestamp has a written form only where RFC 3339 has one: a local year of four
digits and an offset of whole minutes below a day.
-/

namespace StreamQuery

/-- The first and the last second of the years -9999 to 9999. -/
def firstSecond : Int := -377705116800
def lastSecond : Int := 253402300799

/-- Whether an instant lies within the years -9999 to 9999 of its calendar. -/
def WithinCalendar (nanos : Int) : Prop :=
  firstSecond * nanosPerSecond ≤ nanos ∧ nanos < (lastSecond + 1) * nanosPerSecond

instance (nanos : Int) : Decidable (WithinCalendar nanos) := by
  unfold WithinCalendar
  infer_instance

structure Timestamp where
  /-- Nanoseconds since 1970-01-01T00:00:00Z. -/
  nanos : Int
  /-- Seconds by which local clocks are ahead of UTC. -/
  offset : Int
  offset_range : -93599 ≤ offset ∧ offset ≤ 93599
  local_range : WithinCalendar (nanos + offset * nanosPerSecond)

namespace Timestamp

def ofNanos? (nanos offset : Int) : Option Timestamp :=
  if h : (-93599 ≤ offset ∧ offset ≤ 93599) ∧ WithinCalendar nanos ∧
      WithinCalendar (nanos + offset * nanosPerSecond) then
    some ⟨nanos, offset, h.1, h.2.2⟩
  else none

def localNanos (t : Timestamp) : Int := t.nanos + t.offset * nanosPerSecond

def fraction (nanos : Nat) : String :=
  if nanos = 0 then ""
  else
    let digits := (zeroPadded 9 nanos).toList
    "." ++ String.ofList (digits.reverse.dropWhile (· = '0')).reverse

def offsetText (offset : Int) : Option String :=
  let seconds := offset.natAbs
  if offset = 0 then some "Z"
  else if 86400 ≤ seconds ∨ seconds % 60 ≠ 0 then none
  else
    let sign := if offset < 0 then "-" else "+"
    some (sign ++ zeroPadded 2 (seconds / 3600) ++ ":" ++ zeroPadded 2 (seconds / 60 % 60))

def render (t : Timestamp) : Option String := do
  let localSeconds := t.localNanos / nanosPerSecond
  let date := CivilDate.ofDay (localSeconds / 86400)
  let clock := (localSeconds % 86400).toNat
  if date.year < 0 ∨ 9999 < date.year then none
  else
    let offset ← offsetText t.offset
    return zeroPadded 4 date.year.toNat ++ "-" ++ zeroPadded 2 date.month ++ "-" ++
      zeroPadded 2 date.day ++ "T" ++ zeroPadded 2 (clock / 3600) ++ ":" ++
      zeroPadded 2 (clock / 60 % 60) ++ ":" ++ zeroPadded 2 (clock % 60) ++
      fraction (t.localNanos % nanosPerSecond).toNat ++ offset

end Timestamp

end StreamQuery
