/-!
# Durations

A duration is a number of nanoseconds whose whole seconds, counted toward
zero, fit a signed 64-bit integer. Sums are exact or refused.
-/

namespace StreamQuery

def nanosPerSecond : Nat := 1000000000

/-- Fewer than `2 ^ 63` seconds, or, below zero, fewer than `2 ^ 63 + 1`: then
the whole seconds of `nanos` fit 64 bits. -/
def FitsSeconds (nanos : Int) : Prop :=
  -9223372036854775809 * nanosPerSecond < nanos ∧ nanos < 9223372036854775808 * nanosPerSecond

instance (nanos : Int) : Decidable (FitsSeconds nanos) := by
  unfold FitsSeconds
  infer_instance

structure Duration where
  nanos : Int
  range : FitsSeconds nanos
  deriving DecidableEq

namespace Duration

def ofNanos? (nanos : Int) : Option Duration :=
  if h : FitsSeconds nanos then some ⟨nanos, h⟩ else none

theorem ofNanos?_nanos (d : Duration) : ofNanos? d.nanos = some d := by
  simp [ofNanos?, d.range]

theorem nanos_of_ofNanos? {nanos : Int} {d : Duration} (h : ofNanos? nanos = some d) :
    d.nanos = nanos := by
  unfold ofNanos? at h
  split at h
  · cases h; rfl
  · cases h

def ofInt64 (nanos : Int64) : Duration :=
  ⟨nanos.toInt, by
    have low := nanos.le_toInt
    have high := nanos.toInt_lt
    unfold FitsSeconds nanosPerSecond
    omega⟩

def add? (a b : Duration) : Option Duration := ofNanos? (a.nanos + b.nanos)

def units : List (String × Nat) :=
  [("d", 86400000000000), ("h", 3600000000000), ("m", 60000000000), ("s", 1000000000),
   ("ms", 1000000), ("µs", 1000), ("ns", 1)]

def parts : List (String × Nat) → Nat → String
  | [], _ => ""
  | (name, size) :: finer, rest =>
    let count := rest / size
    (if count = 0 then "" else toString count ++ name) ++ parts finer (rest % size)

def render (d : Duration) : String :=
  if d.nanos = 0 then "0s"
  else (if d.nanos < 0 then "-" else "") ++ parts units d.nanos.natAbs

end Duration

end StreamQuery
