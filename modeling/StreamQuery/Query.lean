import StreamQuery.Error

/-!
# Running queries

A query has a label for messages, an optional deadline and a cancellation
flag, which all copies of it share. What happens outside while it runs, the
clock and the raised flags, is a `Signals` value; every step that can be
stopped looks at the signals of its moment.
-/

namespace StreamQuery

structure Signals where
  /-- Nanoseconds on a clock that never runs backwards. -/
  now : Nat
  raised : List Nat

namespace Signals

def quiet : Signals := ⟨0, []⟩

def raise (signals : Signals) (flag : Nat) : Signals :=
  { signals with raised := flag :: signals.raised }

end Signals

structure Query where
  label : String
  deadline : Option Nat
  flag : Nat
  deriving DecidableEq, Repr

namespace Query

def start (label : String) (flag : Nat) : Query := ⟨label, none, flag⟩

def unlabelled (flag : Nat) : Query := start "query" flag

def withDeadline (query : Query) (deadline : Nat) : Query :=
  { query with deadline := some deadline }

def withTimeout (query : Query) (signals : Signals) (timeout : Nat) : Query :=
  query.withDeadline (signals.now + timeout)

def cancel (query : Query) (signals : Signals) : Signals := signals.raise query.flag

def isCancelled (query : Query) (signals : Signals) : Bool := signals.raised.contains query.flag

def isOverdue (query : Query) (signals : Signals) : Bool :=
  match query.deadline with
  | some deadline => deadline ≤ signals.now
  | none => false

/-- Fails once the query was cancelled or, that aside, is past its deadline. -/
def check (query : Query) (signals : Signals) : Except Error Unit :=
  if query.isCancelled signals then .error (.cancelled s!"{query.label} was cancelled")
  else if query.isOverdue signals then
    .error (.cancelled s!"{query.label} exceeded its deadline")
  else .ok ()

end Query

end StreamQuery
