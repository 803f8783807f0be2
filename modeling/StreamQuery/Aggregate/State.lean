import StreamQuery.Aggregate.Cell
import StreamQuery.Aggregate.Lock
import StreamQuery.Grouping.Table

/-!
# Running aggregates

One aggregate serves all groups of a query: a cell for each group that has had
a record, and one lock for all of them. A refused value changes no cell. A
function that takes every kind has no use for the lock; with any other, no
group has a cell before the aggregate is locked.
-/

namespace StreamQuery

structure Accumulator (f : AggregateFunction) where
  lock : KindLock
  cells : GroupTable f.Cell
  locked : cells.isEmpty ∨ f.acceptedKinds.isEmpty ∨ lock.first.isSome

namespace Accumulator

variable {f : AggregateFunction}

def start : Accumulator f := ⟨.unlocked, .empty, .inl rfl⟩

def inspect (acc : Accumulator f) (v : Value) : Except Error Unit × KindLock :=
  if f.acceptedKinds.isEmpty then (.ok (), acc.lock)
  else acc.lock.offer f.name v f.acceptedKinds

theorem inspect_locks (acc : Accumulator f) (v : Value) :
    f.acceptedKinds.isEmpty ∨ (acc.inspect v).2.first.isSome := by
  unfold inspect
  split
  · rename_i h
    exact .inl h
  · right
    unfold KindLock.offer KindLock.offered
    cases h : acc.lock.first <;> simp [h]

def advance (acc : Accumulator f) (key : GroupKey) (v : Value) : Except Error f.Cell := do
  (acc.inspect v).1
  f.step (acc.cells.get? key) v

/-- Folds a value into a group: the verdict, and what is kept afterwards. -/
def add (acc : Accumulator f) (key : GroupKey) (v : Value) : Except Error Unit × Accumulator f :=
  let lock := (acc.inspect v).2
  match acc.advance key v with
  | .ok cell => (.ok (), ⟨lock, acc.cells.set key cell, .inr (acc.inspect_locks v)⟩)
  | .error e => (.error e, ⟨lock, acc.cells, .inr (acc.inspect_locks v)⟩)

def get (acc : Accumulator f) (key : GroupKey) : Except Error Value :=
  match acc.cells.get? key with
  | some cell => .ok (f.report cell acc.lock.kind)
  | none => .error (.groupNotFound f.title key.render)

end Accumulator

structure Aggregate where
  function : AggregateFunction
  accumulator : Accumulator function

namespace Aggregate

def start (f : AggregateFunction) : Aggregate := ⟨f, .start⟩

def add (aggregate : Aggregate) (key : GroupKey) (v : Value) : Except Error Unit × Aggregate :=
  let (verdict, after) := aggregate.accumulator.add key v
  (verdict, ⟨aggregate.function, after⟩)

def get (aggregate : Aggregate) (key : GroupKey) : Except Error Value :=
  aggregate.accumulator.get key

end Aggregate

end StreamQuery
