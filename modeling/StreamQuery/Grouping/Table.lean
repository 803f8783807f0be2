import Std.Data.HashMap
import StreamQuery.Grouping.Key

/-!
# Tables of groups

A table keeps one slot per group. The slots stand in the order in which their
groups first appeared and are never removed; an index from canonical bytes to
slots finds the slot of any key that is equal to the first one seen. That the
index and the slots agree is part of the type.
-/

namespace StreamQuery

/-- The bytes of a slot's key lead to its place, and no other bytes lead anywhere. -/
def Indexes {α : Type} (index : Std.HashMap Bytes Nat) (entries : Array (GroupKey × α)) : Prop :=
  ∀ bytes place,
    index[bytes]? = some place ↔ entries[place]?.map (GroupKey.canonical ·.1) = some bytes

namespace Indexes

variable {α : Type} {index : Std.HashMap Bytes Nat} {entries : Array (GroupKey × α)}

theorem empty : Indexes ∅ (#[] : Array (GroupKey × α)) := by
  intro bytes place
  simp

theorem emptyWithCapacity (capacity : Nat) :
    Indexes (.emptyWithCapacity capacity) (.emptyWithCapacity capacity : Array (GroupKey × α)) := by
  intro bytes place
  simp

theorem push (h : Indexes index entries) (key : GroupKey) (a : α)
    (absent : index[key.canonical]? = none) :
    Indexes (index.insert key.canonical entries.size) (entries.push (key, a)) := by
  intro bytes place
  rw [Std.HashMap.getElem?_insert, Array.getElem?_push]
  by_cases hb : key.canonical = bytes
  · subst hb
    by_cases hp : place = entries.size
    · simp [hp]
    · have hn := h key.canonical place
      rw [absent] at hn
      simp only [reduceCtorEq, false_iff] at hn
      simp [hp, hn, Ne.symm hp]
  · by_cases hp : place = entries.size
    · have hn := h bytes entries.size
      simp only [Array.getElem?_size, Option.map_none, reduceCtorEq, iff_false] at hn
      simp [hp, hb, hn]
    · simpa [hb, hp] using h bytes place

theorem modify (h : Indexes index entries) (place : Nat) (f : GroupKey × α → GroupKey × α)
    (keeps : ∀ entry, (f entry).1 = entry.1) : Indexes index (entries.modify place f) := by
  intro bytes other
  rw [h bytes other, Array.getElem?_modify]
  split
  · cases entries[other]? <;> simp [keeps]
  · rfl

end Indexes

structure GroupTable (α : Type) where
  index : Std.HashMap Bytes Nat
  entries : Array (GroupKey × α)
  indexed : Indexes index entries

namespace GroupTable

variable {α : Type}

def empty : GroupTable α := ⟨∅, #[], .empty⟩

instance : Inhabited (GroupTable α) := ⟨empty⟩

def emptyWithCapacity (capacity : Nat) : GroupTable α :=
  ⟨.emptyWithCapacity capacity, .emptyWithCapacity capacity, .emptyWithCapacity capacity⟩

def size (table : GroupTable α) : Nat := table.entries.size

def isEmpty (table : GroupTable α) : Bool := table.entries.isEmpty

def slot? (table : GroupTable α) (key : GroupKey) : Option Nat :=
  table.index[key.canonical]?

def contains (table : GroupTable α) (key : GroupKey) : Bool := (table.slot? key).isSome

theorem slot?_eq_none {table : GroupTable α} {key : GroupKey} (h : ¬ table.contains key) :
    table.slot? key = none := by
  simpa [contains] using h

def get? (table : GroupTable α) (key : GroupKey) : Option α := do
  let place ← table.slot? key
  let entry ← table.entries[place]?
  return entry.2

def append (table : GroupTable α) (key : GroupKey) (a : α) (absent : ¬ table.contains key) :
    GroupTable α :=
  { index := table.index.insert key.canonical table.entries.size
    entries := table.entries.push (key, a)
    indexed := table.indexed.push key a (slot?_eq_none absent) }

def update (f : α → α) (entry : GroupKey × α) : GroupKey × α := (entry.1, f entry.2)

theorem update_fst (f : α → α) (entry : GroupKey × α) : (update f entry).1 = entry.1 := rfl

def modify (table : GroupTable α) (key : GroupKey) (f : α → α) : GroupTable α :=
  match table.slot? key with
  | some place =>
    { index := table.index
      entries := table.entries.modify place (update f)
      indexed := table.indexed.modify place (update f) (update_fst f) }
  | none => table

/-- Stores `a` for the key. A slot that exists keeps the key that made it. -/
def set (table : GroupTable α) (key : GroupKey) (a : α) : GroupTable α :=
  if h : table.contains key then table.modify key fun _ => a else table.append key a h

def exchange (table : GroupTable α) (key : GroupKey) (a : α) : Option α × GroupTable α :=
  (table.get? key, table.set key a)

def upsert (table : GroupTable α) (key : GroupKey) (a : α) (f : α → α) : GroupTable α :=
  if h : table.contains key then table.modify key f else table.append key (f a) h

def toList (table : GroupTable α) : List (GroupKey × α) := table.entries.toList

def keys (table : GroupTable α) : List GroupKey := table.toList.map Prod.fst

def values (table : GroupTable α) : List α := table.toList.map Prod.snd

end GroupTable

end StreamQuery
