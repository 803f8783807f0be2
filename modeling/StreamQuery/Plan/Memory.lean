import StreamQuery.Plan.Compile

/-!
# Tables in memory

Rows that are held as values. The filter of a scan is evaluated here, and a
filter that is constantly true costs nothing.
-/

namespace StreamQuery

structure MemoryTable where
  name : String
  columns : List String
  rows : List (List Value)
  rows_length : ∀ row ∈ rows, row.length = columns.length

namespace MemoryTable

def misfit? (width : Nat) (rows : List (List Value)) : Option (Nat × List Value) :=
  rows.zipIdx.find? (fun row => row.1.length != width) |>.map fun row => (row.2, row.1)

theorem length_of_misfit?_eq_none {width : Nat} {rows : List (List Value)}
    (h : misfit? width rows = none) : ∀ row ∈ rows, row.length = width := by
  intro row hr
  simp only [misfit?, Option.map_eq_none_iff, List.find?_eq_none] at h
  obtain ⟨i, hi, rfl⟩ := List.getElem_of_mem hr
  simpa using h (rows[i], i) (List.mem_zipIdx_iff_getElem?.2 (by simp [hi]))

def make (name : String) (columns : List String) (rows : List (List Value)) :
    Except Error MemoryTable :=
  match h : misfit? columns.length rows with
  | some (place, row) =>
    .error (.argument
      s!"row {place} has {row.length} values but source has {columns.length} columns")
  | none => .ok ⟨name, columns, rows, length_of_misfit?_eq_none h⟩

variable {m : Type → Type} [Monad m]

def compile (table : MemoryTable) (filter : Formula) (qualifier : String) :
    Except Error (Operator m) := do
  let names : List Name := table.columns.map fun column => ⟨some qualifier, column⟩
  let rows ← Operator.ofRows names table.rows
  if filter == .const true then return rows
  return .filter (← filter.compile) rows

def toTable (memory : MemoryTable) : Table m where
  name := memory.name
  compile _ filter qualifier := liftOutcome (memory.compile filter qualifier)

end MemoryTable

end StreamQuery
