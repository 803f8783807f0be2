import StreamQuery.Proofs.Grouping.Association
import StreamQuery.Proofs.Grouping.Place
import StreamQuery.Proofs.Grouping.Rows

/-!
# Grouping as a batch

What a final emission makes of its records can be said of all of them at once,
with a fresh aggregate for each group and each column (`batch`). The stream,
which shares one aggregate between all groups, gives the same rows
(`final_refines_batch`). The invariant is `Batches`: seen from any group, each
aggregate mirrors the fresh one that was fed that group's inputs alone.
-/

namespace StreamQuery

/-- What a fresh aggregate reports of a group that was fed these values. -/
def AggregateFunction.reportOf (f : AggregateFunction) (key : GroupKey) (values : List Value) :
    Except Error Value :=
  ((Accumulator.start : Accumulator f).feed (values.map (key, ·))).get key

def Aggregate.Follows (aggregate : Aggregate) (key : GroupKey) (values : List Value) : Prop :=
  Accumulator.Mirrors aggregate.accumulator (Accumulator.start.feed (values.map (key, ·))) key

theorem Aggregate.Follows.get_eq (h : Aggregate.Follows aggregate key values) :
    aggregate.get key = aggregate.function.reportOf key values :=
  Accumulator.Mirrors.get_eq h

namespace Grouping

variable {g : Grouping} {scope : Scope} {groups after : Groups} {record r : Record}
  {key other : GroupKey} {inputs : List Value} {evaluated : List (GroupKey × List Value)}

-- ---------------------------------------------------------------------------
-- The batch
-- ---------------------------------------------------------------------------

/-- The keys of some records without repetition, in the order in which they
first appear. -/
def keysOf (evaluated : List (GroupKey × List Value)) : List GroupKey :=
  (evaluated.map Prod.fst).eraseDups

/-- The inputs for one aggregate among the records of a group, in their order. -/
def inputsOf (evaluated : List (GroupKey × List Value)) (key : GroupKey) (column : Nat) :
    List Value :=
  evaluated.filterMap fun (k, inputs) => if k == key then inputs[column]? else none

/-- The row of a group, from what its records evaluate to. -/
def batchRow (g : Grouping) (evaluated : List (GroupKey × List Value)) (key : GroupKey) :
    Except Error Record := do
  let aggregated ← g.functions.zipIdx.mapM fun (f, column) =>
    f.reportOf key (inputsOf evaluated key column)
  Record.ofLists g.output (key.values ++ aggregated)

def batch (g : Grouping) (scope : Scope) (records : List Record) : Except Error (List Record) := do
  let evaluated ← records.mapM (g.evaluate scope)
  (keysOf evaluated).mapM (g.batchRow evaluated)

theorem keysOf_append_singleton : keysOf (evaluated ++ [(key, inputs)]) =
    if (keysOf evaluated).any (key == ·) then keysOf evaluated else keysOf evaluated ++ [key] := by
  rw [keysOf, List.map_append, List.map_singleton, eraseDups_append_singleton]
  rfl

theorem inputsOf_append_singleton_of_beq (h : key == other) (hv : inputs[column]? = some v) :
    inputsOf (evaluated ++ [(key, inputs)]) other column =
      inputsOf evaluated other column ++ [v] := by
  simp [inputsOf, h, hv]

theorem inputsOf_append_singleton_of_not_beq (h : ¬ key == other) :
    inputsOf (evaluated ++ [(key, inputs)]) other column = inputsOf evaluated other column := by
  simp [inputsOf, h]

-- ---------------------------------------------------------------------------
-- The invariant
-- ---------------------------------------------------------------------------

/-- The groups are what the records that were taken in make of them. -/
structure Batches (g : Grouping) (groups : Groups) (evaluated : List (GroupKey × List Value)) :
    Prop where
  functions : groups.aggregates.map Aggregate.function = g.functions
  keys : groups.seen.keys = keysOf evaluated
  bounded : ∀ key ∈ groups.seen.keys, key.Bounded
  follows : ∀ key : GroupKey, key.Bounded → ∀ (column : Nat) (aggregate : Aggregate),
    groups.aggregates[column]? = some aggregate →
      aggregate.Follows key (inputsOf evaluated key column)

namespace Batches

theorem begin (g : Grouping) : g.Batches g.begin [] where
  functions := List.map_map.trans (List.map_id g.functions)
  keys := rfl
  bounded key hk := by simp [Grouping.begin] at hk
  follows key hb column aggregate ha := by
    simp only [Grouping.begin, List.getElem?_map, Option.map_eq_some_iff] at ha
    obtain ⟨f, -, rfl⟩ := ha
    exact Accumulator.Mirrors.start key

theorem contains_iff (h : g.Batches groups evaluated) (hb : key.Bounded) :
    groups.seen.contains key ↔ (keysOf evaluated).any (key == ·) := by
  rw [GroupTable.contains_iff, List.any_eq_true, h.keys]
  refine exists_congr fun k => and_congr_right fun hk => ?_
  rw [← GroupKey.canonical_eq_iff hb (h.bounded k (h.keys ▸ hk)), eq_comm]

theorem takeIn (h : g.Batches groups evaluated) (hserves : g.Serves groups)
    (ht : g.takeIn scope groups record = .ok (key, after))
    (he : g.evaluate scope record = .ok (key, inputs)) (hb : key.Bounded) :
    g.Batches after (evaluated ++ [(key, inputs)]) where
  functions := (functions_takeIn ht).trans h.functions
  keys := by
    rw [seen_takeIn ht, GroupTable.keys_upsert, keysOf_append_singleton, h.keys]
    simp only [h.contains_iff hb]
  bounded := bounded_takeIn ht h.bounded hb
  follows other hother column added hcolumn := by
    obtain ⟨aggregate, v, haggregate, hv, hok, rfl⟩ := hserves.getElem?_takeIn ht he hcolumn
    have hfollows := h.follows other hother column aggregate haggregate
    by_cases heq : key == other
    · rw [inputsOf_append_singleton_of_beq heq hv, Aggregate.Follows, List.map_append,
        Accumulator.feed_append]
      exact (hfollows.add (GroupKey.canonical_eq_of_beq heq) rfl hok).2
    · rw [inputsOf_append_singleton_of_not_beq heq]
      exact hfollows.add_of_ne fun hc => heq ((GroupKey.canonical_eq_iff hb hother).mp hc)

theorem row (h : g.Batches groups evaluated) (hb : key.Bounded) (hr : g.row groups key = .ok r) :
    g.batchRow evaluated key = .ok r := by
  obtain ⟨values, hreport, hwidth, rfl⟩ := row_ok.mp hr
  have hlen : g.functions.length = groups.aggregates.length := by
    rw [← h.functions, List.length_map]
  refine bind_ok.mpr ⟨values, mapM_ok.mpr ?_, Record.ofLists_ok.mpr ⟨hwidth, rfl⟩⟩
  obtain ⟨hvalues, hget⟩ := List.forall₂_iff_get.mp hreport
  refine List.forall₂_iff_get.mpr ⟨by rw [List.length_zipIdx, hlen, hvalues], ?_⟩
  intro column hcolumn hcolumn'
  have hc : column < groups.aggregates.length := hvalues ▸ hcolumn'
  have hfollows := h.follows key hb column _ (List.getElem?_eq_getElem hc)
  have hc' : column < g.functions.length := hlen ▸ hc
  have hfunction : g.functions[column] = groups.aggregates[column].function := by
    simp [← h.functions]
  have hreported : groups.aggregates[column].get key = .ok values[column] := hget column hc hcolumn'
  rw [hfollows.get_eq] at hreported
  simpa [hfunction] using hreported

theorem takeAll (hg : g.Bounded) (hs : scope.Bounded) {records : List Record}
    (hrecords : ∀ record ∈ records, record.Bounded) (h : g.Batches groups evaluated)
    (hserves : g.Serves groups) (ht : g.takeAll scope records groups = .ok after) :
    ∃ more, records.mapM (g.evaluate scope) = .ok more ∧
      g.Batches after (evaluated ++ more) :=
  hserves.takeAll_invariant hg hs hrecords
    (fun _ hserves h ht he hb => h.takeIn hserves ht he hb) h ht

theorem rows (h : g.Batches groups evaluated) {rows : List Record}
    (hrows : groups.seen.keys.mapM (g.row groups) = .ok rows) :
    (keysOf evaluated).mapM (g.batchRow evaluated) = .ok rows := by
  have hall := (List.forall₂_and_left _ _).mpr ⟨h.bounded, mapM_ok.mp hrows⟩
  rw [← h.keys]
  exact mapM_ok.mpr (hall.imp fun key r hr => h.row hr.1 hr.2)

end Batches

-- ---------------------------------------------------------------------------
-- Whole runs
-- ---------------------------------------------------------------------------

theorem batchRow_shape (h : g.batchRow evaluated key = .ok r) :
    r.names = g.output ∧ r.isRetraction = false := by
  obtain ⟨values, -, hr⟩ := bind_ok.mp h
  obtain ⟨hwidth, rfl⟩ := Record.ofLists_ok.mp hr
  exact ⟨Record.names_zip hwidth, rfl⟩

theorem batch_shape {rows : List Record} (h : g.batch scope records = .ok rows) :
    ∀ row ∈ rows, row.names = g.output ∧ row.isRetraction = false := by
  obtain ⟨evaluated, -, hrows⟩ := bind_ok.mp h
  intro row hrow
  obtain ⟨place, hplace, rfl⟩ := List.mem_iff_getElem.mp hrow
  obtain ⟨hlen, hget⟩ := List.forall₂_iff_get.mp (mapM_ok.mp hrows)
  exact batchRow_shape (hget place (by rwa [hlen]) hplace)

/-- A final emission that does not fail gives the rows of the batch, which all
have the columns of the output. The rows are looked up one by one at the end,
and each of them is found.

Premise: the query is not stopped, and all lengths in the records, in the
scope and in the constants of the key fit eight bytes. -/
theorem final_refines_batch (g : Grouping) (execution : Execution) (records : List Record)
    (moments : Nat → Signals) (hg : g.Bounded) (hs : execution.scope.Bounded)
    (hrecords : ∀ record ∈ records, record.Bounded) (h : execution.query.Undisturbed moments)
    (hok : ∀ item ∈ (g.emitting .final).run execution moments (records.map .ok),
      ∃ row, item = .ok row) :
    ∃ rows, (g.emitting .final).run execution moments (records.map .ok) = rows.map .ok ∧
      g.batch execution.scope records = .ok rows ∧
      (∀ row ∈ rows, row.names = g.output ∧ row.isRetraction = false) ∧
      ∃ groups, g.takeAll execution.scope records g.begin = .ok groups ∧
        groups.seen.keys.mapM (g.row groups) = .ok rows := by
  cases ht : g.takeAll execution.scope records g.begin with
  | error e =>
    rw [run_eq_emit h, emit_final, begin_emitting, ht] at hok
    obtain ⟨row, hrow⟩ := hok (.error e) (by simp)
    cases hrow
  | ok groups =>
    obtain ⟨rows, hrun, hrows⟩ := run_final h ht
    obtain ⟨evaluated, hevaluated, hbatches⟩ :=
      (Batches.begin g).takeAll hg hs hrecords (serves_begin g) ht
    have hbatch : g.batch execution.scope records = .ok rows :=
      bind_ok.mpr ⟨evaluated, hevaluated, hbatches.rows hrows⟩
    exact ⟨rows, hrun, hbatch, batch_shape hbatch, groups, rfl, hrows⟩

/-- Records whose keys are two zeros make one group, under the zero that came first. -/
theorem final_refines_batch_on_zeros :
    (countByX.emitting .final).run ⟨.unlabelled 0, .empty⟩ (fun _ => .quiet) (zeros.map .ok) =
        [.ok (countRow (Double.neg .zero) 2)] ∧
      countByX.batch .empty zeros = .ok [countRow (Double.neg .zero) 2] ∧
      (∀ row ∈ [countRow (Double.neg .zero) 2],
        row.names = countByX.output ∧ row.isRetraction = false) ∧
      ∃ groups, countByX.takeAll .empty zeros countByX.begin = .ok groups ∧
        groups.seen.keys.mapM (countByX.row groups) = .ok [countRow (Double.neg .zero) 2] := by
  obtain ⟨groups, hgroups, hrow⟩ := takeAll_zeros
  have hrun : ∃ rows, (countByX.emitting .final).run ⟨.unlabelled 0, .empty⟩ (fun _ => .quiet)
        (zeros.map .ok) = rows.map .ok ∧ groups.seen.keys.mapM (countByX.row groups) = .ok rows :=
    run_final (fun _ => rfl) hgroups
  have hok : ∀ item ∈ (countByX.emitting .final).run ⟨.unlabelled 0, .empty⟩ (fun _ => .quiet)
      (zeros.map .ok), ∃ row, item = .ok row := by
    intro item hitem
    obtain ⟨rows, hrows, -⟩ := hrun
    rw [hrows] at hitem
    obtain ⟨row, -, rfl⟩ := List.mem_map.mp hitem
    exact ⟨row, rfl⟩
  obtain ⟨rows, hrows, hbatch, hshape, twins, htwins, hfound⟩ :=
    final_refines_batch countByX ⟨.unlabelled 0, .empty⟩ zeros (fun _ => .quiet)
      countByX_bounded Scope.empty_bounded zeros_bounded (fun _ => rfl) hok
  cases hgroups.symm.trans htwins
  obtain rfl : rows = [countRow (Double.neg .zero) 2] := Except.ok.inj (hfound.symm.trans hrow)
  exact ⟨hrows, hbatch, hshape, groups, hgroups, hrow⟩

end Grouping

end StreamQuery
