import Mathlib.Data.List.Perm.Basic
import StreamQuery.Proofs.Aggregate.Acceptance
import StreamQuery.Proofs.Aggregate.Summary
import StreamQuery.Proofs.Grouping.Batch
import StreamQuery.Proofs.Grouping.Changelog

/-!
# Final rows do not depend on the order of arrival

Records that arrive in another order may make groups appear in another order,
under other keys that are equal, and give the aggregates their inputs in
another order. What is known of the groups after some arrivals (`Arrived`) is
none of that: which groups there are, and that each aggregate sums up the
inputs of each of them. So it is known after the same arrivals in any order
(`Arrived.perm`), and it is enough to know the rows (`Arrived.sameRows`).
-/

namespace StreamQuery

theorem perm_of_mapM {f : α → Except ε β} {xs others : List α} {ys zs : List β}
    (hperm : xs.Perm others) (h : xs.mapM f = .ok ys) (h' : others.mapM f = .ok zs) :
    ys.Perm zs := by
  obtain ⟨sorted, hsorted, hzs⟩ := List.perm_comp_forall₂ hperm (mapM_ok.mp h')
  rw [mapM_ok.mpr hsorted] at h
  cases h
  exact hzs

/-- Tables with the same groups have them in orders that differ at most, under equal keys. -/
theorem GroupTable.exists_sorted_keys {table twin : GroupTable α}
    (h : ∀ key ∈ table.keys, twin.contains key) (h' : ∀ key ∈ twin.keys, table.contains key) :
    ∃ sorted : List GroupKey, sorted.Perm table.keys ∧
      sorted.map GroupKey.canonical = twin.keys.map GroupKey.canonical := by
  have hnodup : ∀ t : GroupTable α, (t.keys.map GroupKey.canonical).Nodup := fun t =>
    List.pairwise_map.mpr t.keys_distinct
  have hmem : ∀ t u : GroupTable α, (∀ key ∈ t.keys, u.contains key) →
      ∀ bytes ∈ t.keys.map GroupKey.canonical, bytes ∈ u.keys.map GroupKey.canonical := by
    intro t u htu bytes hbytes
    obtain ⟨key, hkey, rfl⟩ := List.mem_map.mp hbytes
    exact List.mem_map.mpr (contains_iff.mp (htu key hkey))
  have hperm : (twin.keys.map GroupKey.canonical).Perm (table.keys.map GroupKey.canonical) :=
    (List.perm_ext_iff_of_nodup (hnodup twin) (hnodup table)).mpr fun bytes =>
      ⟨hmem twin table h' bytes, hmem table twin h bytes⟩
  obtain ⟨sorted, hsorted, hp⟩ :=
    (congrFun₂ (List.eq_map_comp_perm GroupKey.canonical) _ _).mpr hperm
  exact ⟨sorted, hp, hsorted.symm⟩

namespace Grouping

variable {g : Grouping} {execution : Execution} {scope : Scope} {groups twins after : Groups}
  {record r s : Record} {records : List Record} {key other : GroupKey} {inputs : List Value}
  {evaluated others : List (GroupKey × List Value)}

-- ---------------------------------------------------------------------------
-- What is known after some arrivals
-- ---------------------------------------------------------------------------

theorem inputsOf_perm (h : evaluated.Perm others) (key : GroupKey) (column : Nat) :
    (inputsOf evaluated key column).Perm (inputsOf others key column) :=
  h.filterMap _

theorem inputsOf_congr (h : key == other) : inputsOf evaluated key = inputsOf evaluated other := by
  funext column
  refine List.filterMap_congr fun entry _ => ?_
  have hentry : (entry.1 == key) = (entry.1 == other) := by
    rw [Bool.eq_iff_iff]
    exact ⟨fun hk => BEq.trans hk h, fun ho => BEq.trans ho (BEq.symm h)⟩
  simp only [hentry]

/-- The groups are those of the records that arrived, and the aggregates sum up
the inputs of each of them. -/
structure Arrived (g : Grouping) (groups : Groups) (evaluated : List (GroupKey × List Value)) :
    Prop where
  functions : groups.aggregates.map Aggregate.function = g.functions
  bounded : ∀ entry ∈ evaluated, entry.1.Bounded
  seen : ∀ entry ∈ evaluated, groups.seen.contains entry.1
  came : ∀ key ∈ groups.seen.keys, ∃ entry ∈ evaluated, entry.1 = key
  sums : ∀ key : GroupKey, key.Bounded → ∀ (column : Nat) (aggregate : Aggregate),
    groups.aggregates[column]? = some aggregate →
      aggregate.accumulator.Summarizes key (inputsOf evaluated key column)

namespace Arrived

theorem begin (g : Grouping) : g.Arrived g.begin [] where
  functions := List.map_map.trans (List.map_id g.functions)
  bounded entry h := absurd h List.not_mem_nil
  seen entry h := absurd h List.not_mem_nil
  came key h := by simp [Grouping.begin] at h
  sums key _ column aggregate ha := by
    simp only [Grouping.begin, List.getElem?_map, Option.map_eq_some_iff] at ha
    obtain ⟨f, -, rfl⟩ := ha
    exact .start key

theorem perm (h : g.Arrived groups evaluated) (hperm : evaluated.Perm others) :
    g.Arrived groups others where
  functions := h.functions
  bounded entry he := h.bounded entry (hperm.mem_iff.mpr he)
  seen entry he := h.seen entry (hperm.mem_iff.mpr he)
  came key hk := by
    obtain ⟨entry, he, rfl⟩ := h.came key hk
    exact ⟨entry, hperm.mem_iff.mp he, rfl⟩
  sums key hb column aggregate ha :=
    (h.sums key hb column aggregate ha).perm (inputsOf_perm hperm key column)

theorem takeIn (h : g.Arrived groups evaluated) (hserves : g.Serves groups)
    (ht : g.takeIn scope groups record = .ok (key, after))
    (he : g.evaluate scope record = .ok (key, inputs)) (hb : key.Bounded)
    (hfloat : ∀ v ∈ inputs, v.kind ≠ .float) : g.Arrived after (evaluated ++ [(key, inputs)]) where
  functions := (functions_takeIn ht).trans h.functions
  bounded := List.forall_mem_append.mpr ⟨h.bounded, List.forall_mem_singleton.mpr hb⟩
  seen := List.forall_mem_append.mpr
    ⟨fun entry hentry => (contains_takeIn ht).mpr (.inr (h.seen entry hentry)),
      List.forall_mem_singleton.mpr ((contains_takeIn ht).mpr (.inl rfl))⟩
  came k hk := by
    rcases mem_keys_takeIn ht hk with hk | rfl
    · obtain ⟨entry, hentry, rfl⟩ := h.came k hk
      exact ⟨entry, List.mem_append_left _ hentry, rfl⟩
    · exact ⟨(k, inputs), by simp, rfl⟩
  sums other hother column added hcolumn := by
    obtain ⟨aggregate, v, haggregate, hv, hok, rfl⟩ := hserves.getElem?_takeIn ht he hcolumn
    have hsums := h.sums other hother column aggregate haggregate
    by_cases heq : key == other
    · rw [inputsOf_append_singleton_of_beq heq hv]
      exact hsums.add (GroupKey.canonical_eq_of_beq heq) (hfloat v (List.mem_of_getElem? hv)) hok
    · rw [inputsOf_append_singleton_of_not_beq heq]
      exact hsums.add_of_ne fun hc => heq ((GroupKey.canonical_eq_iff hb hother).mp hc)

end Arrived

/-- None of these records has a float as the input of an aggregate. -/
def Exact (g : Grouping) (scope : Scope) (records : List Record) : Prop :=
  ∀ record ∈ records, ∀ (key : GroupKey) (inputs : List Value),
    g.evaluate scope record = .ok (key, inputs) → ∀ v ∈ inputs, v.kind ≠ .float

theorem Arrived.takeAll (hg : g.Bounded) (hs : scope.Bounded)
    (hrecords : ∀ record ∈ records, record.Bounded) (hexact : g.Exact scope records)
    (h : g.Arrived groups evaluated) (hserves : g.Serves groups)
    (ht : g.takeAll scope records groups = .ok after) :
    ∃ more, records.mapM (g.evaluate scope) = .ok more ∧
      g.Arrived after (evaluated ++ more) :=
  hserves.takeAll_invariant hg hs hrecords
    (fun hr hserves h ht he hb => h.takeIn hserves ht he hb (hexact _ hr _ _ he)) h ht

-- ---------------------------------------------------------------------------
-- Rows
-- ---------------------------------------------------------------------------

namespace Arrived

theorem bounded_key (h : g.Arrived groups evaluated) : ∀ key ∈ groups.seen.keys, key.Bounded := by
  intro key hk
  obtain ⟨entry, hentry, rfl⟩ := h.came key hk
  exact h.bounded entry hentry

theorem contains_key (h : g.Arrived groups evaluated) (h' : g.Arrived twins evaluated) :
    ∀ key ∈ groups.seen.keys, twins.seen.contains key := by
  intro key hk
  obtain ⟨entry, hentry, rfl⟩ := h.came key hk
  exact h'.seen entry hentry

theorem report_beq (h : g.Arrived groups evaluated) (h' : g.Arrived twins evaluated)
    (hf : ∀ f ∈ g.functions, f ≠ .avg) (hb : key.Bounded) (hb' : other.Bounded)
    (heq : key == other) {values values' : List Value}
    (hv : Aggregate.Report groups.aggregates key values)
    (hv' : Aggregate.Report twins.aggregates other values') :
    values.map Value.normal = values'.map Value.normal := by
  obtain ⟨hlen, hget⟩ := List.forall₂_iff_get.mp hv
  obtain ⟨hlen', hget'⟩ := List.forall₂_iff_get.mp hv'
  have hfunctions := h.functions.trans h'.functions.symm
  have hwidth : groups.aggregates.length = twins.aggregates.length := by
    simpa using congrArg List.length hfunctions
  refine List.ext_getElem (by simp [← hlen, ← hlen', hwidth]) fun column hc hc' => ?_
  rw [List.length_map] at hc hc'
  have ha : column < groups.aggregates.length := hlen ▸ hc
  have ha' : column < twins.aggregates.length := hlen' ▸ hc'
  have hfunction : groups.aggregates[column].function = twins.aggregates[column].function := by
    simpa [ha, ha'] using congrArg (fun functions => functions[column]?) hfunctions
  have hmem : groups.aggregates[column].function ∈ g.functions :=
    h.functions ▸ List.mem_map_of_mem (List.getElem_mem ha)
  have hsums := h.sums key hb column _ (List.getElem?_eq_getElem ha)
  have hsums' := h'.sums other hb' column _ (List.getElem?_eq_getElem ha')
  rw [← inputsOf_congr heq] at hsums'
  rw [List.getElem_map, List.getElem_map]
  exact Value.eq_iff_normal.mp (Aggregate.get_beq hfunction (hf _ hmem) hsums hsums'
    (hget column ha hc) (hget' column ha' hc'))

theorem row_beq (h : g.Arrived groups evaluated) (h' : g.Arrived twins evaluated)
    (hf : ∀ f ∈ g.functions, f ≠ .avg) (hb : key.Bounded) (hb' : other.Bounded)
    (heq : key == other) (hr : g.row groups key = .ok r) (hs : g.row twins other = .ok s) :
    r == s := by
  obtain ⟨values, hv, hwidth, rfl⟩ := row_ok.mp hr
  obtain ⟨values', hv', hwidth', rfl⟩ := row_ok.mp hs
  refine Record.beq_iff.mpr ⟨Record.sameRow_iff.mpr ⟨?_, ?_⟩, rfl⟩
  · rw [Record.names_zip hwidth, Record.names_zip hwidth']
  · rw [Record.values_zip hwidth, Record.values_zip hwidth', List.map_append, List.map_append,
      GroupKey.beq_iff.mp heq, h.report_beq h' hf hb hb' heq hv hv']

theorem sameRows (h : g.Arrived groups evaluated) (h' : g.Arrived twins evaluated)
    (hf : ∀ f ∈ g.functions, f ≠ .avg) {rows rows' : List Record}
    (hrows : groups.seen.keys.mapM (g.row groups) = .ok rows)
    (hrows' : twins.seen.keys.mapM (g.row twins) = .ok rows') : SameRows rows rows' := by
  obtain ⟨sorted, hperm, hsorted⟩ :=
    GroupTable.exists_sorted_keys (h.contains_key h') (h'.contains_key h)
  obtain ⟨sortedRows, hall, hp⟩ := List.perm_comp_forall₂ hperm (mapM_ok.mp hrows)
  refine ⟨sortedRows, hp.symm, ?_⟩
  obtain ⟨hlen, hget⟩ := List.forall₂_iff_get.mp hall
  obtain ⟨hlen', hget'⟩ := List.forall₂_iff_get.mp (mapM_ok.mp hrows')
  have hkeys : sorted.length = twins.seen.keys.length := by
    simpa using congrArg List.length hsorted
  refine List.forall₂_iff_get.mpr ⟨by rw [← hlen, ← hlen', hkeys], fun place hplace hplace' => ?_⟩
  have hk : place < sorted.length := hlen ▸ hplace
  have hk' : place < twins.seen.keys.length := hlen' ▸ hplace'
  have hcanonical : sorted[place].canonical = twins.seen.keys[place].canonical := by
    simpa [hk, hk'] using congrArg (fun bytes => bytes[place]?) hsorted
  have hb := h.bounded_key _ (hperm.mem_iff.mp (List.getElem_mem hk))
  have hb' := h'.bounded_key _ (List.getElem_mem hk')
  exact h.row_beq h' hf hb hb' ((GroupKey.canonical_eq_iff hb hb').mp hcanonical)
    (hget place hk hplace) (hget' place hk' hplace')

end Arrived

-- ---------------------------------------------------------------------------
-- Whole runs
-- ---------------------------------------------------------------------------

/-- A final emission asks for all records before it gives a row, and so at one
moment. It does not matter whether the query is stopped later. -/
theorem collect_final (h : records = [] ∨ execution.query.check (moments 0) = .ok ()) :
    ((RecordStream.ofItems (records.map .ok)).group (g.emitting .final) execution groups).collect
      moments = (g.emitting .final).emit execution.scope (records.map .ok) groups := by
  induction records generalizing groups with
  | nil =>
    rw [RecordStream.collect_next]
    simp only [List.map_nil, RecordStream.ofItems_nil, RecordStream.empty, RecordStream.group,
      RecordStream.next, Pull.group, emit]
    cases (g.emitting .final).finish groups with
    | error e => rfl
    | ok rows => exact (RecordStream.collect_next _ _).symm.trans (RecordStream.collect_ofItems _ _)
  | cons record rest ih =>
    have hcheck := h.resolve_left (List.cons_ne_nil record rest)
    rw [RecordStream.collect_next]
    simp only [List.map_cons, RecordStream.ofItems_cons, RecordStream.cons, RecordStream.group,
      RecordStream.next, Pull.group, emit, consume_of_check hcheck, Except.bind, accept_final]
    cases g.takeIn execution.scope groups record with
    | error e => rfl
    | ok taken =>
      refine (RecordStream.collect_next _ _).symm.trans ?_
      exact (RecordStream.collect_prepend [] _ moments).trans (ih (.inr hcheck))

theorem collect_final_of_stopped (h : execution.query.check (moments 0) = .error e) :
    ((RecordStream.ofItems ((record :: records).map .ok)).group (g.emitting .final) execution
      groups).collect moments = [.error e] := by
  rw [RecordStream.collect_next]
  simp only [List.map_cons, RecordStream.ofItems_cons, RecordStream.cons, RecordStream.group,
    RecordStream.next, Pull.group, consume, h, Except.bind, error_bind]
  rfl

theorem run_final_ok
    (hok : ∀ item ∈ (g.emitting .final).run execution moments (records.map .ok),
      ∃ row, item = .ok row) :
    ∃ groups rows, g.takeAll execution.scope records g.begin = .ok groups ∧
      groups.seen.keys.mapM (g.row groups) = .ok rows ∧
      (g.emitting .final).run execution moments (records.map .ok) = rows.map .ok := by
  have hcheck : records = [] ∨ execution.query.check (moments 0) = .ok () := by
    cases records with
    | nil => exact .inl rfl
    | cons record rest =>
      cases h : execution.query.check (moments 0) with
      | ok u => exact .inr rfl
      | error e =>
        rw [run, collect_final_of_stopped h] at hok
        obtain ⟨row, hrow⟩ := hok (.error e) (List.mem_singleton_self _)
        cases hrow
  have hrun : (g.emitting .final).run execution moments (records.map .ok) =
      (g.emitting .final).emit execution.scope (records.map .ok) g.begin := collect_final hcheck
  rw [hrun, emit_final] at hok ⊢
  cases ht : g.takeAll execution.scope records g.begin with
  | error e =>
    rw [ht] at hok
    obtain ⟨row, hrow⟩ := hok (.error e) (List.mem_singleton_self _)
    cases hrow
  | ok groups =>
    obtain ⟨rows, hrows⟩ := ((serves_begin g).takeAll ht).exists_rows
    have hfinish : (g.emitting .final).finish groups = .ok rows := hrows
    refine ⟨groups, rows, rfl, hrows, ?_⟩
    simp only [emit, hfinish]

/-- Two final emissions over the same records in different orders give the same
rows, up to their order and equality, if both give rows only. No mean is asked
for, and no float is counted, compared or added up.

Premise: all lengths in the records, in the scope and in the constants of the
key fit eight bytes. -/
theorem final_ignores_arrival_order (g : Grouping) (execution : Execution)
    (records others : List Record) (moments moments' : Nat → Signals) (hg : g.Bounded)
    (hs : execution.scope.Bounded) (hrecords : ∀ record ∈ records, record.Bounded)
    (hf : ∀ f ∈ g.functions, f ≠ .avg) (hexact : g.Exact execution.scope records)
    (hperm : records.Perm others)
    (hok : ∀ item ∈ (g.emitting .final).run execution moments (records.map .ok),
      ∃ row, item = .ok row)
    (hok' : ∀ item ∈ (g.emitting .final).run execution moments' (others.map .ok),
      ∃ row, item = .ok row) :
    ∃ rows rows', (g.emitting .final).run execution moments (records.map .ok) = rows.map .ok ∧
      (g.emitting .final).run execution moments' (others.map .ok) = rows'.map .ok ∧
      SameRows rows rows' := by
  obtain ⟨groups, rows, htake, hrows, hrun⟩ := run_final_ok hok
  obtain ⟨groups', rows', htake', hrows', hrun'⟩ := run_final_ok hok'
  have hmem : ∀ record ∈ others, record ∈ records := fun record => hperm.mem_iff.mpr
  obtain ⟨evaluated, hevaluated, harrived⟩ :=
    (Arrived.begin g).takeAll hg hs hrecords hexact (serves_begin g) htake
  obtain ⟨evaluated', hevaluated', harrived'⟩ := (Arrived.begin g).takeAll hg hs
    (fun record hr => hrecords record (hmem record hr))
    (fun record hr => hexact record (hmem record hr)) (serves_begin g) htake'
  have hsame : evaluated.Perm evaluated' := perm_of_mapM hperm hevaluated hevaluated'
  exact ⟨rows, rows', hrun, hrun', (harrived.perm hsame).sameRows harrived' hf hrows hrows'⟩

def greatestByX : Grouping :=
  ⟨[.var ⟨none, "x"⟩], [.var ⟨none, "n"⟩, .var ⟨none, "n"⟩], [.count, .max],
    [⟨none, "x"⟩, ⟨none, "number"⟩, ⟨none, "greatest"⟩], .final, rfl, rfl⟩

def measured (x : Double) (n : Int64) : Record :=
  ⟨[(⟨none, "x"⟩, .float x), (⟨none, "n"⟩, .int n)], false⟩

theorem measured_bounded (x : Double) (n : Int64) : (measured x n).Bounded :=
  List.forall_mem_cons.mpr ⟨trivial, List.forall_mem_singleton.mpr trivial⟩

theorem evaluate_measured (x : Double) (n : Int64) :
    greatestByX.evaluate .empty (measured x n) = .ok (⟨[.float x]⟩, [.int n, .int n]) := rfl

theorem measured_exact (x : Double) (n : Int64) : greatestByX.Exact .empty [measured x n] := by
  refine List.forall_mem_singleton.mpr fun key inputs he => ?_
  rw [evaluate_measured] at he
  cases he
  simp [Value.kind]

theorem takeIn_measured {number : Accumulator .count} {greatest : Accumulator .max}
    (hgroups : groups.aggregates = [⟨.count, number⟩, ⟨.max, greatest⟩])
    (hok : (greatest.add ⟨[.float x]⟩ (.int n)).1 = .ok ()) : ∃ number' after,
      greatestByX.takeIn .empty groups (measured x n) = .ok (⟨[.float x]⟩, after) ∧
        after.aggregates =
          [⟨.count, number'⟩, ⟨.max, (greatest.add ⟨[.float x]⟩ (.int n)).2⟩] := by
  have hadd : addAll ⟨[.float x]⟩ groups.aggregates [.int n, .int n] =
      .ok [⟨.count, (number.add ⟨[.float x]⟩ (.int n)).2⟩,
        ⟨.max, (greatest.add ⟨[.float x]⟩ (.int n)).2⟩] := by
    rw [hgroups]
    exact addAll_cons_ok.mpr ⟨rfl, _, addAll_cons_ok.mpr ⟨hok, [], rfl, rfl⟩, rfl⟩
  exact ⟨_, _, takeIn_ok.mpr ⟨rfl, _, evaluate_measured x n, absorb_ok.mpr ⟨_, hadd, rfl⟩⟩, rfl⟩

theorem bounded_key_measured (x : Double) : (⟨[.float x]⟩ : GroupKey).Bounded :=
  ⟨show 1 < UInt64.size by decide, trivial, trivial⟩

theorem takeAll_measured (x y : Double) (m n : Int64) : ∃ groups,
    greatestByX.takeAll .empty [measured x m, measured y n] greatestByX.begin = .ok groups := by
  have hkey := bounded_key_measured
  have hint : ValueKind.int ∈ AggregateFunction.max.acceptedKinds := by decide
  have hfirst : ((AggregateFunction.max.fed []).add ⟨[.float x]⟩ (.int m)).1 = .ok () :=
    (AggregateFunction.add_fed_ok (by simp) (hkey x) []).mpr (.inr ⟨hint, rfl, trivial⟩)
  have hsecond : ((AggregateFunction.max.fed [(⟨[.float x]⟩, .int m)]).add ⟨[.float y]⟩
      (.int n)).1 = .ok () :=
    (AggregateFunction.add_fed_ok (by simp [hkey]) (hkey y) []).mpr (.inr ⟨hint, rfl, trivial⟩)
  have hbegin : greatestByX.begin.aggregates = [⟨.count, .start⟩, ⟨.max, .start⟩] := rfl
  obtain ⟨number, between, htake, hbetween⟩ := takeIn_measured hbegin hfirst
  obtain ⟨-, after, htake', -⟩ := takeIn_measured hbetween hsecond
  exact ⟨after, bind_ok.mpr ⟨_, htake, bind_ok.mpr ⟨_, htake', rfl⟩⟩⟩

/-- Two records of one group, which is stored under the zero that came first. -/
theorem final_ignores_arrival_order_of_zeros :
    ∃ rows rows', (greatestByX.emitting .final).run ⟨.unlabelled 0, .empty⟩ (fun _ => .quiet)
        ([measured ⟨0x8000000000000000⟩ 2, measured .zero 3].map .ok) = rows.map .ok ∧
      (greatestByX.emitting .final).run ⟨.unlabelled 0, .empty⟩ (fun _ => .quiet)
        ([measured .zero 3, measured ⟨0x8000000000000000⟩ 2].map .ok) = rows'.map .ok ∧
      SameRows rows rows' := by
  have hok : ∀ x y m n, ∀ item ∈ (greatestByX.emitting .final).run ⟨.unlabelled 0, .empty⟩
      (fun _ => .quiet) ([measured x m, measured y n].map .ok), ∃ row, item = .ok row := by
    intro x y m n item hitem
    obtain ⟨groups, hgroups⟩ := takeAll_measured x y m n
    have hrun : ∃ rows, (greatestByX.emitting .final).run ⟨.unlabelled 0, .empty⟩ (fun _ => .quiet)
        ([measured x m, measured y n].map .ok) = rows.map .ok ∧
          groups.seen.keys.mapM (greatestByX.row groups) = .ok rows :=
      run_final (fun _ => rfl) hgroups
    obtain ⟨rows, hrows, -⟩ := hrun
    rw [hrows] at hitem
    obtain ⟨row, -, rfl⟩ := List.mem_map.mp hitem
    exact ⟨row, rfl⟩
  exact final_ignores_arrival_order greatestByX ⟨.unlabelled 0, .empty⟩ _ _
    (fun _ => .quiet) (fun _ => .quiet) ⟨by decide, trivial, trivial⟩ Scope.empty_bounded
    (List.forall_mem_cons.mpr
      ⟨measured_bounded _ _, List.forall_mem_singleton.mpr (measured_bounded _ _)⟩)
    (by decide)
    (List.forall_mem_cons.mpr
      ⟨measured_exact _ _ _ (List.mem_singleton_self _), measured_exact _ _⟩)
    (List.Perm.swap _ _ []) (hok _ _ _ _) (hok _ _ _ _)

end Grouping

end StreamQuery
