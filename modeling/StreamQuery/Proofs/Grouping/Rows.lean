import StreamQuery.Proofs.Aggregate.Isolation
import StreamQuery.Proofs.Grouping.Bounds
import StreamQuery.Proofs.Grouping.Run

/-!
# Rows of groups

In every state that a run reaches, each group that was seen has a value in
every aggregate. That is the invariant `Serves`; it makes looking up a row
succeed (`Serves.exists_row`), and every record that is taken in keeps it
(`Serves.takeIn`). A record changes the row of its own group only
(`row_takeIn_of_ne`).
-/

namespace StreamQuery

namespace Record

variable {names : List Name} {values : List Value}

theorem ofLists_ok : ofLists names values = .ok row ↔
    names.length = values.length ∧ row = ⟨names.zip values, false⟩ := by
  unfold ofLists
  split
  · rename_i h
    simp [h, eq_comm]
  · rename_i h
    simp [h]

theorem names_zip (h : names.length = values.length) :
    (Record.mk (names.zip values) flag).names = names :=
  List.map_fst_zip (Nat.le_of_eq h)

theorem values_zip (h : names.length = values.length) :
    (Record.mk (names.zip values) flag).values = values :=
  List.map_snd_zip (Nat.le_of_eq h.symm)

end Record

namespace Aggregate

theorem get_congr {aggregate : Aggregate} (h : key.canonical = other.canonical) :
    aggregate.get key = .ok w ↔ aggregate.get other = .ok w :=
  Accumulator.get_congr h

def Report (aggregates : List Aggregate) (key : GroupKey) (values : List Value) : Prop :=
  List.Forall₂ (fun aggregate v => aggregate.get key = .ok v) aggregates values

theorem Report.congr (h : key.canonical = other.canonical) :
    Report aggregates key values ↔ Report aggregates other values := by
  unfold Report
  simp only [get_congr h]

theorem Report.exists_value (h : Report aggregates key values) :
    ∀ aggregate ∈ aggregates, ∃ v, aggregate.get key = .ok v := by
  induction h with
  | nil => simp
  | cons hv _ ih =>
    intro a ha
    rcases List.mem_cons.mp ha with rfl | ha
    · exact ⟨_, hv⟩
    · exact ih a ha

theorem exists_report (h : ∀ aggregate ∈ aggregates, ∃ v, aggregate.get key = .ok v) :
    ∃ values, Report aggregates key values :=
  exists_forall₂ h

end Aggregate

namespace Grouping

open Aggregate (Report)

variable {g : Grouping} {scope : Scope} {groups after : Groups} {record r : Record}
  {key other : GroupKey} {inputs : List Value} {aggregates rest : List Aggregate}

-- ---------------------------------------------------------------------------
-- All aggregates take their input
-- ---------------------------------------------------------------------------

theorem addAll_cons_ok : addAll key (aggregate :: aggregates) (v :: inputs) = .ok added ↔
    (aggregate.accumulator.add key v).1 = .ok () ∧ ∃ rest, addAll key aggregates inputs = .ok rest ∧
      added = ⟨aggregate.function, (aggregate.accumulator.add key v).2⟩ :: rest := by
  simp only [addAll, Aggregate.add]
  cases h : (aggregate.accumulator.add key v).1 with
  | error e => simp
  | ok u => simp [map_ok]

theorem addAll_cons_error : addAll key (aggregate :: aggregates) (v :: inputs) = .error e ↔
    (aggregate.add key v).1 = .error e ∨
      (aggregate.add key v).1 = .ok () ∧ addAll key aggregates inputs = .error e := by
  simp only [addAll]
  obtain ⟨outcome, added⟩ := aggregate.add key v
  cases outcome with
  | error e' => simp
  | ok taken => simp [map_error]

/-- Gives each aggregate its input, up to the first that refuses. What the ones
before it have taken, they keep. -/
def addEach (key : GroupKey) : List Aggregate → List Value → Except Error Unit × List Aggregate
  | aggregate :: aggregates, v :: inputs =>
    match aggregate.add key v with
    | (.error e, added) => (.error e, added :: aggregates)
    | (.ok (), added) =>
      let (outcome, others) := addEach key aggregates inputs
      (outcome, added :: others)
  | aggregates, _ => (.ok (), aggregates)

theorem addAll_eq (key : GroupKey) (aggregates : List Aggregate) (inputs : List Value) :
    addAll key aggregates inputs = (addEach key aggregates inputs).1.map fun _ =>
      (addEach key aggregates inputs).2 := by
  induction aggregates generalizing inputs with
  | nil => cases inputs <;> rfl
  | cons aggregate aggregates ih =>
    cases inputs with
    | nil => rfl
    | cons v inputs =>
      unfold addAll addEach
      obtain ⟨outcome, added⟩ := aggregate.add key v
      cases outcome with
      | error e => rfl
      | ok taken =>
        simp only [ih]
        cases (addEach key aggregates inputs).1 <;> rfl

theorem functions_addAll (h : addAll key aggregates inputs = .ok added) :
    added.map Aggregate.function = aggregates.map Aggregate.function := by
  induction aggregates generalizing inputs added with
  | nil =>
    cases inputs <;> cases h <;> rfl
  | cons aggregate aggregates ih =>
    cases inputs with
    | nil =>
      cases h
      rfl
    | cons v inputs =>
      obtain ⟨-, rest, hrest, rfl⟩ := addAll_cons_ok.mp h
      simp [ih hrest]

theorem length_addAll (h : addAll key aggregates inputs = .ok added) :
    added.length = aggregates.length := by
  simpa using congrArg List.length (functions_addAll h)

theorem report_addAll_of_ne (h : addAll key aggregates inputs = .ok added)
    (hne : key.canonical ≠ other.canonical) (hr : Report aggregates other values) :
    Report added other values := by
  induction aggregates generalizing inputs added values with
  | nil =>
    cases inputs <;> cases h <;> exact hr
  | cons aggregate aggregates ih =>
    cases inputs with
    | nil =>
      cases h
      exact hr
    | cons v inputs =>
      obtain ⟨-, rest, hrest, rfl⟩ := addAll_cons_ok.mp h
      cases hr with
      | cons hv hvs => exact .cons (Accumulator.get_add_of_ne hne hv) (ih hrest hvs)

theorem getElem?_addAll {a : Aggregate} {j : Nat} (h : addAll key aggregates inputs = .ok added)
    (hlen : inputs.length = aggregates.length) (ha : added[j]? = some a) :
    ∃ (aggregate : Aggregate) (v : Value), aggregates[j]? = some aggregate ∧ inputs[j]? = some v ∧
      (aggregate.accumulator.add key v).1 = .ok () ∧
      a = ⟨aggregate.function, (aggregate.accumulator.add key v).2⟩ := by
  induction aggregates generalizing inputs added j with
  | nil =>
    cases inputs <;> cases h <;> simp at ha
  | cons aggregate aggregates ih =>
    cases inputs with
    | nil => simp at hlen
    | cons v inputs =>
      obtain ⟨hv, rest, hrest, rfl⟩ := addAll_cons_ok.mp h
      cases j with
      | zero => exact ⟨aggregate, v, rfl, rfl, hv, (Option.some.inj ha).symm⟩
      | succ j => exact ih hrest (by simpa using hlen) ha

theorem get_addAll_self (h : addAll key aggregates inputs = .ok added)
    (hlen : inputs.length = aggregates.length) :
    ∀ aggregate ∈ added, ∃ v, aggregate.get key = .ok v := by
  intro a ha
  obtain ⟨j, hj⟩ := List.mem_iff_getElem?.mp ha
  obtain ⟨aggregate, v, -, -, hv, rfl⟩ := getElem?_addAll h hlen hj
  exact Accumulator.get_add_self hv

theorem absorb_ok : absorb groups key inputs = .ok after ↔
    ∃ aggregates, addAll key groups.aggregates inputs = .ok aggregates ∧
      after = ⟨aggregates, groups.seen.upsert key () id⟩ := by
  simp [absorb, map_ok]

-- ---------------------------------------------------------------------------
-- Looking up a row
-- ---------------------------------------------------------------------------

theorem row_ok : g.row groups key = .ok r ↔ ∃ values, Report groups.aggregates key values ∧
    g.output.length = (key.values ++ values).length ∧
      r = ⟨g.output.zip (key.values ++ values), false⟩ := by
  simp only [row, bind_ok, mapM_ok, Record.ofLists_ok, Report]

/-- Each group that was seen has a value in every aggregate, and a key of the
length that rows are made for. -/
structure Serves (g : Grouping) (groups : Groups) : Prop where
  width : groups.aggregates.length = g.functions.length
  lengths : ∀ key ∈ groups.seen.keys, key.values.length = g.key.length
  reported : ∀ key, groups.seen.contains key →
    ∀ aggregate ∈ groups.aggregates, ∃ v, aggregate.get key = .ok v

theorem serves_begin (g : Grouping) : Serves g g.begin where
  width := by simp [Grouping.begin]
  lengths key hk := by simp [Grouping.begin] at hk
  reported key hk := by simp [Grouping.begin] at hk

theorem Serves.exists_row (h : Serves g groups) (hk : groups.seen.contains key)
    (hlen : key.values.length = g.key.length) : ∃ r, g.row groups key = .ok r := by
  obtain ⟨values, hr⟩ := Aggregate.exists_report (h.reported key hk)
  refine ⟨_, row_ok.mpr ⟨values, hr, ?_, rfl⟩⟩
  have hvalues : groups.aggregates.length = values.length := List.Forall₂.length_eq hr
  rw [g.output_length, List.length_append, hlen, ← hvalues, h.width]

theorem Serves.exists_rows (h : Serves g groups) :
    ∃ rows, groups.seen.keys.mapM (g.row groups) = .ok rows :=
  exists_mapM_ok fun key hk =>
    h.exists_row (GroupTable.contains_iff.mpr ⟨key, hk, rfl⟩) (h.lengths key hk)

theorem seen_takeIn (h : g.takeIn scope groups record = .ok (key, after)) :
    after.seen = groups.seen.upsert key () id := by
  obtain ⟨-, inputs, -, ha⟩ := takeIn_ok.mp h
  obtain ⟨aggregates, -, rfl⟩ := absorb_ok.mp ha
  rfl

theorem contains_takeIn (h : g.takeIn scope groups record = .ok (key, after)) :
    after.seen.contains other ↔ key.canonical = other.canonical ∨ groups.seen.contains other := by
  rw [seen_takeIn h, GroupTable.contains_upsert]

theorem key_length_takeIn (h : g.takeIn scope groups record = .ok (key, after)) :
    key.values.length = g.key.length := by
  obtain ⟨-, inputs, he, -⟩ := takeIn_ok.mp h
  exact evaluate_key_length he

theorem mem_keys_takeIn (h : g.takeIn scope groups record = .ok (key, after)) :
    other ∈ after.seen.keys → other ∈ groups.seen.keys ∨ other = key := by
  rw [seen_takeIn h, GroupTable.keys_upsert]
  split
  · exact .inl
  · simp

theorem bounded_takeIn (h : g.takeIn scope groups record = .ok (key, after))
    (hkeys : ∀ k ∈ groups.seen.keys, k.Bounded) (hb : key.Bounded) :
    ∀ k ∈ after.seen.keys, k.Bounded := by
  intro k hk
  rcases mem_keys_takeIn h hk with hk | rfl
  · exact hkeys k hk
  · exact hb

theorem Serves.takeIn (h : Serves g groups) (ht : g.takeIn scope groups record = .ok (key, after)) :
    Serves g after := by
  have hcontains : ∀ other, after.seen.contains other ↔
      key.canonical = other.canonical ∨ groups.seen.contains other := fun _ => contains_takeIn ht
  have hlengths : ∀ other ∈ after.seen.keys, other.values.length = g.key.length := by
    intro other hk
    rcases mem_keys_takeIn ht hk with hk | rfl
    · exact h.lengths other hk
    · exact key_length_takeIn ht
  obtain ⟨-, inputs, he, ha⟩ := takeIn_ok.mp ht
  obtain ⟨aggregates, hadd, rfl⟩ := absorb_ok.mp ha
  refine ⟨(length_addAll hadd).trans h.width, hlengths, fun other hk => ?_⟩
  by_cases heq : key.canonical = other.canonical
  · intro aggregate hmem
    have hlen := (evaluate_inputs_length he).trans h.width.symm
    obtain ⟨v, hv⟩ := get_addAll_self hadd hlen aggregate hmem
    exact ⟨v, (Aggregate.get_congr heq).mp hv⟩
  · have hseen := ((hcontains other).mp hk).resolve_left heq
    obtain ⟨values, hr⟩ := Aggregate.exists_report (h.reported other hseen)
    exact (report_addAll_of_ne hadd heq hr).exists_value

theorem Serves.takeAll {records : List Record} (h : Serves g groups)
    (ht : g.takeAll scope records groups = .ok after) : Serves g after := by
  induction records generalizing groups with
  | nil =>
    cases ht
    exact h
  | cons record rest ih =>
    obtain ⟨⟨key, between⟩, htake, hrest⟩ := bind_ok.mp ht
    exact ih (h.takeIn htake) hrest

theorem functions_takeIn (h : g.takeIn scope groups record = .ok (key, after)) :
    after.aggregates.map Aggregate.function = groups.aggregates.map Aggregate.function := by
  obtain ⟨-, inputs, -, ha⟩ := takeIn_ok.mp h
  obtain ⟨aggregates, hadd, rfl⟩ := absorb_ok.mp ha
  exact functions_addAll hadd

theorem Serves.getElem?_takeIn (h : Serves g groups)
    (ht : g.takeIn scope groups record = .ok (key, after))
    (he : g.evaluate scope record = .ok (key, inputs)) {column : Nat} {added : Aggregate}
    (ha : after.aggregates[column]? = some added) :
    ∃ (aggregate : Aggregate) (v : Value), groups.aggregates[column]? = some aggregate ∧
      inputs[column]? = some v ∧ (aggregate.accumulator.add key v).1 = .ok () ∧
      added = ⟨aggregate.function, (aggregate.accumulator.add key v).2⟩ := by
  obtain ⟨-, taken, he', habsorb⟩ := takeIn_ok.mp ht
  rw [he] at he'
  cases he'
  obtain ⟨aggregates, hadd, rfl⟩ := absorb_ok.mp habsorb
  exact getElem?_addAll hadd ((evaluate_inputs_length he).trans h.width.symm) ha

/-- What every record preserves, of the groups and of what the records so far
evaluated to, holds after all of them. -/
theorem Serves.takeAll_invariant {invariant : Groups → List (GroupKey × List Value) → Prop}
    {records : List Record} (hg : g.Bounded) (hs : scope.Bounded)
    (hrecords : ∀ record ∈ records, record.Bounded)
    (hstep : ∀ {groups after : Groups} {evaluated : List (GroupKey × List Value)} {record : Record}
      {key : GroupKey} {inputs : List Value}, record ∈ records → Serves g groups →
        invariant groups evaluated → g.takeIn scope groups record = .ok (key, after) →
          g.evaluate scope record = .ok (key, inputs) → key.Bounded →
            invariant after (evaluated ++ [(key, inputs)]))
    {evaluated : List (GroupKey × List Value)} (h : Serves g groups)
    (hi : invariant groups evaluated) (ht : g.takeAll scope records groups = .ok after) :
    ∃ more, records.mapM (g.evaluate scope) = .ok more ∧ invariant after (evaluated ++ more) := by
  induction records generalizing groups evaluated with
  | nil =>
    cases ht
    exact ⟨[], rfl, by rwa [List.append_nil]⟩
  | cons record rest ih =>
    obtain ⟨⟨key, between⟩, htake, hrest⟩ := bind_ok.mp ht
    obtain ⟨-, inputs, he, -⟩ := takeIn_ok.mp htake
    have hb : key.Bounded := evaluate_bounded hg hs (hrecords record List.mem_cons_self) he
    obtain ⟨more, hmore, hinvariant⟩ := ih (fun r hr => hrecords r (List.mem_cons_of_mem _ hr))
      (fun hr => hstep (List.mem_cons_of_mem _ hr)) (h.takeIn htake)
      (hstep List.mem_cons_self h hi htake he hb) hrest
    refine ⟨(key, inputs) :: more, ?_, by rwa [List.append_cons]⟩
    rw [List.mapM_cons, he, ok_bind, hmore]
    rfl

theorem run_final {execution : Execution} {records : List Record}
    (h : execution.query.Undisturbed moments)
    (ht : g.takeAll execution.scope records g.begin = .ok groups) :
    ∃ rows, (g.emitting .final).run execution moments (records.map .ok) = rows.map .ok ∧
      groups.seen.keys.mapM (g.row groups) = .ok rows := by
  obtain ⟨rows, hrows⟩ := ((serves_begin g).takeAll ht).exists_rows
  have hfinish : (g.emitting .final).finish groups = .ok rows := hrows
  refine ⟨rows, ?_, hrows⟩
  rw [run_eq_emit h, emit_final, begin_emitting, ht]
  simp only [emit, hfinish]

theorem row_takeIn_of_ne (ht : g.takeIn scope groups record = .ok (key, after))
    (hne : key.canonical ≠ other.canonical) (hr : g.row groups other = .ok r) :
    g.row after other = .ok r := by
  obtain ⟨-, inputs, he, ha⟩ := takeIn_ok.mp ht
  obtain ⟨aggregates, hadd, rfl⟩ := absorb_ok.mp ha
  obtain ⟨values, hvalues, hrow⟩ := row_ok.mp hr
  exact row_ok.mpr ⟨values, report_addAll_of_ne hadd hne hvalues, hrow⟩

theorem previousRow_ok : g.previousRow groups key = .ok previous ↔
    (∃ r, groups.seen.contains key ∧ g.row groups key = .ok r ∧ previous = some r) ∨
      (¬ groups.seen.contains key ∧ previous = none) := by
  unfold previousRow
  split
  · rename_i h
    simp [map_ok, h]
  · rename_i h
    simp [h, eq_comm]

theorem Serves.exists_previousRow (h : Serves g groups) (hlen : key.values.length = g.key.length) :
    ∃ previous, g.previousRow groups key = .ok previous := by
  by_cases hk : groups.seen.contains key
  · obtain ⟨r, hr⟩ := h.exists_row hk hlen
    exact ⟨some r, previousRow_ok.mpr (.inl ⟨r, hk, hr, rfl⟩)⟩
  · exact ⟨none, previousRow_ok.mpr (.inr ⟨hk, rfl⟩)⟩

/-- As the row before is always there, it does not matter that it is looked up
before the aggregates take the record in. -/
theorem accept_updates (h : Serves g groups) :
    (g.emitting .updates).accept scope groups record = (do
      let (key, after) ← g.takeIn scope groups record
      let previous ← g.previousRow groups key
      return (changes previous (← g.row after key), after)) := by
  unfold accept takeIn
  cases record.isRetraction with
  | true => rfl
  | false =>
    simp only [Bool.false_eq_true, ↓reduceIte, evaluate_emitting, row_emitting,
      previousRow_emitting]
    cases he : g.evaluate scope record with
    | error e => rfl
    | ok evaluated =>
      obtain ⟨key, inputs⟩ := evaluated
      obtain ⟨previous, hp⟩ := h.exists_previousRow (evaluate_key_length he)
      simp only [emitting, ok_bind, hp]
      cases absorb groups key inputs with
      | error e => rfl
      | ok after => simp only [ok_bind, pure_bind, hp]

end Grouping

end StreamQuery
