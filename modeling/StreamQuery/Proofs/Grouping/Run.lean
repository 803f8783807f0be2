import StreamQuery.Operator.Group
import StreamQuery.Proofs.Outcome
import StreamQuery.Proofs.Stream

/-!
# Runs of a grouping operator

While nothing stops the query, the output of a run depends on the items of the
source alone, and not on when they are asked for: `collect_group` says which
list it is. What one record does to the groups is the same under both
emissions (`takeIn`); they differ in the rows they tell of it.
-/

namespace StreamQuery

/-- At none of these moments is the query cancelled or overdue. -/
def Query.Undisturbed (query : Query) (moments : Nat → Signals) : Prop :=
  ∀ k, query.check (moments k) = .ok ()

theorem Query.Undisturbed.later {query : Query} (h : query.Undisturbed moments) (n : Nat) :
    query.Undisturbed (later n moments) := fun k => h (k + n)

namespace Grouping

def emitting (g : Grouping) (emission : Emission) : Grouping := { g with emission }

theorem emitting_self {g : Grouping} {emission : Emission} (h : g.emission = emission) :
    g.emitting emission = g := by
  subst h
  rfl

@[simp] theorem evaluate_emitting (g : Grouping) (emission : Emission) :
    (g.emitting emission).evaluate = g.evaluate := rfl

@[simp] theorem row_emitting (g : Grouping) (emission : Emission) :
    (g.emitting emission).row = g.row := rfl

@[simp] theorem previousRow_emitting (g : Grouping) (emission : Emission) :
    (g.emitting emission).previousRow = g.previousRow := rfl

@[simp] theorem begin_emitting (g : Grouping) (emission : Emission) :
    (g.emitting emission).begin = g.begin := rfl

/-- The items that a grouping makes of the items of its source. -/
def emit (g : Grouping) (scope : Scope) : List Item → Groups → List Item
  | [], groups =>
    match g.finish groups with
    | .ok rows => rows.map .ok
    | .error e => [.error e]
  | item :: rest, groups =>
    match item.bind (g.accept scope groups) with
    | .ok (rows, after) => rows.map .ok ++ emit g scope rest after
    | .error e => [.error e]

theorem emit_of_accept {g : Grouping} (h : g.accept scope groups record = .ok (rows, after))
    (rest : List Item) :
    g.emit scope (.ok record :: rest) groups = rows.map .ok ++ g.emit scope rest after := by
  simp only [emit, Except.bind, h]

theorem consume_of_check {g : Grouping} {execution : Execution}
    (h : execution.query.check signals = .ok ()) :
    g.consume execution signals groups = g.accept execution.scope groups := by
  funext record
  rw [consume, h, ok_bind]

theorem collect_group {g : Grouping} {execution : Execution} {items : List Item} {groups : Groups}
    (h : execution.query.Undisturbed moments) :
    ((RecordStream.ofItems items).group g execution groups).collect moments =
      g.emit execution.scope items groups := by
  induction items generalizing groups moments with
  | nil =>
    rw [RecordStream.collect_next]
    simp only [RecordStream.ofItems_nil, RecordStream.empty, RecordStream.group,
      RecordStream.next, Pull.group, emit]
    cases g.finish groups with
    | error e => rfl
    | ok rows =>
      exact (RecordStream.collect_next _ _).symm.trans (RecordStream.collect_ofItems _ _)
  | cons item rest ih =>
    rw [RecordStream.collect_next]
    simp only [RecordStream.ofItems_cons, RecordStream.cons, RecordStream.group,
      RecordStream.next, Pull.group, emit, consume_of_check (h 0)]
    cases item.bind (g.accept execution.scope groups) with
    | error e => rfl
    | ok taken =>
      obtain ⟨rows, after⟩ := taken
      refine (RecordStream.collect_next _ _).symm.trans ?_
      rw [RecordStream.collect_prepend]
      exact congrArg _ (ih (h.later _))

def run (g : Grouping) (execution : Execution) (moments : Nat → Signals) (items : List Item) :
    List Item :=
  ((RecordStream.ofItems items).group g execution g.begin).collect moments

theorem run_eq_emit {g : Grouping} {execution : Execution}
    (h : execution.query.Undisturbed moments) :
    g.run execution moments items = g.emit execution.scope items g.begin :=
  collect_group h

-- ---------------------------------------------------------------------------
-- One record
-- ---------------------------------------------------------------------------

def takeIn (g : Grouping) (scope : Scope) (groups : Groups) (record : Record) :
    Except Error (GroupKey × Groups) := do
  if record.isRetraction then
    .error (.invalidArgument do
      return s!"group by cannot consume retraction {← record.render}")
  let (key, inputs) ← g.evaluate scope record
  return (key, ← absorb groups key inputs)

theorem takeIn_ok {g : Grouping} {key : GroupKey} {record : Record} :
    g.takeIn scope groups record = .ok (key, after) ↔
      record.isRetraction = false ∧ ∃ inputs, g.evaluate scope record = .ok (key, inputs) ∧
        absorb groups key inputs = .ok after := by
  unfold takeIn
  cases record.isRetraction with
  | true => simp [error_bind]
  | false =>
    simp only [Bool.false_eq_true, ↓reduceIte, bind_ok, pure_ok, Prod.mk.injEq]
    constructor
    · rintro ⟨⟨k, inputs⟩, he, groups', ha, rfl, rfl⟩
      exact ⟨trivial, inputs, he, ha⟩
    · rintro ⟨-, inputs, he, ha⟩
      exact ⟨(key, inputs), he, after, ha, rfl, rfl⟩

theorem takeIn_error {g : Grouping} {record : Record} : g.takeIn scope groups record = .error e ↔
    (record.isRetraction ∧ e = .invalidArgument do
      return s!"group by cannot consume retraction {← record.render}") ∨
    record.isRetraction = false ∧ (g.evaluate scope record = .error e ∨
      ∃ key inputs, g.evaluate scope record = .ok (key, inputs) ∧
        addAll key groups.aggregates inputs = .error e) := by
  unfold takeIn absorb
  cases record.isRetraction with
  | true => simp [error_bind, eq_comm]
  | false =>
    simp only [Bool.false_eq_true, ↓reduceIte, bind_error]
    simp [pure, Except.pure]

theorem accept_final {g : Grouping} : (g.emitting .final).accept scope groups record =
    (g.takeIn scope groups record).map fun taken => ([], taken.2) := by
  unfold accept takeIn
  cases record.isRetraction with
  | true => rfl
  | false =>
    simp only [Bool.false_eq_true, ↓reduceIte, evaluate_emitting]
    cases g.evaluate scope record with
    | error e => rfl
    | ok evaluated =>
      simp only [emitting, ok_bind]
      cases absorb groups evaluated.1 evaluated.2 <;> rfl

def takeAll (g : Grouping) (scope : Scope) : List Record → Groups → Except Error Groups
  | [], groups => .ok groups
  | record :: rest, groups => do
    let (_, after) ← g.takeIn scope groups record
    g.takeAll scope rest after

theorem emit_final {g : Grouping} {groups : Groups} {records : List Record} :
    (g.emitting .final).emit scope (records.map .ok) groups =
      match g.takeAll scope records groups with
      | .ok after => (g.emitting .final).emit scope [] after
      | .error e => [.error e] := by
  induction records generalizing groups with
  | nil => rfl
  | cons record rest ih =>
    simp only [List.map_cons, takeAll]
    rw [emit]
    simp only [Except.bind, accept_final]
    cases g.takeIn scope groups record with
    | error e => rfl
    | ok taken => exact ih

end Grouping

end StreamQuery
