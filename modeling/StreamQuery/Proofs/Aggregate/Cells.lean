import StreamQuery.Aggregate.Cell
import StreamQuery.Proofs.Outcome

/-!
# Which values a cell takes

Once the kind of a value is settled, little can go wrong with it: extremes
compare values of one kind, which always have an order, and means read any
number. Only a sum that is exact can refuse a value of the right kind, when the
new total is out of range (`step_ok`). The cell then stands to the values taken
for the group as before (`Reflects.step`), so that the total in question is the
sum of the group's values and not just whatever the cell holds.
-/

namespace StreamQuery

namespace Value

/-- What an integer or a duration counts for in an exact total. -/
def amount : Value → Int
  | .int n => n.toInt
  | .duration d => d.nanos
  | _ => 0

def amounts : List Value → Int
  | [] => 0
  | v :: rest => v.amount + amounts rest

theorem amounts_append_singleton (values : List Value) (v : Value) :
    amounts (values ++ [v]) = amounts values + v.amount := by
  induction values with
  | nil => simp [amounts]
  | cons w rest ih =>
    rw [List.cons_append, amounts, amounts, ih]
    omega

theorem exists_compare {a b : Value} (h : a.kind = b.kind)
    (ha : a.kind ∈ AggregateFunction.max.acceptedKinds) : ∃ order, a.compare b = .ok order := by
  cases a <;> cases b <;>
    first | exact ⟨_, rfl⟩ | simp [kind, AggregateFunction.acceptedKinds] at h ha

end Value

-- ---------------------------------------------------------------------------
-- Exact totals
-- ---------------------------------------------------------------------------

theorem toInt_of_addInt64? {a b n : Int64} (h : addInt64? a b = some n) :
    n.toInt = a.toInt + b.toInt := by
  simp only [addInt64?, Option.ite_none_right_eq_some, Option.some.injEq] at h
  obtain ⟨hrange, rfl⟩ := h
  exact Int64.toInt_ofInt_of_le hrange.1 (Int.lt_add_one_of_le hrange.2)

namespace AggregateFunction

/-- The function can keep this total of values of the kind. -/
def Affords : AggregateFunction → ValueKind → Int → Prop
  | .sum, .int, total => Int64.minValue.toInt ≤ total ∧ total ≤ Int64.maxValue.toInt
  | .sum, .duration, total => FitsSeconds total
  | _, _, _ => True

theorem affords_amount (v : Value) : sum.Affords v.kind v.amount := by
  cases v with
  | int n => exact ⟨n.le_toInt, Int.le_of_lt_add_one n.toInt_lt⟩
  | duration d => exact d.range
  | _ => trivial

end AggregateFunction

namespace Total

variable {old v next : Value}

theorem exists_elim_ok {result : Option Value} :
    (∃ next, result.elim (Except.error e) Except.ok = .ok next) ↔ result.isSome := by
  cases result <;> simp

theorem first_ok : first v = .ok next ↔ v.kind ∈ AggregateFunction.sum.acceptedKinds ∧ next = v := by
  cases v <;> simp [first, Value.kind, AggregateFunction.acceptedKinds, eq_comm]

/-- A total grows by what a value counts for, unless it would go out of range. -/
theorem add_ok (hkind : old.kind = v.kind) (hv : v.kind ∈ AggregateFunction.sum.acceptedKinds) :
    (∃ next, add old v = .ok next) ↔
      AggregateFunction.sum.Affords v.kind (old.amount + v.amount) := by
  cases v with
  | int n =>
    cases old with
    | int m =>
      rw [add, exists_elim_ok, Option.isSome_map, addInt64?, Option.isSome_ite]
      rfl
    | _ => cases hkind
  | float x =>
    cases old with
    | float y => exact ⟨fun _ => trivial, fun _ => ⟨_, rfl⟩⟩
    | _ => cases hkind
  | duration d =>
    cases old with
    | duration e =>
      rw [add, exists_elim_ok, Option.isSome_map, Duration.add?, Duration.ofNanos?,
        Option.isSome_dite]
      rfl
    | _ => cases hkind
  | _ => simp [Value.kind, AggregateFunction.acceptedKinds] at hv

theorem amount_add (h : add old v = .ok next) :
    next.kind = v.kind ∧ next.amount = old.amount + v.amount := by
  unfold add at h
  split at h
  · rename_i m n
    cases ht : addInt64? m n with
    | none => simp [ht] at h
    | some t =>
      simp only [ht, Option.map_some, Option.elim_some, Except.ok.injEq] at h
      subst h
      exact ⟨rfl, toInt_of_addInt64? ht⟩
  · cases h
    exact ⟨rfl, rfl⟩
  · rename_i d e
    cases ht : d.add? e with
    | none => simp [ht] at h
    | some t =>
      simp only [ht, Option.map_some, Option.elim_some, Except.ok.injEq] at h
      subst h
      exact ⟨rfl, Duration.nanos_of_ofNanos? ht⟩
  · cases h

end Total

-- ---------------------------------------------------------------------------
-- Extremes
-- ---------------------------------------------------------------------------

namespace Direction

variable {direction : Direction} {current v next : Value}

theorem exists_extreme (hkind : current.kind = v.kind)
    (hv : v.kind ∈ AggregateFunction.max.acceptedKinds) :
    ∃ next, direction.extreme current v = .ok next := by
  obtain ⟨order, ho⟩ := Value.exists_compare hkind.symm hv
  have hdisplaces : ∃ b, direction.displaces v current = .ok b := by
    unfold displaces
    split
    · exact ⟨_, rfl⟩
    · exact ⟨_, rfl⟩
    · exact ⟨_, by rw [ho]; rfl⟩
  obtain ⟨b, hb⟩ := hdisplaces
  exact ⟨_, by rw [extreme, hb]; rfl⟩

theorem extreme_ok (h : direction.extreme current v = .ok next) : next = v ∨ next = current := by
  obtain ⟨b, -, hb⟩ := bind_ok.mp h
  cases b <;> cases hb
  · exact .inr rfl
  · exact .inl rfl

end Direction

-- ---------------------------------------------------------------------------
-- Cells
-- ---------------------------------------------------------------------------

namespace AggregateFunction

variable {f : AggregateFunction} {kind : ValueKind} {values : List Value} {v : Value}

/-- How a cell stands to the values of its group, which are all of one kind. -/
def Holds : (f : AggregateFunction) → ValueKind → List Value → f.Cell → Prop
  | .avg, _, _, _ | .count, _, _, _ => True
  | .max, kind, _, v | .min, kind, _, v => v.kind = kind
  | .sum, kind, values, total => total.kind = kind ∧ total.amount = Value.amounts values

/-- A group has a cell once it has values, and the cell stands to them as it should. -/
def Reflects (f : AggregateFunction) (kind : ValueKind) (values : List Value) :
    Option f.Cell → Prop
  | none => values = []
  | some cell => values ≠ [] ∧ f.Holds kind values cell

theorem Reflects.isSome {cell : Option f.Cell} (h : f.Reflects kind values cell) :
    cell.isSome ↔ values ≠ [] := by
  cases cell with
  | none => simp [show values = [] from h]
  | some c => simp [h.1]

/-- A value of an accepted kind is refused only where the new total of its
group does not fit. -/
theorem step_ok {cell : Option f.Cell} (hv : v.kind ∈ f.acceptedKinds)
    (h : f.Reflects v.kind values cell) :
    (∃ next, f.step cell v = .ok next) ↔ f.Affords v.kind (Value.amounts values + v.amount) := by
  cases f with
  | avg =>
    refine ⟨fun _ => by simp [Affords], fun _ => ?_⟩
    cases v <;> first | exact ⟨_, rfl⟩ | simp [Value.kind, acceptedKinds] at hv
  | count => exact ⟨fun _ => by simp [Affords], fun _ => ⟨_, rfl⟩⟩
  | max =>
    refine ⟨fun _ => by simp [Affords], fun _ => ?_⟩
    cases cell with
    | none => exact ⟨v, rfl⟩
    | some current => exact Direction.exists_extreme h.2 hv
  | min =>
    refine ⟨fun _ => by simp [Affords], fun _ => ?_⟩
    cases cell with
    | none => exact ⟨v, rfl⟩
    | some current => exact Direction.exists_extreme h.2 hv
  | sum =>
    cases cell with
    | none =>
      cases h
      refine ⟨fun _ => ?_, fun _ => ⟨v, Total.first_ok.mpr ⟨hv, rfl⟩⟩⟩
      rw [Value.amounts, Int.zero_add]
      exact affords_amount v
    | some old =>
      rw [← h.2.2]
      exact Total.add_ok h.2.1 hv

theorem Reflects.step {cell : Option f.Cell} {next : f.Cell} (h : f.Reflects v.kind values cell)
    (hs : f.step cell v = .ok next) : f.Reflects v.kind (values ++ [v]) (some next) := by
  refine ⟨by simp, ?_⟩
  cases f with
  | avg | count => trivial
  | max | min =>
    cases cell with
    | none =>
      cases hs
      rfl
    | some current =>
      rcases Direction.extreme_ok hs with rfl | rfl
      · rfl
      · exact h.2
  | sum =>
    cases cell with
    | none =>
      cases h
      obtain ⟨-, rfl⟩ := Total.first_ok.mp hs
      exact ⟨rfl, (Int.add_zero _).symm⟩
    | some old =>
      obtain ⟨hkind, hamount⟩ := Total.amount_add hs
      exact ⟨hkind, by rw [hamount, h.2.2, Value.amounts_append_singleton]⟩

end AggregateFunction

end StreamQuery
