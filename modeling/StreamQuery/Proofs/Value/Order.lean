import StreamQuery.Proofs.Value.Equality
import StreamQuery.Value.Order

/-!
# The order of equal values

Equal values cannot be told apart by comparing them with others: a value and
its normal form have the same order with every value, or fail alike
(`Value.compare_normal`).
-/

namespace StreamQuery

theorem Double.totalOrder_normalize (x y : Double) :
    x.normalize.totalOrder y.normalize = x.totalOrder y := by
  rw [totalOrder, totalOrder, normalize_normalize, normalize_normalize]

namespace Value

mutual

theorem compare_normal : (a b : Value) → a.normal.compare b.normal = a.compare b
  | .null, b | .int _, b | .string _, b | .bool _, b | .time _, b | .duration _, b => by
    cases b <;> rfl
  | .float x, b => by
    cases b with
    | float y => exact congrArg Except.ok (x.totalOrder_normalize y)
    | _ => rfl
  | .tuple as, b => by
    cases b with
    | tuple bs => exact compareItems_normal as bs
    | _ => rfl
  | .object as, b => by
    cases b with
    | object bs => exact compareFields_normal as bs
    | _ => rfl
termination_by structural a => a

theorem compareItems_normal : (as bs : List Value) →
    compareItems (normalItems as) (normalItems bs) = compareItems as bs
  | [], bs => by cases bs <;> rfl
  | a :: as, bs => by
    cases bs with
    | nil => rfl
    | cons b bs =>
      simp only [normalItems, compareItems]
      rw [compare_normal a b, compareItems_normal as bs]
termination_by structural as => as

theorem compareFields_normal : (as bs : List (String × Value)) →
    compareFields (normalFields as) (normalFields bs) = compareFields as bs
  | [], bs => by cases bs <;> rfl
  | (m, a) :: as, bs => by
    cases bs with
    | nil => rfl
    | cons field bs =>
      simp only [normalFields, compareFields]
      rw [compare_normal a field.2, compareFields_normal as bs]
termination_by structural as => as

end

end Value

end StreamQuery
