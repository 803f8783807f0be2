import StreamQuery.Condition.Eval
import StreamQuery.Proofs.Value.Comparison
import StreamQuery.Proofs.Value.Encoding

/-!
# Relations follow the order of values

The relations that compare inherit the laws of the order: `>` is `<` with its
operands exchanged, and of two values that have an order and are not null
exactly one of `>`, `=` and `<` holds, the one that the order names
(`Relation.holds_of_compare`). `comparison_consistent` states these laws
together with those of the order itself.
-/

namespace StreamQuery

namespace Relation

variable {a b : Value} {relation : Relation}

def ofOrdering : Ordering → Relation
  | .lt => .lessThan
  | .eq => .equal
  | .gt => .moreThan

theorem ordered_of_null {wanted : Ordering} (h : a.isNull || b.isNull) :
    holds.ordered a b wanted = .ok false := if_pos h

theorem ordered_of_not_null {wanted : Ordering} (h : ¬ (a.isNull || b.isNull)) :
    holds.ordered a b wanted = (do return (← a.compare b) == wanted) := if_neg h

theorem moreThan_exchanged (a b : Value) :
    Exchanged id (moreThan.holds a b) (lessThan.holds b a) := by
  change Exchanged id (holds.ordered a b .gt) (holds.ordered b a .lt)
  by_cases h : a.isNull || b.isNull
  · rw [ordered_of_null h, ordered_of_null (Bool.or_comm _ _ ▸ h)]
    exact .ok false
  · rw [ordered_of_not_null h, ordered_of_not_null (Bool.or_comm _ _ ▸ h)]
    have hexchanged := Value.compare_exchanged a b
    generalize a.compare b = forth, b.compare a = back at hexchanged ⊢
    cases hexchanged with
    | ok order =>
      have hswap : (order.swap == .lt) = (order == .gt) := by cases order <;> rfl
      change Exchanged id (.ok (order == .gt)) (.ok (order.swap == .lt))
      rw [hswap]
      exact .ok _
    | mismatch left right => exact .mismatch left right

theorem holds_of_compare {order : Ordering} (ha : a.isNull = false) (hb : b.isNull = false)
    (h : a.compare b = .ok order) (hr : relation ∈ [moreThan, equal, lessThan]) :
    relation.holds a b = .ok (relation == ofOrdering order) := by
  have hordered : ∀ wanted, holds.ordered a b wanted = .ok (order == wanted) := by
    intro wanted
    rw [ordered_of_not_null (by simp [ha, hb]), h]
    rfl
  simp only [List.mem_cons, List.not_mem_nil, or_false] at hr
  rcases hr with rfl | rfl | rfl
  · exact (hordered .gt).trans (by cases order <;> rfl)
  · have heq : (a == b) = (order == .eq) := by
      rw [Bool.eq_iff_iff, ← Value.compare_eq_iff, h, Except.ok.injEq, beq_iff_eq]
    exact congrArg Except.ok (heq.trans (by cases order <;> rfl))
  · exact (hordered .lt).trans (by cases order <;> rfl)

end Relation

/-- Two values compare as equal exactly when they are equal, which is when
their canonical bytes are. With the two sides exchanged the order is reversed,
and a mismatch names the kinds the other way round. A value that is less than
a lesser one is less. With its operands exchanged `>` becomes `<`, and of two
values with an order neither of which is null exactly one of `>`, `=` and `<`
holds.

Premise: where bytes are compared, all lengths in the values fit eight bytes. -/
theorem comparison_consistent :
    (∀ a b : Value, a.compare b = .ok .eq ↔ a == b) ∧
    (∀ a b : Value, a.Bounded → b.Bounded →
      (a.compare b = .ok .eq ↔ a.canonical = b.canonical)) ∧
    (∀ a b : Value, Exchanged Ordering.swap (a.compare b) (b.compare a)) ∧
    (∀ a b c : Value, a.compare b = .ok .lt → b.compare c = .ok .lt → a.compare c = .ok .lt) ∧
    (∀ a b : Value, Exchanged id (Relation.moreThan.holds a b) (Relation.lessThan.holds b a)) ∧
    (∀ (a b : Value) (order : Ordering), a.isNull = false → b.isNull = false →
      a.compare b = .ok order → ∀ relation ∈ [Relation.moreThan, .equal, .lessThan],
        relation.holds a b = .ok (relation == Relation.ofOrdering order)) := by
  refine ⟨fun a b => Value.compare_eq_iff, fun a b ha hb => ?_, Value.compare_exchanged,
    Value.compare_lt_trans, Relation.moreThan_exchanged,
    fun a b order ha hb h relation hr => Relation.holds_of_compare ha hb h hr⟩
  rw [Value.compare_eq_iff, Value.canonical_eq_iff ha hb]

theorem comparison_consistent_on_pairs :
    (Value.tuple [.int 1, .string "a"]).compare (.tuple [.int 1, .string "b"]) = .ok .lt ∧
    (Value.tuple [.int 1, .string "b"]).compare (.tuple [.int 2, .bool true]) = .ok .lt ∧
    (Value.tuple [.int 1, .string "a"]).compare (.tuple [.int 2, .bool true]) = .ok .lt ∧
    (∀ relation ∈ [Relation.moreThan, .equal, .lessThan],
      relation.holds (.tuple [.int 1, .string "a"]) (.tuple [.int 2, .bool true]) =
        .ok (relation == .lessThan)) ∧
    (Value.float Double.zero.neg).canonical = (Value.float .zero).canonical := by
  have hab : (Value.tuple [.int 1, .string "a"]).compare (.tuple [.int 1, .string "b"]) = .ok .lt :=
    rfl
  have hbc : (Value.tuple [.int 1, .string "b"]).compare (.tuple [.int 2, .bool true]) = .ok .lt :=
    rfl
  obtain ⟨-, hbytes, -, htrans, -, hone⟩ := comparison_consistent
  have hac := htrans _ _ _ hab hbc
  exact ⟨hab, hbc, hac, hone _ _ .lt rfl rfl hac, (hbytes _ _ (by decide) (by decide)).mp rfl⟩

end StreamQuery
