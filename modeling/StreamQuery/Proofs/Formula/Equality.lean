import StreamQuery.Formula.Basic
import StreamQuery.Proofs.Value.Equality

/-!
# Equality of expressions and formulas

Two formulas are equal when they have the same shape and equal constants in the
same places, which is to say that their normal forms are the same
(`Formula.beq_iff`). Only constants have a normal form of their own.
-/

namespace StreamQuery

namespace Expression

mutual

def normal : Expression → Expression
  | .var name => .var name
  | .const v => .const v.normal
  | .tuple items => .tuple (normalItems items)
termination_by structural e => e

def normalItems : List Expression → List Expression
  | [] => []
  | e :: rest => normal e :: normalItems rest
termination_by structural items => items

end

mutual

theorem beq_iff_normal : (a b : Expression) → (beq a b = true ↔ a.normal = b.normal)
  | .var name, b => by cases b <;> simp [beq, normal]
  | .const v, b => by
    cases b with
    | const w => simpa [beq, normal] using Value.eq_iff_normal
    | _ => simp [beq, normal]
  | .tuple as, b => by
    cases b with
    | tuple bs => simpa [beq, normal] using beqItems_iff_normal as bs
    | _ => simp [beq, normal]
termination_by structural a => a

theorem beqItems_iff_normal : (as bs : List Expression) →
    (beqItems as bs = true ↔ normalItems as = normalItems bs)
  | [], bs => by cases bs <;> simp [beqItems, normalItems]
  | a :: as, bs => by
    cases bs with
    | nil => simp [beqItems, normalItems]
    | cons b bs => simp [beqItems, normalItems, beq_iff_normal a b, beqItems_iff_normal as bs]
termination_by structural as => as

end

theorem beq_iff {a b : Expression} : a == b ↔ a.normal = b.normal := beq_iff_normal a b

theorem normal_eq_var {e : Expression} {name : Name} : e.normal = .var name ↔ e = .var name := by
  cases e <;> simp [normal]

end Expression

namespace Formula

def normal : Formula → Formula
  | .and left right => .and left.normal right.normal
  | .or left right => .or left.normal right.normal
  | .not inner => .not inner.normal
  | .const b => .const b
  | .predicate left relation right => .predicate left.normal relation right.normal

theorem beq_iff_normal (f g : Formula) : beq f g = true ↔ f.normal = g.normal := by
  induction f generalizing g with
  | and left right ihl ihr | or left right ihl ihr =>
    cases g <;> simp [beq, normal, ihl, ihr]
  | not inner ih => cases g <;> simp [beq, normal, ih]
  | const b => cases g <;> simp [beq, normal]
  | predicate left relation right =>
    cases g <;> simp [beq, normal, Expression.beq_iff, and_assoc]

theorem beq_iff {f g : Formula} : f == g ↔ f.normal = g.normal := beq_iff_normal f g

theorem beq_const {f : Formula} {b : Bool} : f == .const b ↔ f = .const b := by
  cases f <;> simp [beq_iff, normal]

end Formula

end StreamQuery
