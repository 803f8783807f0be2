import StreamQuery.BottomUp
import StreamQuery.Formula.Basic

/-!
# Expressions and formulas as trees

The children that folds visit. A predicate is a leaf among formulas: its
operands are trees of their own.

What a tree reads and how it splits are found by walking over it with a stack of
the parts still to visit, the next one first, so that long chains of connectives
need no deep recursion. Finds are put behind those made before.
-/

namespace StreamQuery

namespace Expression

theorem sizeOf_pos (e : Expression) : 0 < sizeOf e := by
  cases e <;> simp only [var.sizeOf_spec, const.sizeOf_spec, tuple.sizeOf_spec] <;> omega

theorem total_sizeOf_items (items : List Expression) :
    total sizeOf items < sizeOf (tuple items) := by
  have h := total_sizeOf_lt items
  simp only [tuple.sizeOf_spec]
  omega

def children : (e : Expression) → Children e
  | .var name => ⟨[], sizeOf_pos (.var name)⟩
  | .const v => ⟨[], sizeOf_pos (.const v)⟩
  | .tuple items => ⟨items, total_sizeOf_items items⟩

def withChildren (children : List Expression) : Expression → Expression
  | .tuple _ => .tuple children
  | e => e

def collect : List Expression → Array Name → Array Name
  | [], found => found
  | .var name :: work, found => collect work (found.push name)
  | .const _ :: work, found => collect work found
  | .tuple items :: work, found => collect (items ++ work) found
termination_by work => total sizeOf work
decreasing_by
  · simp only [total, var.sizeOf_spec]
    omega
  · simp only [total, const.sizeOf_spec]
    omega
  · have h := total_sizeOf_items items
    simp only [total, total_append]
    omega

/-- The columns an expression reads, each as often as it stands there. -/
def reads (e : Expression) : List Name := (collect [e] #[]).toList

end Expression

namespace Formula

theorem sizeOf_pos (f : Formula) : 0 < sizeOf f := by
  cases f <;>
    simp only [and.sizeOf_spec, or.sizeOf_spec, not.sizeOf_spec, const.sizeOf_spec,
      predicate.sizeOf_spec] <;>
    omega

theorem total_sizeOf_and (left right : Formula) :
    total sizeOf [left, right] < sizeOf (and left right) := by
  simp only [total, and.sizeOf_spec]
  omega

theorem total_sizeOf_or (left right : Formula) :
    total sizeOf [left, right] < sizeOf (or left right) := by
  simp only [total, or.sizeOf_spec]
  omega

theorem total_sizeOf_not (inner : Formula) : total sizeOf [inner] < sizeOf (not inner) := by
  simp only [total, not.sizeOf_spec]
  omega

def children : (f : Formula) → Children f
  | .and left right => ⟨[left, right], total_sizeOf_and left right⟩
  | .or left right => ⟨[left, right], total_sizeOf_or left right⟩
  | .not inner => ⟨[inner], total_sizeOf_not inner⟩
  | .const b => ⟨[], sizeOf_pos (.const b)⟩
  | .predicate left relation right => ⟨[], sizeOf_pos (.predicate left relation right)⟩

def collect : List Formula → Array Name → Array Name
  | [], found => found
  | .and left right :: work, found => collect (left :: right :: work) found
  | .or left right :: work, found => collect (left :: right :: work) found
  | .not inner :: work, found => collect (inner :: work) found
  | .const _ :: work, found => collect work found
  | .predicate left _ right :: work, found =>
    collect work (Expression.collect [right] (Expression.collect [left] found))
termination_by work => total sizeOf work
decreasing_by
  all_goals
    simp only [total, and.sizeOf_spec, or.sizeOf_spec, not.sizeOf_spec, const.sizeOf_spec,
      predicate.sizeOf_spec]
    omega

def reads (f : Formula) : List Name := (collect [f] #[]).toList

/-- Takes the conjunctions on a stack apart and adds what they are made of. -/
def split : List Formula → Array Formula → Array Formula
  | [], found => found
  | .and left right :: work, found => split (left :: right :: work) found
  | f :: work, found => split work (found.push f)
termination_by work => total sizeOf work
decreasing_by
  · simp only [total, and.sizeOf_spec]
    omega
  · have h := sizeOf_pos f
    simp only [total]
    omega

def conjuncts (f : Formula) : List Formula := (split [f] #[]).toList

end Formula

def takeTwo {α : Type} : List α → Except Error (α × α)
  | [left, right] => .ok (left, right)
  | _ => .error (.internal "binary formula expects two children")

def takeOne {α : Type} : List α → Except Error α
  | [inner] => .ok inner
  | _ => .error (.internal "unary formula expects one child")

end StreamQuery
