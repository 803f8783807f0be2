import StreamQuery.Plan.Rewrite
import StreamQuery.Proofs.BottomUp

/-!
# Rewriting, one node at a time

Rewriting an expression or a formula rewrites its children, puts them in its
place, and gives the result to the hook of its kind (`Expression.rewrite_step`,
`Formula.rewrite_step`). This holds with any hooks: where none could apply and
nothing is rebuilt, rebuilding would have changed nothing.
-/

namespace StreamQuery

-- ---------------------------------------------------------------------------
-- Tables without hooks
-- ---------------------------------------------------------------------------

namespace Hooks

variable {m : Type → Type} {β : Type} {hooks : Hooks m β}

theorem expression_eq_none (h : hooks.hasNoExpression) (kind : ExpressionKind) :
    hooks.expression kind = .none := by
  simp only [hasNoExpression, ExpressionKind.all, List.all_cons, List.all_nil, Bool.and_eq_true,
    Option.isNone_iff_eq_none] at h
  cases kind <;> simp only [h]

theorem formula_eq_none (h : hooks.hasNoFormula) (kind : FormulaKind) :
    hooks.formula kind = .none := by
  simp only [hasNoFormula, FormulaKind.all, List.all_cons, List.all_nil, Bool.and_eq_true,
    Option.isNone_iff_eq_none] at h
  cases kind <;> simp only [h]

theorem plan_eq_none (h : hooks.hasNoPlan) (kind : PlanKind) : hooks.plan kind = .none := by
  simp only [hasNoPlan, PlanKind.all, List.all_cons, List.all_nil, Bool.and_eq_true,
    Option.isNone_iff_eq_none] at h
  cases kind <;> simp only [h]

end Hooks

variable {m : Type → Type} [Monad m] {β : Type} {hooks : Hooks m β}

namespace Hooks

theorem applyExpression_of_hasNo (h : hooks.hasNoExpression) (e : Expression) :
    hooks.applyExpression e = pure e := by
  rw [applyExpression, expression_eq_none h]

theorem applyFormula_of_hasNo (h : hooks.hasNoFormula) (f : Formula) :
    hooks.applyFormula f = pure f := by
  rw [applyFormula, formula_eq_none h]

end Hooks

theorem lift_pure [LawfulMonad m] (a : α) :
    (ExceptT.lift (pure a) : ExceptT ε m α) = pure a :=
  congrArg ExceptT.mk (map_pure _ _)

-- ---------------------------------------------------------------------------
-- Expressions
-- ---------------------------------------------------------------------------

namespace Expression

theorem withChildren_self (e : Expression) : e.withChildren e.children.val = e := by
  cases e <;> rfl

theorem rewrite_of_hasNo (h : hooks.hasNoExpression) : rewrite hooks = pure :=
  funext fun _ => if_pos h

theorem rewrite_step [LawfulMonad m] (e : Expression) : e.rewrite hooks = (do
    let children ← e.children.val.mapM (rewrite hooks)
    ExceptT.lift (hooks.applyExpression (e.withChildren children))) := by
  by_cases h : hooks.hasNoExpression
  · -- Nothing is rebuilt, and rebuilding gives the same.
    rw [rewrite_of_hasNo h, List.mapM_pure, pure_bind, List.map_id', withChildren_self,
      Hooks.applyExpression_of_hasNo h, lift_pure]
  · have hfold : rewrite hooks = BottomUp.foldPure children fun e children =>
        ExceptT.lift (hooks.applyExpression (e.withChildren children)) :=
      funext fun _ => if_neg h
    rw [hfold, BottomUp.foldPure_eq]

end Expression

-- ---------------------------------------------------------------------------
-- Formulas
-- ---------------------------------------------------------------------------

namespace Formula

theorem rebuild_self [LawfulMonad m] (h : hooks.hasNoExpression) (f : Formula) :
    f.rebuild hooks f.children.val = pure f := by
  cases f with
  | and left right | or left right => exact pure_bind _ _
  | not inner => exact pure_bind _ _
  | const b => rfl
  | predicate left relation right =>
    rw [rebuild, Expression.rewrite_of_hasNo h, pure_bind, pure_bind]

theorem rewrite_of_hasNo (h : hooks.hasNoFormula && hooks.hasNoExpression) : rewrite hooks = pure :=
  funext fun _ => if_pos h

theorem rewrite_step [LawfulMonad m] (f : Formula) : f.rewrite hooks = (do
    let children ← f.children.val.mapM (rewrite hooks)
    let rebuilt ← f.rebuild hooks children
    ExceptT.lift (hooks.applyFormula rebuilt)) := by
  by_cases h : hooks.hasNoFormula && hooks.hasNoExpression
  · obtain ⟨hformula, hexpression⟩ := Bool.and_eq_true_iff.mp h
    rw [rewrite_of_hasNo h, List.mapM_pure, pure_bind, List.map_id', rebuild_self hexpression,
      pure_bind, Hooks.applyFormula_of_hasNo hformula, lift_pure]
  · have hfold : rewrite hooks = BottomUp.foldPure children (fun f children => do
        let rebuilt ← f.rebuild hooks children
        ExceptT.lift (hooks.applyFormula rebuilt)) :=
      funext fun _ => if_neg h
    rw [hfold, BottomUp.foldPure_eq]

end Formula

end StreamQuery
