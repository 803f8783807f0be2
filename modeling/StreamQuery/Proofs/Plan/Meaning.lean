import StreamQuery.Proofs.Operator.Equivalence
import StreamQuery.Proofs.Plan.Faults
import StreamQuery.Proofs.Plan.Rewrite

/-!
# Rewriting keeps meanings

Hooks that leave every expression and every formula its outcome in all scopes
make a rewriting that does so too (`rewrite_preserves_meaning`). A hook is given
a node whose children were rewritten before, so the induction needs of a node
that it means the same whenever its children do. A plan over a table in memory
then compiles to the very same operator or fails with the very same failure.
-/

namespace StreamQuery

-- ---------------------------------------------------------------------------
-- Rewriting expressions and formulas
-- ---------------------------------------------------------------------------

variable {m : Type → Type} [Monad m] {β : Type}

/-- Hooks without effects that leave every expression and formula its outcome in
all scopes. There are none for plans. -/
structure Hooks.Preserving (hooks : Hooks m β) : Prop where
  expression : ∀ kind hook, hooks.expression kind = some hook → ∀ e : Expression, e.kind = kind →
    ∃ e', hook e = pure e' ∧ e'.Equivalent e
  formula : ∀ kind hook, hooks.formula kind = some hook → ∀ f : Formula, f.kind = kind →
    ∃ f', hook f = pure f' ∧ f'.Equivalent f
  plan : ∀ kind, hooks.plan kind = .none

namespace Hooks.Preserving

variable {hooks : Hooks m β}

theorem applyExpression (h : hooks.Preserving) (e : Expression) :
    ∃ e', hooks.applyExpression e = pure e' ∧ e'.Equivalent e := by
  unfold Hooks.applyExpression
  split
  · rename_i hook hhook
    exact h.expression _ hook hhook e rfl
  · exact ⟨e, rfl, fun _ => rfl⟩

theorem applyFormula (h : hooks.Preserving) (f : Formula) :
    ∃ f', hooks.applyFormula f = pure f' ∧ f'.Equivalent f := by
  unfold Hooks.applyFormula
  split
  · rename_i hook hhook
    exact h.formula _ hook hhook f rfl
  · exact ⟨f, rfl, fun _ => rfl⟩

theorem applyPlan (h : hooks.Preserving) (plan : Plan β) : hooks.applyPlan plan = pure plan := by
  rw [Hooks.applyPlan, h.plan]

end Hooks.Preserving

section
variable [LawfulMonad m] {hooks : Hooks m β}

namespace Expression

theorem rewrite_node (h : hooks.Preserving) {e : Expression} {children : List Expression}
    (hchildren : e.children.val.mapM (rewrite hooks) = pure children)
    (hnode : (e.withChildren children).Equivalent e) :
    ∃ e', e.rewrite hooks = pure e' ∧ e'.Equivalent e := by
  obtain ⟨e', hhook, he'⟩ := h.applyExpression (e.withChildren children)
  refine ⟨e', ?_, fun scope => (he' scope).trans (hnode scope)⟩
  rw [rewrite_step, hchildren, pure_bind, hhook, lift_pure]

mutual

theorem rewrite_equivalent (h : hooks.Preserving) :
    (e : Expression) → ∃ e', e.rewrite hooks = pure e' ∧ e'.Equivalent e
  | .var _ | .const _ => rewrite_node h List.mapM_nil fun _ => rfl
  | .tuple items => by
    obtain ⟨items', hitems, heq⟩ := rewrite_items h items
    exact rewrite_node h hitems (.tuple heq)
termination_by structural e => e

theorem rewrite_items (h : hooks.Preserving) : (items : List Expression) →
    ∃ items', items.mapM (rewrite hooks) = pure items' ∧ List.Forall₂ Equivalent items' items
  | [] => ⟨[], List.mapM_nil, .nil⟩
  | e :: rest => by
    obtain ⟨e', he, heq⟩ := rewrite_equivalent h e
    obtain ⟨rest', hrest, hall⟩ := rewrite_items h rest
    exact ⟨e' :: rest', by rw [List.mapM_cons, he, pure_bind, hrest, pure_bind], .cons heq hall⟩
termination_by structural items => items

end

end Expression

namespace Formula

theorem rewrite_node (h : hooks.Preserving) {f rebuilt : Formula} {children : List Formula}
    (hchildren : f.children.val.mapM (rewrite hooks) = pure children)
    (hrebuilt : f.rebuild hooks children = pure rebuilt) (hnode : rebuilt.Equivalent f) :
    ∃ f', f.rewrite hooks = pure f' ∧ f'.Equivalent f := by
  obtain ⟨f', hhook, hf'⟩ := h.applyFormula rebuilt
  refine ⟨f', ?_, fun scope => (hf' scope).trans (hnode scope)⟩
  rw [rewrite_step, hchildren, pure_bind, hrebuilt, pure_bind, hhook, lift_pure]

theorem mapM_rewrite_pair {left left' right right' : Formula} (hl : left.rewrite hooks = pure left')
    (hr : right.rewrite hooks = pure right') :
    [left, right].mapM (rewrite hooks) = pure [left', right'] := by
  simp only [List.mapM_cons, List.mapM_nil, hl, hr, pure_bind]

theorem rewrite_equivalent (h : hooks.Preserving) (f : Formula) :
    ∃ f', f.rewrite hooks = pure f' ∧ f'.Equivalent f := by
  induction f with
  | and left right ihl ihr =>
    obtain ⟨left', hl, hleft⟩ := ihl
    obtain ⟨right', hr, hright⟩ := ihr
    exact rewrite_node h (mapM_rewrite_pair hl hr) (pure_bind _ _) (hleft.and hright)
  | or left right ihl ihr =>
    obtain ⟨left', hl, hleft⟩ := ihl
    obtain ⟨right', hr, hright⟩ := ihr
    exact rewrite_node h (mapM_rewrite_pair hl hr) (pure_bind _ _) (hleft.or hright)
  | not inner ih =>
    obtain ⟨inner', hi, hinner⟩ := ih
    have hchildren : [inner].mapM (rewrite hooks) = pure [inner'] := by
      simp only [List.mapM_cons, List.mapM_nil, hi, pure_bind]
    exact rewrite_node h hchildren (pure_bind _ _) hinner.not
  | const b => exact rewrite_node h List.mapM_nil rfl fun _ => rfl
  | predicate left relation right =>
    obtain ⟨left', hl, hleft⟩ := Expression.rewrite_equivalent h left
    obtain ⟨right', hr, hright⟩ := Expression.rewrite_equivalent h right
    have hrebuilt : (predicate left relation right).rebuild hooks [] =
        pure (.predicate left' relation right') := by
      rw [rebuild, hl, pure_bind, hr, pure_bind]
    exact rewrite_node h List.mapM_nil hrebuilt (equivalent_predicate relation hleft hright)

end Formula

-- ---------------------------------------------------------------------------
-- Plans
-- ---------------------------------------------------------------------------

structure GroupSpec.Alike (spec spec' : GroupSpec) : Prop where
  key : List.Forall₂ Expression.Equivalent spec.key spec'.key
  fields : List.Forall₂ Expression.Equivalent spec.fields spec'.fields
  aggregates : spec.aggregates = spec'.aggregates
  output : spec.output = spec'.output
  emission : spec.emission = spec'.emission

/-- Plans of the same steps with equivalent formulas and expressions in them. -/
inductive Plan.Alike : Plan β → Plan β → Prop
  | requalify (qualifier : String) {source source' : Plan β} (h : Alike source source') :
      Alike (.requalify qualifier source) (.requalify qualifier source')
  | filter {f f' : Formula} {source source' : Plan β} (hf : f.Equivalent f')
      (h : Alike source source') : Alike (.filter f source) (.filter f' source')
  | group {spec spec' : GroupSpec} {source source' : Plan β} (hspec : spec.Alike spec')
      (h : Alike source source') : Alike (.group spec source) (.group spec' source')
  | scan (table : β) (qualifier : String) {f f' : Formula} (hf : f.Equivalent f') :
      Alike (.scan table qualifier f) (.scan table qualifier f')

theorem GroupSpec.rewrite_alike (h : hooks.Preserving) (spec : GroupSpec) :
    ∃ spec', spec.rewrite hooks = pure spec' ∧ spec'.Alike spec := by
  obtain ⟨key, hkey, hkeys⟩ := Expression.rewrite_items h spec.key
  obtain ⟨fields, hfields, hinputs⟩ := Expression.rewrite_items h spec.fields
  refine ⟨{ spec with key, fields }, ?_, hkeys, hinputs, rfl, rfl, rfl⟩
  rw [rewrite, hkey, pure_bind, hfields, pure_bind]

theorem Plan.rewrite_alike (h : hooks.Preserving) {query : Query} {signals : Signals}
    (hcheck : query.check signals = .ok ()) (plan : Plan β) :
    ∃ plan', plan.rewrite hooks query signals = pure plan' ∧ plan'.Alike plan := by
  induction plan with
  | requalify qualifier source ih =>
    obtain ⟨source', hsource, halike⟩ := ih
    refine ⟨_, ?_, .requalify qualifier halike⟩
    rw [rewrite, hcheck, liftOutcome_ok, pure_bind, hsource, pure_bind, h.applyPlan, lift_pure]
  | filter f source ih =>
    obtain ⟨f', hf, hequivalent⟩ := f.rewrite_equivalent h
    obtain ⟨source', hsource, halike⟩ := ih
    refine ⟨_, ?_, .filter hequivalent halike⟩
    rw [rewrite, hcheck, liftOutcome_ok, pure_bind, hf, pure_bind, hsource, pure_bind, h.applyPlan,
      lift_pure]
  | group spec source ih =>
    obtain ⟨source', hsource, halike⟩ := ih
    obtain ⟨spec', hspec, hspecs⟩ := spec.rewrite_alike h
    refine ⟨_, ?_, .group hspecs halike⟩
    rw [rewrite, hcheck, liftOutcome_ok, pure_bind, hsource, pure_bind, hspec, pure_bind,
      h.applyPlan, lift_pure]
  | scan table qualifier f =>
    obtain ⟨f', hf, hequivalent⟩ := f.rewrite_equivalent h
    refine ⟨_, ?_, .scan table qualifier hequivalent⟩
    rw [rewrite, hcheck, liftOutcome_ok, pure_bind, hf, pure_bind, h.applyPlan, lift_pure]

end

-- ---------------------------------------------------------------------------
-- Compiled plans
-- ---------------------------------------------------------------------------

theorem GroupSpec.Alike.compile {spec spec' : GroupSpec} (h : spec.Alike spec')
    (source : Operator m) :
    (Operator.group · source) <$> spec.compile = (Operator.group · source) <$> spec'.compile := by
  have hkey := h.key.length_eq
  have hfields := h.fields.length_eq
  rw [compile_eq, compile_eq, h.aggregates, h.output, h.emission]
  cases spec'.aggregates.mapM AggregateFunction.ofName with
  | error e => rfl
  | ok functions =>
    simp only [ok_bind, Grouping.make, Expression.length_compiledItems, hkey, hfields]
    split
    · split
      · refine congrArg Except.ok (Grouping.Alike.operator ?_ source)
        exact ⟨Expression.Equivalent.evalItems h.key, Expression.Equivalent.evalItems h.fields,
          rfl, rfl, rfl⟩
      · rfl
    · rfl

namespace Plan

def table : Plan β → β
  | .requalify _ source | .filter _ source | .group _ source => source.table
  | .scan table _ _ => table

theorem Alike.table {plan plan' : Plan β} (h : plan.Alike plan') : plan.table = plan'.table := by
  induction h with
  | requalify _ _ ih | filter _ _ ih | group _ _ ih => exact ih
  | scan => rfl

theorem bind_liftOutcome [LawfulMonad m] {α : Type} (result : Except Error α) (f : α → Operator m) :
    (do return f (← liftOutcome result) : ExceptT Error m (Operator m)) =
      liftOutcome (f <$> result) := by
  cases result with
  | error e => exact pure_bind _ _
  | ok a => exact pure_bind _ _

theorem Alike.compile [LawfulMonad m] {plan plan' : Plan β} (h : plan.Alike plan')
    {tables : β → Table m} {memory : MemoryTable} (hmemory : tables plan.table = memory.toTable)
    (query : Query) (signals : Signals) :
    plan.compile tables query signals = plan'.compile tables query signals := by
  induction h with
  | requalify qualifier _ ih => rw [Plan.compile, Plan.compile, ih hmemory]
  | filter hf _ ih =>
    rw [Plan.compile, Plan.compile, ih hmemory]
    simp only [Formula.compile_eq, liftOutcome_ok, pure_bind, Operator.filter_congr hf]
  | group hspec _ ih =>
    rw [Plan.compile, Plan.compile, ih hmemory]
    simp only [bind_liftOutcome, hspec.compile]
  | scan table qualifier hf =>
    rw [Plan.compile, Plan.compile, show tables table = memory.toTable from hmemory]
    simp only [MemoryTable.toTable, memory.compile_congr hf]

end Plan

namespace Hooks

/-- Rewriting with hooks that keep every outcome keeps every outcome. What it
makes of a plan over a table in memory compiles, for any query at any moment,
with the same failure as the plan or to the same operator, and so to the same
stream in every execution. -/
theorem rewrite_preserves_meaning [LawfulMonad m] (hooks : Hooks m β) (h : hooks.Preserving) :
    (∀ e : Expression, ∃ e', e.rewrite hooks = pure e' ∧
      ∀ scope, e'.evaluate scope = e.evaluate scope) ∧
    (∀ f : Formula, ∃ f', f.rewrite hooks = pure f' ∧
      ∀ scope, f'.evaluate scope = f.evaluate scope) ∧
    ∀ (plan : Plan β) (query : Query) (signals : Signals), query.check signals = .ok () →
      ∃ plan', plan.rewrite hooks query signals = pure plan' ∧
        ∀ (tables : β → Table m) (memory : MemoryTable), tables plan.table = memory.toTable →
          ∀ other moment, plan'.compile tables other moment = plan.compile tables other moment := by
  refine ⟨Expression.rewrite_equivalent h, Formula.rewrite_equivalent h, ?_⟩
  intro plan query signals hcheck
  obtain ⟨plan', hrewrite, halike⟩ := plan.rewrite_alike h hcheck
  refine ⟨plan', hrewrite, fun tables memory hmemory other moment => ?_⟩
  exact halike.compile (halike.table ▸ hmemory) other moment

def decideConstants : Formula → Formula
  | .predicate (.const v) relation (.const w) =>
    match relation.holds v w with
    | .ok b => .const b
    | .error _ => .predicate (.const v) relation (.const w)
  | f => f

theorem decideConstants_equivalent (f : Formula) : (decideConstants f).Equivalent f := by
  unfold decideConstants
  split
  · split
    · rename_i hholds
      exact Formula.equivalent_iff.mpr fun scope => hholds.symm
    · exact fun scope => rfl
  · exact fun scope => rfl

def constantFolding : Hooks Id β where
  expression _ := .none
  formula
    | .predicate => some fun f => pure (decideConstants f)
    | _ => .none
  plan _ := .none

theorem preserving_constantFolding : (constantFolding : Hooks Id β).Preserving where
  expression _ _ h := by cases h
  formula kind hook h f _ := by
    cases kind <;> cases h
    exact ⟨decideConstants f, rfl, decideConstants_equivalent f⟩
  plan _ := rfl

def vacuous : Plan Unit := .scan () "t" (.predicate (.const (.int 1)) .equal (.const (.int 1)))

def singleRow : MemoryTable := ⟨"numbers", ["n"], [[.int 1]], by decide⟩

theorem rewrite_vacuous :
    vacuous.rewrite constantFolding (.unlabelled 0) .quiet = pure (.scan () "t" (.const true)) := by
  have hnone : (constantFolding : Hooks Id Unit).hasNoExpression := rfl
  rw [vacuous, Plan.rewrite, Formula.rewrite_step]
  simp only [Formula.children, List.mapM_nil, pure_bind, Formula.rebuild,
    Expression.rewrite_of_hasNo hnone]
  rfl

/-- The rewritten plan takes the short cut of the table. -/
theorem rewrite_preserves_meaning_of_vacuous :
    (constantFolding : Hooks Id Unit).Preserving ∧
    vacuous.rewrite constantFolding (.unlabelled 0) .quiet = pure (.scan () "t" (.const true)) ∧
    (Plan.scan () "t" (.const true)).compile (m := Id) (fun _ => singleRow.toTable) (.unlabelled 0)
        .quiet =
      vacuous.compile (fun _ => singleRow.toTable) (.unlabelled 0) .quiet := by
  obtain ⟨-, -, hplans⟩ := rewrite_preserves_meaning constantFolding preserving_constantFolding
  obtain ⟨plan', hrewrite, hcompile⟩ := hplans vacuous (.unlabelled 0) .quiet rfl
  have hplan : (pure plan' : ExceptT Error Id (Plan Unit)) = pure (.scan () "t" (.const true)) :=
    hrewrite.symm.trans rewrite_vacuous
  cases hplan
  exact ⟨preserving_constantFolding, hrewrite,
    hcompile (fun _ => singleRow.toTable) singleRow rfl _ _⟩

end Hooks

end StreamQuery
