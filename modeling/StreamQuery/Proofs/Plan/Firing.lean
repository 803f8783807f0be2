import StreamQuery.Proofs.Plan.Rewrite
import StreamQuery.Proofs.Recording

/-!
# Rewriting as one pass

Rewriting remakes an element from the leaves up (`remake`): its parts are remade
first, from left to right, the element is put together from them, and the hook of
its kind is applied to it. `Fires` says which calls of hooks this takes, and what
each of them is given.
-/

namespace StreamQuery

variable {m : Type → Type} [Monad m] {β σ : Type}

-- ---------------------------------------------------------------------------
-- The recursion
-- ---------------------------------------------------------------------------

mutual

def Expression.remake (hooks : Hooks m β) : Expression → m Expression
  | .var name => hooks.applyExpression (.var name)
  | .const v => hooks.applyExpression (.const v)
  | .tuple items => do
    let items ← Expression.remakeItems hooks items
    hooks.applyExpression (.tuple items)
termination_by structural e => e

def Expression.remakeItems (hooks : Hooks m β) : List Expression → m (List Expression)
  | [] => pure []
  | e :: rest => do
    let made ← e.remake hooks
    let others ← Expression.remakeItems hooks rest
    return made :: others
termination_by structural items => items

end

def Formula.remake (hooks : Hooks m β) : Formula → m Formula
  | .and left right => do
    let left ← left.remake hooks
    let right ← right.remake hooks
    hooks.applyFormula (.and left right)
  | .or left right => do
    let left ← left.remake hooks
    let right ← right.remake hooks
    hooks.applyFormula (.or left right)
  | .not inner => do
    let inner ← inner.remake hooks
    hooks.applyFormula (.not inner)
  | .const b => hooks.applyFormula (.const b)
  | .predicate left relation right => do
    let left ← left.remake hooks
    let right ← right.remake hooks
    hooks.applyFormula (.predicate left relation right)

def Plan.remake (hooks : Hooks m β) : Plan β → m (Plan β)
  | .requalify qualifier source => do
    let source ← source.remake hooks
    hooks.applyPlan (.requalify qualifier source)
  | .filter formula source => do
    let formula ← formula.remake hooks
    let source ← source.remake hooks
    hooks.applyPlan (.filter formula source)
  | .group spec source => do
    let source ← source.remake hooks
    let key ← Expression.remakeItems hooks spec.key
    let fields ← Expression.remakeItems hooks spec.fields
    hooks.applyPlan (.group { spec with key, fields } source)
  | .scan table qualifier formula => do
    let formula ← formula.remake hooks
    hooks.applyPlan (.scan table qualifier formula)

section Recursion

variable [LawfulMonad m] {hooks : Hooks m β}

theorem mapM_lift {f : α → m γ} {g : α → ExceptT ε m γ} {xs : List α}
    (h : ∀ a ∈ xs, g a = ExceptT.lift (f a)) : xs.mapM g = ExceptT.lift (xs.mapM f) := by
  induction xs with
  | nil => rw [List.mapM_nil, List.mapM_nil, lift_pure]
  | cons a xs ih =>
    have hrest := ih fun b hb => h b (List.mem_cons_of_mem a hb)
    simp only [List.mapM_cons, h a List.mem_cons_self, hrest, ExceptT.lift_bind, lift_pure]

namespace Expression

theorem remakeItems_eq (items : List Expression) :
    remakeItems hooks items = items.mapM (remake hooks) := by
  induction items with
  | nil => rw [remakeItems, List.mapM_nil]
  | cons e rest ih => rw [remakeItems, List.mapM_cons, ih]

theorem remake_eq (e : Expression) : e.remake hooks = (do
    let children ← e.children.val.mapM (remake hooks)
    hooks.applyExpression (e.withChildren children)) := by
  cases e with
  | var name | const v =>
    rw [remake, children, List.mapM_nil, pure_bind]
    rfl
  | tuple items =>
    rw [remake, remakeItems_eq]
    rfl

theorem eq_remake {walk : Expression → ExceptT Error m Expression}
    (h : ∀ e, walk e = (do
      let children ← e.children.val.mapM walk
      ExceptT.lift (hooks.applyExpression (e.withChildren children)))) (e : Expression) :
    walk e = ExceptT.lift (e.remake hooks) := by
  have hchildren : ∀ child ∈ e.children.val, walk child = ExceptT.lift (child.remake hooks) :=
    fun child hmem => eq_remake h child
  rw [h, mapM_lift hchildren, remake_eq, ExceptT.lift_bind]
termination_by sizeOf e
decreasing_by exact e.children.sizeOf_lt hmem

theorem rewrite_eq_remake (e : Expression) : e.rewrite hooks = ExceptT.lift (e.remake hooks) :=
  eq_remake rewrite_step e

end Expression

namespace Formula

theorem eq_remake {walk : Formula → ExceptT Error m Formula}
    (h : ∀ f, walk f = (do
      let children ← f.children.val.mapM walk
      let rebuilt ← f.rebuild hooks children
      ExceptT.lift (hooks.applyFormula rebuilt))) (f : Formula) :
    walk f = ExceptT.lift (f.remake hooks) := by
  induction f with
  | and left right ihleft ihright | or left right ihleft ihright =>
    rw [h, children, List.mapM_cons, List.mapM_cons, List.mapM_nil, ihleft, ihright, remake]
    simp only [ExceptT.lift_bind, bind_assoc, pure_bind, rebuild, takeTwo, liftOutcome_ok]
  | not inner ih =>
    rw [h, children, List.mapM_cons, List.mapM_nil, ih, remake]
    simp only [ExceptT.lift_bind, bind_assoc, pure_bind, rebuild, takeOne, liftOutcome_ok]
  | const b => rw [h, children, List.mapM_nil, pure_bind, rebuild, pure_bind, remake]
  | predicate left relation right =>
    rw [h, children, List.mapM_nil, pure_bind, rebuild, left.rewrite_eq_remake,
      right.rewrite_eq_remake, remake]
    simp only [ExceptT.lift_bind, bind_assoc, pure_bind]

theorem rewrite_eq_remake (f : Formula) : f.rewrite hooks = ExceptT.lift (f.remake hooks) :=
  eq_remake rewrite_step f

end Formula

theorem Plan.rewrite_eq_remake {query : Query} {signals : Signals}
    (h : query.check signals = .ok ()) (plan : Plan β) :
    plan.rewrite hooks query signals = ExceptT.lift (plan.remake hooks) := by
  have hitems (items : List Expression) : items.mapM (Expression.rewrite hooks) =
      ExceptT.lift (Expression.remakeItems hooks items) := by
    rw [Expression.remakeItems_eq]
    exact mapM_lift fun e _ => e.rewrite_eq_remake
  induction plan with
  | requalify qualifier source ih =>
    simp only [rewrite, remake, h, ih, liftOutcome_ok, pure_bind, ExceptT.lift_bind]
  | filter formula source ih =>
    simp only [rewrite, remake, h, ih, formula.rewrite_eq_remake, liftOutcome_ok, pure_bind,
      ExceptT.lift_bind]
  | group spec source ih =>
    simp only [rewrite, remake, h, ih, GroupSpec.rewrite, hitems, liftOutcome_ok, pure_bind,
      bind_assoc, ExceptT.lift_bind]
  | scan table qualifier formula =>
    simp only [rewrite, remake, h, formula.rewrite_eq_remake, liftOutcome_ok, pure_bind,
      ExceptT.lift_bind]

end Recursion

-- ---------------------------------------------------------------------------
-- Calls of hooks
-- ---------------------------------------------------------------------------

inductive ElementKind where
  | expression (kind : ExpressionKind)
  | formula (kind : FormulaKind)
  | plan (kind : PlanKind)

/-- A call of a hook: what it was given, and what it made of it. -/
inductive Firing (β : Type) where
  | expression (given made : Expression)
  | formula (given made : Formula)
  | plan (given made : Plan β)

def Firing.kind : Firing β → ElementKind
  | .expression given _ => .expression given.kind
  | .formula given _ => .formula given.kind
  | .plan given _ => .plan given.kind

namespace Hooks

def has (hooks : Hooks m β) : ElementKind → Bool
  | .expression kind => (hooks.expression kind).isSome
  | .formula kind => (hooks.formula kind).isSome
  | .plan kind => (hooks.plan kind).isSome

def recorded (hooks : Hooks (StateM σ) β) : Hooks (Recorder σ (Firing β)) β where
  expression kind :=
    (hooks.expression kind).map fun hook e => StreamQuery.recorded (.expression e) (hook e)
  formula kind :=
    (hooks.formula kind).map fun hook f => StreamQuery.recorded (.formula f) (hook f)
  plan kind :=
    (hooks.plan kind).map fun hook plan => StreamQuery.recorded (.plan plan) (hook plan)

end Hooks

/-- What is written where an element is given to the hook of its kind: one entry
about the call, and nothing if there is no hook. -/
inductive Applied (hook : Option (α → StateM σ α)) (entry : α → α → κ) (given : α) :
    List κ → α → Prop where
  | called {f : α → StateM σ α} (h : hook = some f) (s : σ) :
      Applied hook entry given [entry given ((f given).run s).1] ((f given).run s).1
  | kept (h : hook = none) : Applied hook entry given [] given

namespace Applied

variable {hook : Option (α → StateM σ α)} {entry : α → α → κ} {given made : α} {entries : List κ}

theorem made_eq (h : Applied hook entry given entries made)
    (hback : ∀ f, hook = some f → ∀ a s, ((f a).run s).1 = a) : made = given := by
  cases h with
  | called h s => exact hback _ h given s
  | kept => rfl

theorem kinds_eq {entry : α → α → Firing β} {firings : List (Firing β)}
    (h : Applied hook entry given firings made) (hooks : Hooks (StateM σ) β) (kind : ElementKind)
    (hentry : ∀ made, (entry given made).kind = kind) (hhas : hooks.has kind = hook.isSome) :
    firings.map Firing.kind = [kind].filter hooks.has := by
  cases h with
  | called h s => simp [hhas, h, hentry]
  | kept h => simp [hhas, h]

end Applied

theorem notes_applied (hook : Option (α → StateM σ α)) (entry : α → α → κ) (given : α) :
    Notes ((hook.map fun f a => recorded (entry a) (f a)).elim (pure given) fun f => f given)
      (hook.elim (pure given) fun f => f given) (Applied hook entry given) := by
  cases hook with
  | none => exact .pure (.kept rfl)
  | some f => exact fun s record => ⟨_, _, _, rfl, rfl, .called rfl s⟩

variable {hooks : Hooks (StateM σ) β}

namespace Hooks

theorem applyExpression_eq {hooks : Hooks m β} (e : Expression) : hooks.applyExpression e =
    (hooks.expression e.kind).elim (pure e) fun hook => hook e := by
  unfold applyExpression
  cases hooks.expression e.kind <;> rfl

theorem applyFormula_eq {hooks : Hooks m β} (f : Formula) : hooks.applyFormula f =
    (hooks.formula f.kind).elim (pure f) fun hook => hook f := by
  unfold applyFormula
  cases hooks.formula f.kind <;> rfl

theorem applyPlan_eq {hooks : Hooks m β} (plan : Plan β) : hooks.applyPlan plan =
    (hooks.plan plan.kind).elim (pure plan) fun hook => hook plan := by
  unfold applyPlan
  cases hooks.plan plan.kind <;> rfl

theorem notes_applyExpression (e : Expression) :
    Notes (hooks.recorded.applyExpression e) (hooks.applyExpression e)
      (Applied (hooks.expression e.kind) .expression e) := by
  rw [applyExpression_eq, applyExpression_eq]
  exact notes_applied _ _ e

theorem notes_applyFormula (f : Formula) :
    Notes (hooks.recorded.applyFormula f) (hooks.applyFormula f)
      (Applied (hooks.formula f.kind) .formula f) := by
  rw [applyFormula_eq, applyFormula_eq]
  exact notes_applied _ _ f

theorem notes_applyPlan (plan : Plan β) :
    Notes (hooks.recorded.applyPlan plan) (hooks.applyPlan plan)
      (Applied (hooks.plan plan.kind) .plan plan) := by
  rw [applyPlan_eq, applyPlan_eq]
  exact notes_applied _ _ plan

end Hooks

-- ---------------------------------------------------------------------------
-- The order of the calls
-- ---------------------------------------------------------------------------

mutual

/-- The calls that remake an expression, and what is made. -/
inductive Expression.Fires (hooks : Hooks (StateM σ) β) :
    Expression → List (Firing β) → Expression → Prop where
  | var (h : Applied (hooks.expression .var) .expression (.var name) own made) :
      Fires hooks (.var name) own made
  | const (h : Applied (hooks.expression .const) .expression (.const v) own made) :
      Fires hooks (.const v) own made
  | tuple (hitems : FiresAll hooks items first remade)
      (h : Applied (hooks.expression .tuple) .expression (.tuple remade) own made) :
      Fires hooks (.tuple items) (first ++ own) made

inductive Expression.FiresAll (hooks : Hooks (StateM σ) β) :
    List Expression → List (Firing β) → List Expression → Prop where
  | nil : FiresAll hooks [] [] []
  | cons (h : Fires hooks e first made) (hrest : FiresAll hooks rest others remade) :
      FiresAll hooks (e :: rest) (first ++ others) (made :: remade)

end

inductive Formula.Fires (hooks : Hooks (StateM σ) β) :
    Formula → List (Firing β) → Formula → Prop where
  | and (hleft : Fires hooks left first left') (hright : Fires hooks right second right')
      (h : Applied (hooks.formula .and) .formula (.and left' right') own made) :
      Fires hooks (.and left right) (first ++ (second ++ own)) made
  | or (hleft : Fires hooks left first left') (hright : Fires hooks right second right')
      (h : Applied (hooks.formula .or) .formula (.or left' right') own made) :
      Fires hooks (.or left right) (first ++ (second ++ own)) made
  | not (hinner : Fires hooks f first f')
      (h : Applied (hooks.formula .not) .formula (.not f') own made) :
      Fires hooks (.not f) (first ++ own) made
  | const (h : Applied (hooks.formula .const) .formula (.const b) own made) :
      Fires hooks (.const b) own made
  | predicate (hleft : left.Fires hooks first left') (hright : right.Fires hooks second right')
      (h : Applied (hooks.formula .predicate) .formula (.predicate left' relation right')
        own made) :
      Fires hooks (.predicate left relation right) (first ++ (second ++ own)) made

inductive Plan.Fires (hooks : Hooks (StateM σ) β) : Plan β → List (Firing β) → Plan β → Prop where
  | requalify (hsource : Fires hooks source first source')
      (h : Applied (hooks.plan .requalify) .plan (.requalify qualifier source') own made) :
      Fires hooks (.requalify qualifier source) (first ++ own) made
  | filter (hformula : formula.Fires hooks first formula')
      (hsource : Fires hooks source second source')
      (h : Applied (hooks.plan .filter) .plan (.filter formula' source') own made) :
      Fires hooks (.filter formula source) (first ++ (second ++ own)) made
  | group (hsource : Fires hooks source first source')
      (hkey : Expression.FiresAll hooks spec.key second key)
      (hfields : Expression.FiresAll hooks spec.fields third fields)
      (h : Applied (hooks.plan .group) .plan (.group { spec with key, fields } source') own made) :
      Fires hooks (.group spec source) (first ++ (second ++ (third ++ own))) made
  | scan (hformula : formula.Fires hooks first formula')
      (h : Applied (hooks.plan .scan) .plan (.scan table qualifier formula') own made) :
      Fires hooks (.scan table qualifier formula) (first ++ own) made

mutual

theorem Expression.notes_remake : (e : Expression) →
    Notes (e.remake hooks.recorded) (e.remake hooks) (e.Fires hooks)
  | .var name => (hooks.notes_applyExpression (.var name)).mono fun _ _ h => .var h
  | .const v => (hooks.notes_applyExpression (.const v)).mono fun _ _ h => .const h
  | .tuple items => by
    refine (notes_remakeItems items).bind (fun items =>
      hooks.notes_applyExpression (.tuple items)) |>.mono ?_
    rintro _ made ⟨remade, inner, own, rfl, hitems, h⟩
    exact .tuple hitems h
termination_by structural e => e

theorem Expression.notes_remakeItems : (items : List Expression) →
    Notes (remakeItems hooks.recorded items) (remakeItems hooks items) (FiresAll hooks items)
  | [] => .pure .nil
  | e :: rest => by
    refine (notes_remake e).bind (fun made => (notes_remakeItems rest).bind fun others =>
      .pure (p := fun firings es => firings = [] ∧ es = made :: others) ⟨rfl, rfl⟩) |>.mono ?_
    rintro _ _ ⟨made, first, _, rfl, h, others, more, _, rfl, hrest, rfl, rfl⟩
    rw [List.append_nil]
    exact .cons h hrest
termination_by structural items => items

end

theorem Formula.notes_remake (f : Formula) :
    Notes (f.remake hooks.recorded) (f.remake hooks) (f.Fires hooks) := by
  induction f with
  | and left right ihleft ihright =>
    refine (ihleft.bind fun left => ihright.bind fun right =>
      hooks.notes_applyFormula (.and left right)).mono ?_
    rintro _ made ⟨left', first, _, rfl, hleft, right', second, own, rfl, hright, h⟩
    exact .and hleft hright h
  | or left right ihleft ihright =>
    refine (ihleft.bind fun left => ihright.bind fun right =>
      hooks.notes_applyFormula (.or left right)).mono ?_
    rintro _ made ⟨left', first, _, rfl, hleft, right', second, own, rfl, hright, h⟩
    exact .or hleft hright h
  | not inner ih =>
    refine (ih.bind fun inner => hooks.notes_applyFormula (.not inner)).mono ?_
    rintro _ made ⟨inner', first, own, rfl, hinner, h⟩
    exact .not hinner h
  | const b => exact (hooks.notes_applyFormula (.const b)).mono fun _ _ h => .const h
  | predicate left relation right =>
    refine (left.notes_remake.bind fun left => right.notes_remake.bind fun right =>
      hooks.notes_applyFormula (.predicate left relation right)).mono ?_
    rintro _ made ⟨left', first, _, rfl, hleft, right', second, own, rfl, hright, h⟩
    exact .predicate hleft hright h

theorem Plan.notes_remake (plan : Plan β) :
    Notes (plan.remake hooks.recorded) (plan.remake hooks) (plan.Fires hooks) := by
  induction plan with
  | requalify qualifier source ih =>
    refine (ih.bind fun source => hooks.notes_applyPlan (.requalify qualifier source)).mono ?_
    rintro _ made ⟨source', first, own, rfl, hsource, h⟩
    exact .requalify hsource h
  | filter formula source ih =>
    refine (formula.notes_remake.bind fun formula => ih.bind fun source =>
      hooks.notes_applyPlan (.filter formula source)).mono ?_
    rintro _ made ⟨formula', first, _, rfl, hformula, source', second, own, rfl, hsource, h⟩
    exact .filter hformula hsource h
  | group spec source ih =>
    refine (ih.bind fun source => (Expression.notes_remakeItems spec.key).bind fun key =>
      (Expression.notes_remakeItems spec.fields).bind fun fields =>
        hooks.notes_applyPlan (.group { spec with key, fields } source)).mono ?_
    rintro _ made ⟨source', first, _, rfl, hsource, key, second, _, rfl, hkey, fields, third, own,
      rfl, hfields, h⟩
    exact .group hsource hkey hfields h
  | scan table qualifier formula =>
    refine (formula.notes_remake.bind fun formula =>
      hooks.notes_applyPlan (.scan table qualifier formula)).mono ?_
    rintro _ made ⟨formula', first, own, rfl, hformula, h⟩
    exact .scan hformula h

mutual

/-- The kinds of the elements of an expression, each after those of its parts. -/
def Expression.kinds : Expression → List ElementKind
  | .var _ => [.expression .var]
  | .const _ => [.expression .const]
  | .tuple items => kindsOfItems items ++ [.expression .tuple]
termination_by structural e => e

def Expression.kindsOfItems : List Expression → List ElementKind
  | [] => []
  | e :: rest => e.kinds ++ kindsOfItems rest
termination_by structural items => items

end

def Formula.kinds : Formula → List ElementKind
  | .and left right => left.kinds ++ (right.kinds ++ [.formula .and])
  | .or left right => left.kinds ++ (right.kinds ++ [.formula .or])
  | .not inner => inner.kinds ++ [.formula .not]
  | .const _ => [.formula .const]
  | .predicate left _ right => left.kinds ++ (right.kinds ++ [.formula .predicate])

def Plan.kinds : Plan β → List ElementKind
  | .requalify _ source => source.kinds ++ [.plan .requalify]
  | .filter formula source => formula.kinds ++ (source.kinds ++ [.plan .filter])
  | .group spec source =>
    source.kinds ++
      (Expression.kindsOfItems spec.key ++ (Expression.kindsOfItems spec.fields ++ [.plan .group]))
  | .scan _ _ formula => formula.kinds ++ [.plan .scan]

mutual

theorem Expression.Fires.kinds_eq {e : Expression} : e.Fires hooks firings made →
    firings.map Firing.kind = e.kinds.filter hooks.has
  | .var h => h.kinds_eq hooks (.expression .var) (fun _ => rfl) rfl
  | .const h => h.kinds_eq hooks (.expression .const) (fun _ => rfl) rfl
  | .tuple hitems h => by
    rw [List.map_append, hitems.kinds_eq, h.kinds_eq hooks (.expression .tuple) (fun _ => rfl) rfl,
      kinds, List.filter_append]

theorem Expression.FiresAll.kinds_eq {items : List Expression} :
    FiresAll hooks items firings remade →
    firings.map Firing.kind = (kindsOfItems items).filter hooks.has
  | .nil => rfl
  | .cons h hrest => by
    rw [List.map_append, h.kinds_eq, hrest.kinds_eq, kindsOfItems, List.filter_append]

end

theorem Formula.Fires.kinds_eq {f : Formula} (h : f.Fires hooks firings made) :
    firings.map Firing.kind = f.kinds.filter hooks.has := by
  induction h with
  | and _ _ h ihleft ihright =>
    simp only [kinds, List.map_append, List.filter_append, ihleft, ihright,
      h.kinds_eq hooks (.formula .and) (fun _ => rfl) rfl]
  | or _ _ h ihleft ihright =>
    simp only [kinds, List.map_append, List.filter_append, ihleft, ihright,
      h.kinds_eq hooks (.formula .or) (fun _ => rfl) rfl]
  | not _ h ih =>
    simp only [kinds, List.map_append, List.filter_append, ih,
      h.kinds_eq hooks (.formula .not) (fun _ => rfl) rfl]
  | const h => exact h.kinds_eq hooks (.formula .const) (fun _ => rfl) rfl
  | predicate hleft hright h =>
    simp only [kinds, List.map_append, List.filter_append, hleft.kinds_eq, hright.kinds_eq,
      h.kinds_eq hooks (.formula .predicate) (fun _ => rfl) rfl]

theorem Plan.Fires.kinds_eq {plan : Plan β} (h : plan.Fires hooks firings made) :
    firings.map Firing.kind = plan.kinds.filter hooks.has := by
  induction h with
  | requalify _ h ih =>
    simp only [kinds, List.map_append, List.filter_append, ih,
      h.kinds_eq hooks (.plan .requalify) (fun _ => rfl) rfl]
  | filter hformula _ h ih =>
    simp only [kinds, List.map_append, List.filter_append, hformula.kinds_eq, ih,
      h.kinds_eq hooks (.plan .filter) (fun _ => rfl) rfl]
  | group _ hkey hfields h ih =>
    simp only [kinds, List.map_append, List.filter_append, ih, hkey.kinds_eq, hfields.kinds_eq,
      h.kinds_eq hooks (.plan .group) (fun _ => rfl) rfl]
  | scan hformula h =>
    simp only [kinds, List.map_append, List.filter_append, hformula.kinds_eq,
      h.kinds_eq hooks (.plan .scan) (fun _ => rfl) rfl]

-- ---------------------------------------------------------------------------
-- Hooks that change nothing
-- ---------------------------------------------------------------------------

structure Hooks.GiveBack (hooks : Hooks (StateM σ) β) : Prop where
  expression : ∀ kind hook, hooks.expression kind = some hook → ∀ e s, ((hook e).run s).1 = e
  formula : ∀ kind hook, hooks.formula kind = some hook → ∀ f s, ((hook f).run s).1 = f
  plan : ∀ kind hook, hooks.plan kind = some hook → ∀ plan s, ((hook plan).run s).1 = plan

theorem Hooks.giveBack_of_isEmpty (h : hooks.isEmpty) : hooks.GiveBack := by
  simp only [isEmpty, Bool.and_eq_true] at h
  obtain ⟨⟨hplan, hexpression⟩, hformula⟩ := h
  constructor
  · simp [expression_eq_none hexpression]
  · simp [formula_eq_none hformula]
  · simp [plan_eq_none hplan]

mutual

theorem Expression.Fires.made_eq (hback : hooks.GiveBack) {e : Expression} :
    e.Fires hooks firings made → made = e
  | .var h | .const h => h.made_eq (hback.expression _)
  | .tuple hitems h => by
    rw [h.made_eq (hback.expression _), hitems.made_eq hback]

theorem Expression.FiresAll.made_eq (hback : hooks.GiveBack) {items : List Expression} :
    FiresAll hooks items firings remade → remade = items
  | .nil => rfl
  | .cons h hrest => by rw [h.made_eq hback, hrest.made_eq hback]

end

theorem Formula.Fires.made_eq (hback : hooks.GiveBack) {f : Formula}
    (h : f.Fires hooks firings made) : made = f := by
  induction h with
  | and _ _ h ihleft ihright | or _ _ h ihleft ihright =>
    rw [h.made_eq (hback.formula _), ihleft, ihright]
  | not _ h ih => rw [h.made_eq (hback.formula _), ih]
  | const h => exact h.made_eq (hback.formula _)
  | predicate hleft hright h =>
    rw [h.made_eq (hback.formula _), hleft.made_eq hback, hright.made_eq hback]

theorem Plan.Fires.made_eq (hback : hooks.GiveBack) {plan : Plan β}
    (h : plan.Fires hooks firings made) : made = plan := by
  induction h with
  | requalify _ h ih => rw [h.made_eq (hback.plan _), ih]
  | filter hformula _ h ih => rw [h.made_eq (hback.plan _), hformula.made_eq hback, ih]
  | group _ hkey hfields h ih =>
    rw [h.made_eq (hback.plan _), hkey.made_eq hback, hfields.made_eq hback, ih]
  | scan hformula h => rw [h.made_eq (hback.plan _), hformula.made_eq hback]

-- ---------------------------------------------------------------------------
-- Whole rewritings
-- ---------------------------------------------------------------------------

namespace Expression

theorem notes_rewrite (e : Expression) :
    Notes (e.rewrite hooks.recorded).run (e.rewrite hooks).run fun firings outcome =>
      ∃ made, outcome = .ok made ∧ e.Fires hooks firings made := by
  rw [rewrite_eq_remake, rewrite_eq_remake]
  exact e.notes_remake.lift

theorem foldPure_eq_rewrite [LawfulMonad m] {hooks : Hooks m β} (e : Expression) :
    BottomUp.foldPure children
      (fun e parts => ExceptT.lift (hooks.applyExpression (e.withChildren parts))) e =
      e.rewrite hooks := by
  rw [rewrite_eq_remake]
  exact eq_remake (BottomUp.foldPure_eq children) e

end Expression

namespace Formula

theorem notes_rewrite (f : Formula) :
    Notes (f.rewrite hooks.recorded).run (f.rewrite hooks).run fun firings outcome =>
      ∃ made, outcome = .ok made ∧ f.Fires hooks firings made := by
  rw [rewrite_eq_remake, rewrite_eq_remake]
  exact f.notes_remake.lift

theorem foldPure_eq_rewrite [LawfulMonad m] {hooks : Hooks m β} (f : Formula) :
    BottomUp.foldPure children
      (fun f parts => do
        let rebuilt ← f.rebuild hooks parts
        ExceptT.lift (hooks.applyFormula rebuilt)) f =
      f.rewrite hooks := by
  rw [rewrite_eq_remake]
  exact eq_remake (BottomUp.foldPure_eq children) f

end Formula

theorem Plan.notes_rewrite {query : Query} {signals : Signals} (h : query.check signals = .ok ())
    (plan : Plan β) :
    Notes (plan.rewrite hooks.recorded query signals).run (plan.rewrite hooks query signals).run
      fun firings outcome => ∃ made, outcome = .ok made ∧ plan.Fires hooks firings made := by
  rw [rewrite_eq_remake h, rewrite_eq_remake h]
  exact plan.notes_remake.lift

namespace Hooks

/-- Rewriting is one pass from the leaves up. While the query may go on it gives
what the recursion gives: an element is put together from its remade parts and
then given, once, to the hook of its kind. The calls of hooks come as `Fires`
says, each element after its parts, so that their kinds are those of all elements
in that order for which there is a hook: what a hook makes is not given to a hook
again. If there are no hooks, or all of them give back what they were given, the
result is the element itself. Where the tables allow no hook to apply, walking
through the element would give the same. -/
theorem rewrite_is_one_pass (hooks : Hooks (StateM σ) β) (query : Query) (signals : Signals)
    (h : query.check signals = .ok ()) :
    ((∀ e : Expression, e.rewrite hooks = ExceptT.lift (e.remake hooks)) ∧
      (∀ f : Formula, f.rewrite hooks = ExceptT.lift (f.remake hooks)) ∧
      ∀ plan : Plan β, plan.rewrite hooks query signals = ExceptT.lift (plan.remake hooks)) ∧
    ((∀ e : Expression, Notes (e.rewrite hooks.recorded).run (e.rewrite hooks).run
        fun firings outcome => ∃ made, outcome = .ok made ∧ e.Fires hooks firings made ∧
          firings.map Firing.kind = e.kinds.filter hooks.has) ∧
      (∀ f : Formula, Notes (f.rewrite hooks.recorded).run (f.rewrite hooks).run
        fun firings outcome => ∃ made, outcome = .ok made ∧ f.Fires hooks firings made ∧
          firings.map Firing.kind = f.kinds.filter hooks.has) ∧
      ∀ plan : Plan β, Notes (plan.rewrite hooks.recorded query signals).run
        (plan.rewrite hooks query signals).run
        fun firings outcome => ∃ made, outcome = .ok made ∧ plan.Fires hooks firings made ∧
          firings.map Firing.kind = plan.kinds.filter hooks.has) ∧
    (hooks.isEmpty ∨ hooks.GiveBack →
      (∀ (e : Expression) s, ((e.rewrite hooks).run.run s).1 = .ok e) ∧
      (∀ (f : Formula) s, ((f.rewrite hooks).run.run s).1 = .ok f) ∧
      ∀ (plan : Plan β) s, ((plan.rewrite hooks query signals).run.run s).1 = .ok plan) ∧
    ((∀ e : Expression, e.rewrite hooks = BottomUp.foldPure Expression.children
        (fun e parts => ExceptT.lift (hooks.applyExpression (e.withChildren parts))) e) ∧
      ∀ f : Formula, f.rewrite hooks = BottomUp.foldPure Formula.children
        (fun f parts => do
          let rebuilt ← f.rebuild hooks parts
          ExceptT.lift (hooks.applyFormula rebuilt)) f) := by
  refine ⟨⟨fun e => e.rewrite_eq_remake, fun f => f.rewrite_eq_remake,
    fun plan => plan.rewrite_eq_remake h⟩, ⟨fun e => ?_, fun f => ?_, fun plan => ?_⟩,
    fun hnothing => ?_, fun e => e.foldPure_eq_rewrite.symm, fun f => f.foldPure_eq_rewrite.symm⟩
  · exact e.notes_rewrite.mono fun _ _ ⟨made, hok, hfires⟩ => ⟨made, hok, hfires, hfires.kinds_eq⟩
  · exact f.notes_rewrite.mono fun _ _ ⟨made, hok, hfires⟩ => ⟨made, hok, hfires, hfires.kinds_eq⟩
  · exact (plan.notes_rewrite h).mono fun _ _ ⟨made, hok, hfires⟩ =>
      ⟨made, hok, hfires, hfires.kinds_eq⟩
  · have hback : hooks.GiveBack := hnothing.elim giveBack_of_isEmpty id
    refine ⟨fun e => e.notes_rewrite.fst_eq ?_, fun f => f.notes_rewrite.fst_eq ?_,
      fun plan => (plan.notes_rewrite h).fst_eq ?_⟩
    all_goals
      rintro firings outcome ⟨made, rfl, hfires⟩
      rw [hfires.made_eq hback]

def negations : Hooks (StateM Nat) β :=
  { none with
    formula
      | .not => some fun f => do
        modify (· + 1)
        return .not f
      | _ => .none }

theorem rewrite_is_one_pass_of_negations :
    (Query.start "query" 0).check .quiet = .ok () ∧
    ((Plan.filter (.not (.not (.const true))) (.scan "t" "a" (.const true))).rewrite negations
        (Query.start "query" 0) .quiet).run.run 0 =
      (.ok (.filter (.not (.not (.not (.not (.const true))))) (.scan "t" "a" (.const true))), 2) := by
  refine ⟨rfl, ?_⟩
  rw [(rewrite_is_one_pass negations (Query.start "query" 0) .quiet rfl).1.2.2]
  rfl

end Hooks

end StreamQuery
