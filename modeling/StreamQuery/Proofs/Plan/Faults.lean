import StreamQuery.Plan.Memory
import StreamQuery.Proofs.Condition.Compile

/-!
# Faults of plans

Compiling a plan can fail in two places: at the scan, when the table does not
compile, and at a grouping step that asks for a function nobody knows or that
counts its columns wrong (`GroupSpec.Fault`). If several steps are at fault the
one closest to the scan is reported, since a step compiles its source before it
looks at itself, and the failure names every step from the root down to that
one (`compile_blames_deepest`).
-/

namespace StreamQuery

-- ---------------------------------------------------------------------------
-- Grouping steps
-- ---------------------------------------------------------------------------

namespace AggregateFunction

def Registered (name : String) : Prop :=
  ∃ f : AggregateFunction, f.name.map Char.toLower = name.map Char.toLower

theorem mem_all (f : AggregateFunction) : f ∈ all := by
  cases f <;> decide

theorem ofName_ok {name : String} : (∃ f, ofName name = .ok f) ↔ Registered name := by
  have hsome : (ofName? name).isSome ↔ Registered name := by
    simp [ofName?, List.find?_isSome, mem_all, Registered]
  rw [← hsome, ofName]
  cases ofName? name <;> simp

theorem ofName_error {name : String} : ofName name = .error e ↔
    ¬ Registered name ∧ e = .argument s!"unknown aggregate '{name}'" := by
  rw [← ofName_ok, ofName]
  cases ofName? name <;> simp [eq_comm]

end AggregateFunction

namespace GroupSpec

open AggregateFunction (Registered)

/-- The faults of a grouping step. An unknown name hides a wrong number of
fields, and that a wrong number of output columns. -/
inductive Fault (spec : GroupSpec) : Error → Prop
  | unknown {before after : List String} {name : String}
      (first : spec.aggregates = before ++ name :: after)
      (known : ∀ other ∈ before, Registered other) (unregistered : ¬ Registered name) :
      Fault spec (.argument s!"unknown aggregate '{name}'")
  | fields (known : ∀ name ∈ spec.aggregates, Registered name)
      (count : spec.fields.length ≠ spec.aggregates.length) :
      Fault spec (.argument
        s!"group by has {spec.aggregates.length} aggregates but {spec.fields.length} aggregate inputs")
  | output (known : ∀ name ∈ spec.aggregates, Registered name)
      (fields : spec.fields.length = spec.aggregates.length)
      (count : spec.output.length ≠ spec.key.length + spec.aggregates.length) :
      Fault spec (.argument
        s!"group by produces {spec.key.length + spec.aggregates.length} columns but names {spec.output.length}")

end GroupSpec

theorem Expression.length_compiledItems (items : List Expression) :
    (compiledItems items).length = items.length := by
  induction items with
  | nil => rfl
  | cons e rest ih => simp [compiledItems, ih]

theorem Grouping.make_error {key inputs : List Scalar} {functions : List AggregateFunction}
    {output : List Name} {emission : Emission} :
    make key inputs functions output emission = .error e ↔
      (inputs.length ≠ functions.length ∧ e = .argument
        s!"group by has {functions.length} aggregates but {inputs.length} aggregate inputs") ∨
      (inputs.length = functions.length ∧ output.length ≠ key.length + functions.length ∧
        e = .argument
          s!"group by produces {key.length + functions.length} columns but names {output.length}") := by
  simp only [make]
  split
  · rename_i hi
    split
    · rename_i ho
      simp [hi, ho]
    · rename_i ho
      simp [hi, ho, eq_comm]
  · rename_i hi
    simp [hi, eq_comm]

namespace GroupSpec

open AggregateFunction (Registered)

variable {spec : GroupSpec}

theorem compile_eq (spec : GroupSpec) : spec.compile = (do
    let functions ← spec.aggregates.mapM AggregateFunction.ofName
    Grouping.make (Expression.compiledItems spec.key) (Expression.compiledItems spec.fields)
      functions spec.output spec.emission) := by
  rw [compile, Expression.mapM_compile, ok_bind, Expression.mapM_compile, ok_bind]

theorem registered_of_mapM {names : List String} {functions : List AggregateFunction}
    (h : names.mapM AggregateFunction.ofName = .ok functions) :
    (∀ name ∈ names, Registered name) ∧ functions.length = names.length := by
  have hnames := mapM_ok.mp h
  refine ⟨fun name hmem => ?_, hnames.length_eq.symm⟩
  obtain ⟨i, hi, rfl⟩ := List.mem_iff_getElem.mp hmem
  exact AggregateFunction.ofName_ok.mp ⟨_, hnames.get hi (hnames.length_eq ▸ hi)⟩

theorem compile_error : spec.compile = .error e ↔ spec.Fault e := by
  rw [compile_eq, bind_error]
  simp only [Grouping.make_error, Expression.length_compiledItems]
  constructor
  · rintro (hnames | ⟨functions, hnames, hmake⟩)
    · obtain ⟨before, name, after, hfirst, hknown, hname⟩ := mapM_error.mp hnames
      obtain ⟨hunregistered, rfl⟩ := AggregateFunction.ofName_error.mp hname
      exact .unknown hfirst (fun other hmem => AggregateFunction.ofName_ok.mp (hknown other hmem))
        hunregistered
    · obtain ⟨hknown, hlen⟩ := registered_of_mapM hnames
      rw [hlen] at hmake
      rcases hmake with ⟨hcount, rfl⟩ | ⟨hfields, hcount, rfl⟩
      · exact .fields hknown hcount
      · exact .output hknown hfields hcount
  · have hfunctions : (∀ name ∈ spec.aggregates, Registered name) →
        ∃ functions, spec.aggregates.mapM AggregateFunction.ofName = .ok functions ∧
          functions.length = spec.aggregates.length := by
      intro hknown
      obtain ⟨functions, hnames⟩ := exists_mapM_ok fun name hmem =>
        AggregateFunction.ofName_ok.mpr (hknown name hmem)
      exact ⟨functions, hnames, (registered_of_mapM hnames).2⟩
    intro hfault
    cases hfault with
    | unknown hfirst hknown hunregistered =>
      exact .inl (mapM_error.mpr ⟨_, _, _, hfirst, fun other hmem =>
        AggregateFunction.ofName_ok.mpr (hknown other hmem),
        AggregateFunction.ofName_error.mpr ⟨hunregistered, rfl⟩⟩)
    | fields hknown hcount =>
      obtain ⟨functions, hnames, hlen⟩ := hfunctions hknown
      exact .inr ⟨functions, hnames, .inl ⟨hlen ▸ hcount, by rw [hlen]⟩⟩
    | output hknown hfields hcount =>
      obtain ⟨functions, hnames, hlen⟩ := hfunctions hknown
      exact .inr ⟨functions, hnames, .inr ⟨hlen ▸ hfields, hlen ▸ hcount, by rw [hlen]⟩⟩

theorem Fault.bare (h : spec.Fault e) : e.compilePath = [] ∧ e.rootCause = e := by
  cases h <;> exact ⟨rfl, rfl⟩

theorem exists_fault : (∃ e, spec.Fault e) ↔
    (∃ name ∈ spec.aggregates, ¬ Registered name) ∨
      spec.fields.length ≠ spec.aggregates.length ∨
      spec.output.length ≠ spec.key.length + spec.aggregates.length := by
  constructor
  · rintro ⟨e, hfault⟩
    cases hfault with
    | unknown hfirst hknown hunregistered => exact .inl ⟨_, by simp [hfirst], hunregistered⟩
    | fields hknown hcount => exact .inr (.inl hcount)
    | output hknown hfields hcount => exact .inr (.inr hcount)
  · intro h
    by_cases hknown : ∀ name ∈ spec.aggregates, Registered name
    · by_cases hfields : spec.fields.length = spec.aggregates.length
      · rcases h with ⟨name, hmem, hunregistered⟩ | hcount | hcount
        · exact absurd (hknown name hmem) hunregistered
        · exact absurd hfields hcount
        · exact ⟨_, .output hknown hfields hcount⟩
      · exact ⟨_, .fields hknown hfields⟩
    · cases hnames : spec.aggregates.mapM AggregateFunction.ofName with
      | error e => exact ⟨e, compile_error.mp (by rw [compile_eq, hnames, error_bind])⟩
      | ok functions => exact absurd (registered_of_mapM hnames).1 hknown

theorem compile_ok : (∃ g, spec.compile = .ok g) ↔ ∀ e, ¬ spec.Fault e := by
  simp only [← compile_error]
  cases spec.compile <;> simp

end GroupSpec

-- ---------------------------------------------------------------------------
-- Stopped queries
-- ---------------------------------------------------------------------------

theorem Query.check_error {query : Query} {signals : Signals} (h : query.check signals ≠ .ok ()) :
    ∃ reason, query.check signals = .error (.cancelled reason) := by
  unfold check at h ⊢
  split
  · exact ⟨_, rfl⟩
  · split
    · exact ⟨_, rfl⟩
    · simp_all

-- ---------------------------------------------------------------------------
-- Steps at fault
-- ---------------------------------------------------------------------------

namespace Plan

section
variable {α β : Type} {built : Except Error α} {plan : Plan β}

def steps : Plan β → List (Plan β)
  | .requalify qualifier source => .requalify qualifier source :: source.steps
  | .filter formula source => .filter formula source :: source.steps
  | .group spec source => .group spec source :: source.steps
  | .scan table qualifier formula => [.scan table qualifier formula]

/-- What is wrong with a step, if the table of its plan compiles to `built`. -/
inductive Faulty (built : Except Error α) : Plan β → Error → Prop
  | group {spec : GroupSpec} {source : Plan β} (h : spec.Fault e) :
      Faulty built (.group spec source) e
  | scan {table : β} {qualifier : String} {formula : Formula} (h : built = .error e) :
      Faulty built (.scan table qualifier formula) e

/-- A failure wrapped by every step on the way to it. -/
def wrapped (path : List (Plan β)) (e : Error) : Error :=
  path.foldr (fun step e => .compile step.kind.name e) e

theorem compilePath_wrapped (path : List (Plan β)) (e : Error) :
    (wrapped path e).compilePath = path.map (fun step => step.kind.name) ++ e.compilePath := by
  induction path with
  | nil => rfl
  | cons step path ih => exact congrArg (step.kind.name :: ·) ih

theorem rootCause_wrapped (path : List (Plan β)) (e : Error) :
    (wrapped path e).rootCause = e.rootCause := by
  induction path with
  | nil => rfl
  | cons step path ih => exact ih

/-- `e` is the failure of the last of these steps that is at fault, wrapped by
every step down to it. -/
def Blamed (built : Except Error α) (steps : List (Plan β)) (e : Error) : Prop :=
  ∃ above step below fault, steps = above ++ step :: below ∧ step.Faulty built fault ∧
    (∀ other ∈ below, ∀ e, ¬ other.Faulty built e) ∧ e = wrapped (above ++ [step]) fault

theorem Blamed.under {steps : List (Plan β)} (h : Blamed built steps e) (step : Plan β) :
    Blamed built (step :: steps) (.compile step.kind.name e) := by
  obtain ⟨above, last, below, fault, hsteps, hfault, hbelow, rfl⟩ := h
  exact ⟨step :: above, last, below, fault, congrArg _ hsteps, hfault, hbelow, rfl⟩

theorem exists_scan_mem (plan : Plan β) : ∃ table qualifier formula,
    scan table qualifier formula ∈ plan.steps := by
  induction plan with
  | requalify _ source ih | filter _ source ih | group _ source ih =>
    obtain ⟨table, qualifier, formula, hmem⟩ := ih
    exact ⟨table, qualifier, formula, List.mem_cons_of_mem _ hmem⟩
  | scan table qualifier formula => exact ⟨table, qualifier, formula, List.mem_singleton_self _⟩

theorem exists_faulty : (∃ step ∈ plan.steps, ∃ e, step.Faulty built e) ↔
    (∃ e, built = .error e) ∨
      ∃ spec source, group spec source ∈ plan.steps ∧ ∃ e, spec.Fault e := by
  constructor
  · rintro ⟨step, hmem, e, hfaulty⟩
    cases hfaulty with
    | group hfault => exact .inr ⟨_, _, hmem, e, hfault⟩
    | scan h => exact .inl ⟨e, h⟩
  · rintro (⟨e, h⟩ | ⟨spec, source, hmem, e, hfault⟩)
    · obtain ⟨table, qualifier, formula, hmem⟩ := plan.exists_scan_mem
      exact ⟨_, hmem, e, .scan h⟩
    · exact ⟨_, hmem, e, .group hfault⟩

end

-- ---------------------------------------------------------------------------
-- From the table to the plan
-- ---------------------------------------------------------------------------

variable {m : Type → Type} [Monad m] {β : Type} {tables : β → Table m} {query : Query}
  {signals : Signals} {plan : Plan β} {built : Except Error (Operator m)}

def compileTable (tables : β → Table m) (query : Query) : Plan β → ExceptT Error m (Operator m)
  | .requalify _ source | .filter _ source | .group _ source => source.compileTable tables query
  | .scan table qualifier formula => (tables table).compile query formula qualifier

def settle : Plan β → Except Error (Operator m) → Except Error (Operator m)
  | .requalify qualifier source, built => wrapFailure PlanKind.requalify.name do
    let source ← source.settle built
    return .requalify qualifier source
  | .filter formula source, built => wrapFailure PlanKind.filter.name do
    let source ← source.settle built
    return .filter formula.compiled source
  | .group spec source, built => wrapFailure PlanKind.group.name do
    let source ← source.settle built
    let g ← spec.compile
    return .group g source
  | .scan _ _ _, built => wrapFailure PlanKind.scan.name built

section
variable [LawfulMonad m]

theorem run_within (hcheck : query.check signals = .ok ()) (kind : PlanKind)
    (step : ExceptT Error m (Operator m)) :
    (compile.within query signals kind step).run = wrapFailure kind.name <$> step.run := by
  rw [compile.within, hcheck, liftOutcome_ok, pure_bind]
  rfl

theorem run_within_bind {α : Type} (hcheck : query.check signals = .ok ()) (kind : PlanKind)
    {source : ExceptT Error m (Operator m)} {start : m α}
    {settled : α → Except Error (Operator m)} (h : source.run = settled <$> start)
    (next : Operator m → ExceptT Error m (Operator m))
    (outcome : Operator m → Except Error (Operator m))
    (hnext : ∀ operator, next operator = liftOutcome (outcome operator)) :
    (compile.within query signals kind (source >>= next)).run =
      (fun built => wrapFailure kind.name (settled built >>= outcome)) <$> start := by
  rw [run_within hcheck, ExceptT.run_bind, h, bind_map_left, map_eq_pure_bind, map_eq_pure_bind,
    bind_assoc]
  refine congrArg (start >>= ·) (funext fun built => ?_)
  cases settled built with
  | error e => exact pure_bind _ _
  | ok operator =>
    simp only [hnext]
    exact pure_bind _ _

theorem run_compile (hcheck : query.check signals = .ok ()) :
    (plan.compile tables query signals).run =
      plan.settle <$> (plan.compileTable tables query).run := by
  induction plan with
  | requalify qualifier source ih =>
    exact run_within_bind hcheck .requalify ih _ (fun source => .ok (.requalify qualifier source))
      fun _ => rfl
  | filter formula source ih =>
    refine run_within_bind hcheck .filter ih _ (fun source => .ok (.filter formula.compiled source))
      fun source => ?_
    rw [Formula.compile_eq]
    exact pure_bind _ _
  | group spec source ih =>
    refine run_within_bind hcheck .group ih _ (fun source => do
      let g ← spec.compile
      return .group g source) fun source => ?_
    cases spec.compile with
    | error e => exact pure_bind _ _
    | ok g => exact pure_bind _ _
  | scan table qualifier formula => exact run_within hcheck _ _

end

theorem wrapFailure_ok {element : String} {result : Except Error α} :
    (∃ a, wrapFailure element result = .ok a) ↔ ∃ a, result = .ok a := by
  cases result <;> simp [wrapFailure, Except.mapError]

theorem wrapFailure_error {element : String} {result : Except Error α} :
    wrapFailure element result = .error e ↔
      ∃ cause, result = .error cause ∧ e = .compile element cause := by
  cases result <;> simp [wrapFailure, Except.mapError, eq_comm]

theorem settle_ok : (∃ operator, plan.settle built = .ok operator) ↔
    ∀ step ∈ plan.steps, ∀ e, ¬ step.Faulty built e := by
  induction plan with
  | requalify qualifier source ih =>
    have hself : ∀ e, ¬ (requalify qualifier source).Faulty built e := fun e h => by cases h
    rw [settle, wrapFailure_ok, exists_bind_ok, steps, List.forall_mem_cons, ← ih]
    exact ⟨fun ⟨operator, h, _⟩ => ⟨hself, operator, h⟩,
      fun ⟨_, operator, h⟩ => ⟨operator, h, _, rfl⟩⟩
  | filter formula source ih =>
    have hself : ∀ e, ¬ (filter formula source).Faulty built e := fun e h => by cases h
    rw [settle, wrapFailure_ok, exists_bind_ok, steps, List.forall_mem_cons, ← ih]
    exact ⟨fun ⟨operator, h, _⟩ => ⟨hself, operator, h⟩,
      fun ⟨_, operator, h⟩ => ⟨operator, h, _, rfl⟩⟩
  | group spec source ih =>
    have hself : (∃ g, spec.compile = .ok g) ↔ ∀ e, ¬ (group spec source).Faulty built e := by
      rw [GroupSpec.compile_ok]
      exact ⟨fun h e hf => by cases hf with | group hfault => exact h e hfault,
        fun h e hfault => h e (.group hfault)⟩
    rw [settle, wrapFailure_ok, exists_bind_ok, steps, List.forall_mem_cons, ← ih, ← hself]
    simp only [exists_bind_ok]
    exact ⟨fun ⟨operator, h, g, hg, _⟩ => ⟨⟨g, hg⟩, operator, h⟩,
      fun ⟨⟨g, hg⟩, operator, h⟩ => ⟨operator, h, g, hg, _, rfl⟩⟩
  | scan table qualifier formula =>
    rw [settle, wrapFailure_ok, steps, List.forall_mem_singleton]
    constructor
    · rintro ⟨operator, rfl⟩ e hfaulty
      cases hfaulty with | scan h => cases h
    · intro h
      cases built with
      | error e => exact absurd (.scan rfl) (h e)
      | ok operator => exact ⟨operator, rfl⟩

theorem settle_error (h : plan.settle built = .error e) : Blamed built plan.steps e := by
  induction plan generalizing e with
  | requalify qualifier source ih =>
    obtain ⟨cause, hcause, rfl⟩ := wrapFailure_error.mp h
    rcases bind_error.mp hcause with hsource | ⟨operator, -, hstep⟩
    · exact (ih hsource).under (requalify qualifier source)
    · cases hstep
  | filter formula source ih =>
    obtain ⟨cause, hcause, rfl⟩ := wrapFailure_error.mp h
    rcases bind_error.mp hcause with hsource | ⟨operator, -, hstep⟩
    · exact (ih hsource).under (filter formula source)
    · cases hstep
  | group spec source ih =>
    obtain ⟨cause, hcause, rfl⟩ := wrapFailure_error.mp h
    rcases bind_error.mp hcause with hsource | ⟨operator, hsource, hstep⟩
    · exact (ih hsource).under (group spec source)
    · rcases bind_error.mp hstep with hspec | ⟨g, -, hg⟩
      · exact ⟨[], group spec source, source.steps, cause, rfl,
          .group (GroupSpec.compile_error.mp hspec), settle_ok.mp ⟨operator, hsource⟩, rfl⟩
      · cases hg
  | scan table qualifier formula =>
    obtain ⟨cause, rfl, rfl⟩ := wrapFailure_error.mp h
    exact ⟨[], scan table qualifier formula, [], cause, rfl, .scan rfl, by simp, rfl⟩

theorem exists_settle_error : (∃ e, plan.settle built = .error e) ↔
    ∃ step ∈ plan.steps, ∃ e, step.Faulty built e := by
  have hok : (∃ e, plan.settle built = .error e) ↔
      ¬ ∃ operator, plan.settle built = .ok operator := by
    cases plan.settle built <;> simp
  rw [hok, settle_ok]
  simp only [not_forall, not_not, exists_prop]

theorem run_compile_of_stopped [LawfulMonad m] (h : query.check signals = .error e) :
    (plan.compile tables query signals).run = pure (.error (.compile plan.kind.name e)) := by
  have hwithin : ∀ kind (step : ExceptT Error m (Operator m)),
      (compile.within query signals kind step).run = pure (.error (.compile kind.name e)) := by
    intro kind step
    rw [compile.within, h]
    exact congrArg (Except.mapError _ <$> ·) (pure_bind _ _) |>.trans (map_pure _ _)
  cases plan <;> exact hwithin _ _

/-- While the query is not stopped, a plan fails to compile if its table does,
or if a grouping step names a function nobody knows or has a wrong number of
fields or of output columns. The failure names the steps from the root down to
the last one that is at fault, then those of the table's own failure, and the
root cause is what is wrong with that step. The faults of a grouping step are
reported in a fixed order, the first unknown name before the numbers. Once the
query is stopped the root alone is named, and nothing else is tried.

What the table compiles to may come from outside; the rest of the compilation
is a function of it. -/
theorem compile_blames_deepest [LawfulMonad m] (tables : β → Table m) (query : Query)
    (plan : Plan β) :
    ∃ settled : Except Error (Operator m) → Except Error (Operator m),
      (∀ signals, query.check signals = .ok () →
        (plan.compile tables query signals).run =
          settled <$> (plan.compileTable tables query).run) ∧
      (∀ built, (∃ e, settled built = .error e) ↔ (∃ e, built = .error e) ∨
        ∃ spec source, group spec source ∈ plan.steps ∧
          ((∃ name ∈ spec.aggregates, ¬ AggregateFunction.Registered name) ∨
            spec.fields.length ≠ spec.aggregates.length ∨
            spec.output.length ≠ spec.key.length + spec.aggregates.length)) ∧
      (∀ built e, settled built = .error e → ∃ above step below fault,
        plan.steps = above ++ step :: below ∧ step.Faulty built fault ∧
        (∀ other ∈ below, ∀ e, ¬ other.Faulty built e) ∧
        e.compilePath = (above ++ [step]).map (fun step => step.kind.name) ++ fault.compilePath ∧
        e.rootCause = fault.rootCause ∧
        (step.kind = .group → fault.compilePath = [] ∧ fault.rootCause = fault)) ∧
      (∀ signals, query.check signals ≠ .ok () → ∃ e reason,
        (plan.compile tables query signals).run = pure (.error e) ∧
        e.compilePath = [plan.kind.name] ∧ e.rootCause = .cancelled reason) := by
  refine ⟨plan.settle, fun signals hcheck => run_compile hcheck, fun built => ?_,
    fun built e h => ?_, fun signals hcheck => ?_⟩
  · simp only [exists_settle_error, exists_faulty, GroupSpec.exists_fault]
  · obtain ⟨above, step, below, fault, hsteps, hfault, hbelow, rfl⟩ := settle_error h
    refine ⟨above, step, below, fault, hsteps, hfault, hbelow, compilePath_wrapped _ _,
      rootCause_wrapped _ _, fun hkind => ?_⟩
    cases hfault with
    | group h => exact h.bare
    | scan h => cases hkind
  · obtain ⟨reason, hreason⟩ := Query.check_error hcheck
    exact ⟨_, reason, run_compile_of_stopped hreason, rfl, rfl⟩

def byMedian : GroupSpec := ⟨[], [.const .null], ["median"], [⟨none, "m"⟩], .final⟩

theorem not_registered_median : ¬ AggregateFunction.Registered "median" := by
  rintro ⟨f, h⟩
  have hlength := congrArg String.length h
  rw [String.length_map, String.length_map] at hlength
  cases f <;> revert hlength <;> decide

theorem byMedian_fault : byMedian.Fault e ↔ e = .argument "unknown aggregate 'median'" := by
  constructor
  · intro h
    cases h with
    | @unknown before after name hfirst =>
      have hname : name ∈ byMedian.aggregates := by simp [hfirst]
      rw [List.mem_singleton.mp hname]
      rfl
    | fields hknown => exact absurd (hknown "median" (.head _)) not_registered_median
    | output hknown => exact absurd (hknown "median" (.head _)) not_registered_median
  · rintro rfl
    exact .unknown (List.nil_append _).symm (by simp) not_registered_median

/-- Under a filter a step without a field for its aggregate, and under that the
median, over a table without rows. -/
def twiceFaulty : Plan MemoryTable :=
  .filter (.const true) (.group ⟨[], [], ["sum"], [⟨none, "s"⟩], .final⟩
    (.group byMedian (.scan ⟨"mem", ["a"], [], by simp⟩ "t" (.const true))))

/-- The median is reported, with the way to it from the root. -/
theorem compile_blames_deepest_of_two :
    (Query.unlabelled 0).check .quiet = .ok () ∧
    ∃ e, (twiceFaulty.compile (m := Id) MemoryTable.toTable (.unlabelled 0) .quiet).run =
        Except.error e ∧
      e.compilePath = ["filter", "group by", "group by"] ∧
      e.rootCause = .argument "unknown aggregate 'median'" := by
  obtain ⟨settled, hrun, hfails, hblame, -⟩ :=
    compile_blames_deepest (m := Id) MemoryTable.toTable (.unlabelled 0) twiceFaulty
  obtain ⟨operator, hbuilt⟩ : ∃ operator,
      (twiceFaulty.compileTable (m := Id) MemoryTable.toTable (.unlabelled 0)).run =
        Except.ok operator := ⟨_, rfl⟩
  have hfault : ∃ e, settled (.ok operator) = .error e :=
    (hfails _).mpr (.inr ⟨_, _, .tail _ (.head _), .inr (.inl (by decide))⟩)
  obtain ⟨e, he⟩ := hfault
  have hcompile := (hrun .quiet rfl).trans (congrArg settled hbuilt)
  refine ⟨rfl, e, hcompile.trans he, ?_⟩
  obtain ⟨above, step, below, fault, hsteps, hfaulty, hbelow, hpath, hroot, hbare⟩ := hblame _ e he
  rcases above with _ | ⟨_, _ | ⟨_, _ | ⟨_, _ | ⟨_, above⟩⟩⟩⟩ <;>
    simp only [twiceFaulty, steps, List.nil_append, List.cons_append, List.cons.injEq] at hsteps
  · obtain ⟨rfl, -⟩ := hsteps
    cases hfaulty
  · obtain ⟨-, -, rfl⟩ := hsteps
    exact absurd (.group (byMedian_fault.mpr rfl)) (hbelow _ (.head _) _)
  · obtain ⟨rfl, rfl, rfl, -⟩ := hsteps
    cases hfaulty with | group h => ?_
    cases byMedian_fault.mp h
    exact ⟨hpath, hroot⟩
  · obtain ⟨-, -, -, rfl, -⟩ := hsteps
    cases hfaulty with | scan h => cases h
  · simp at hsteps

end Plan

end StreamQuery
