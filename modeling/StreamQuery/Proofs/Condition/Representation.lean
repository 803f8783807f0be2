import StreamQuery.Proofs.Condition.Outcome
import StreamQuery.Proofs.Outcome
import StreamQuery.Proofs.Value.Order

/-!
# Evaluation up to equality

Evaluation does not see how equal values are represented. Scopes that have the
same normal form bind the same names in the same order to equal values; in two
such scopes an expression has equal values or fails with the same failure
(`Scalar.eval_congr`), and a condition has the same outcome or fails in both
(`Condition.eval_congr`). Only the failures of a condition may differ: they
show the values. `evaluation_respects_equality` says it with the equality of the
values themselves (`Scope.Alike`).
-/

namespace StreamQuery

-- ---------------------------------------------------------------------------
-- Scopes
-- ---------------------------------------------------------------------------

def Frame.normal (frame : Frame) : Frame := frame.map fun column => (column.1, column.2.normal)

def Scope.normal (scope : Scope) : Scope := ⟨scope.frames.map Frame.normal⟩

theorem Frame.find?_normal (frame : Frame) (addressed : Name → Bool) :
    (frame.normal.find? fun column => addressed column.1) =
      (frame.find? fun column => addressed column.1).map
        fun column => (column.1, column.2.normal) :=
  List.find?_map

theorem Frame.lookup_normal (frame : Frame) (name : Name) :
    frame.normal.lookup name = (frame.lookup name).map Value.normal := by
  rw [lookup, lookup, frame.find?_normal fun other => other == name,
    frame.find?_normal name.addresses]
  cases frame.find? fun column => column.1 == name with
  | some column => rfl
  | none => simp only [Option.map_none, Option.map_map]; rfl

namespace Scope

variable {scope other : Scope}

theorem resolve_normal (name : Name) (frames : List Frame) :
    resolve name (frames.map Frame.normal) = (resolve name frames).map Value.normal := by
  induction frames with
  | nil => rfl
  | cons frame outer ih =>
    rw [List.map_cons, resolve, resolve, frame.lookup_normal]
    cases frame.lookup name with
    | some v => rfl
    | none => exact ih

theorem get_congr (h : scope.normal = other.normal) (name : Name) :
    (scope.get name).map Value.normal = (other.get name).map Value.normal := by
  have hframes : scope.frames.map Frame.normal = other.frames.map Frame.normal :=
    congrArg frames h
  rw [get, get, ← resolve_normal, ← resolve_normal, hframes]

end Scope

theorem Record.normal_columns {a b : Record} (h : a.sameRow b) :
    Frame.normal a.columns = Frame.normal b.columns := by
  obtain ⟨hnames, hvalues⟩ := sameRow_iff.mp h
  simp only [names, values, List.map_map] at hnames hvalues
  have hzip : ∀ frame : Frame, frame.normal =
      (frame.map Prod.fst).zip (frame.map (Value.normal ∘ Prod.snd)) := fun frame => by
    rw [List.zip_map', Frame.normal]; rfl
  rw [hzip, hzip, hnames, hvalues]

theorem forall₂_iff_map_eq {related : α → α → Prop} {f : α → β}
    (h : ∀ a b, related a b ↔ f a = f b) {xs ys : List α} :
    List.Forall₂ related xs ys ↔ xs.map f = ys.map f := by
  have hrelated : related = fun a b => f a = f b := funext₂ fun a b => propext (h a b)
  rw [← List.forall₂_eq_eq_eq, List.forall₂_map_left_iff, List.forall₂_map_right_iff, hrelated]

/-- The same names in the same order, bound to equal values. -/
def Frame.Alike (frame other : Frame) : Prop :=
  List.Forall₂ (fun column column' => column.1 = column'.1 ∧ column.2 == column'.2) frame other

def Scope.Alike (scope other : Scope) : Prop := List.Forall₂ Frame.Alike scope.frames other.frames

theorem Frame.alike_iff {frame other : Frame} :
    frame.Alike other ↔ frame.normal = other.normal := by
  refine forall₂_iff_map_eq fun column column' => ?_
  rw [Prod.mk.injEq, Value.eq_iff_normal]

theorem Scope.alike_iff {scope other : Scope} :
    scope.Alike other ↔ scope.normal = other.normal := by
  have hframes : ∀ frame frame' : Frame, frame.Alike frame' ↔ frame.normal = frame'.normal :=
    fun _ _ => Frame.alike_iff
  rw [normal, normal, Scope.mk.injEq]
  exact forall₂_iff_map_eq hframes

theorem Scope.normal_withRecord (scope : Scope) {a b : Record} (h : a.sameRow b) :
    (scope.withRecord a).normal = (scope.withRecord b).normal := by
  rw [withRecord, withRecord, normal, normal, List.map_cons, List.map_cons, Record.normal_columns h]

-- ---------------------------------------------------------------------------
-- Expressions
-- ---------------------------------------------------------------------------

namespace Scalar

variable {scope other : Scope}

mutual

theorem eval_congr (h : scope.normal = other.normal) : (s : Scalar) →
    (s.eval scope).map Value.normal = (s.eval other).map Value.normal
  | .var name => Scope.get_congr h name
  | .const _ => rfl
  | .tuple items => by
    rw [eval, eval]
    rcases map_eq_map.mp (evalItems_congr h items) with ⟨e, hl, hr⟩ | ⟨values, others, hl, hr, heq⟩
    · rw [hl, hr]
    · rw [hl, hr]
      exact congrArg (Except.ok ∘ Value.tuple) heq
termination_by structural s => s

theorem evalItems_congr (h : scope.normal = other.normal) : (items : List Scalar) →
    (evalItems scope items).map Value.normalItems = (evalItems other items).map Value.normalItems
  | [] => rfl
  | s :: rest => by
    rw [evalItems, evalItems]
    rcases map_eq_map.mp (eval_congr h s) with ⟨e, hl, hr⟩ | ⟨v, w, hl, hr, heq⟩
    · rw [hl, hr]
      rfl
    · rw [hl, hr, ok_bind, ok_bind]
      rcases map_eq_map.mp (evalItems_congr h rest) with
        ⟨e, hls, hrs⟩ | ⟨values, others, hls, hrs, heqs⟩
      · rw [hls, hrs]
        rfl
      · rw [hls, hrs]
        exact congrArg Except.ok (by rw [Value.normalItems, Value.normalItems, heq, heqs])
termination_by structural items => items

end

end Scalar

-- ---------------------------------------------------------------------------
-- Relations
-- ---------------------------------------------------------------------------

namespace Relation

theorem any_normal (items : List Value) (v : Value) :
    ((Value.normalItems items).any fun item => item == v.normal) =
      items.any fun item => item == v := by
  rw [Value.normalItems_eq_map, List.any_map]
  simp only [Function.comp_def, Value.normal_beq]

theorem ordered_normal (left right : Value) (wanted : Ordering) :
    holds.ordered left.normal right.normal wanted = holds.ordered left right wanted := by
  have hnull : ∀ v : Value, v.normal.isNull = v.isNull := fun v => by cases v <;> rfl
  rw [holds.ordered, holds.ordered, hnull, hnull, Value.compare_normal]

/-- A relation holds of the normal forms if it holds of the values, and where it
has no outcome it has none for them either. -/
theorem holds_normal (relation : Relation) (left right : Value) :
    (relation.holds left.normal right.normal).toOption = (relation.holds left right).toOption := by
  cases relation with
  | equal | notEqual => simp only [holds, Value.normal_beq]
  | moreThan | lessThan => simp only [holds, ordered_normal]
  | isIn =>
    cases right with
    | tuple items => exact congrArg some (any_normal items left)
    | _ => simp only [holds, Value.normal, toOption_error]
  | like =>
    -- Strings are their own normal form, and the other kinds fail.
    cases left <;> cases right <;> simp only [holds, Value.normal, toOption_error]

theorem holds_congr (relation : Relation) {left left' right right' : Value}
    (hl : left.normal = left'.normal) (hr : right.normal = right'.normal) :
    (relation.holds left right).toOption = (relation.holds left' right').toOption := by
  rw [← holds_normal, hl, hr, holds_normal]

end Relation

-- ---------------------------------------------------------------------------
-- Conditions
-- ---------------------------------------------------------------------------

theorem toOption_bothHold (left right : Except Error Bool) : (bothHold left right).toOption =
    left.toOption.bind fun b => if b then right.toOption else some false := by
  cases left with
  | error e => rfl
  | ok b => cases b <;> rfl

theorem toOption_eitherHolds (left right : Except Error Bool) : (eitherHolds left right).toOption =
    left.toOption.bind fun b => if b then some true else right.toOption := by
  cases left with
  | error e => rfl
  | ok b => cases b <;> rfl

theorem toOption_map (f : α → β) (x : Except ε α) : (f <$> x).toOption = x.toOption.map f := by
  cases x <;> rfl

namespace Condition

variable {scope other : Scope}

theorem outcome_congr (h : scope.normal = other.normal) (condition : Condition) :
    (condition.outcome scope).toOption = (condition.outcome other).toOption := by
  induction condition with
  | and left right ihl ihr =>
    rw [outcome, outcome, toOption_bothHold, toOption_bothHold, ihl, ihr]
  | or left right ihl ihr =>
    rw [outcome, outcome, toOption_eitherHolds, toOption_eitherHolds, ihl, ihr]
  | not inner ih => rw [outcome, outcome, toOption_map, toOption_map, ih]
  | const b => rfl
  | predicate left relation right =>
    rw [outcome, outcome, evalPredicate, evalPredicate]
    rcases map_eq_map.mp (Scalar.eval_congr h left) with ⟨e, hl, hr⟩ | ⟨l, l', hl, hr, hleft⟩
    · rw [hl, hr, error_bind, error_bind]
    · rw [hl, hr, ok_bind, ok_bind]
      rcases map_eq_map.mp (Scalar.eval_congr h right) with ⟨e, hl, hr⟩ | ⟨r, r', hl, hr, hright⟩
      · rw [hl, hr, error_bind, error_bind]
      · rw [hl, hr, ok_bind, ok_bind]
        exact relation.holds_congr hleft hright

theorem eval_congr (h : scope.normal = other.normal) (condition : Condition) :
    (condition.eval scope).toOption = (condition.eval other).toOption := by
  rw [eval_eq_outcome, eval_eq_outcome, outcome_congr h]

theorem eval_withRecord_congr (condition : Condition) (scope : Scope) {a b : Record}
    (h : a.sameRow b) :
    (condition.eval (scope.withRecord a)).toOption =
      (condition.eval (scope.withRecord b)).toOption :=
  eval_congr (scope.normal_withRecord h) condition

end Condition

/-- Where the same names are bound in the same order to equal values, no evaluation can
tell which of the values it has seen. A condition succeeds in both scopes with the same
outcome or fails in both, where a panic counts as failing. An expression has equal
values in both or fails in both, and then for the same reason. -/
theorem evaluation_respects_equality {scope other : Scope} (h : scope.Alike other) :
    (∀ condition : Condition,
      (∃ b, condition.eval scope = .ok b ∧ condition.eval other = .ok b) ∨
        ∃ e e', condition.eval scope = .error e ∧ condition.eval other = .error e') ∧
    ∀ s : Scalar,
      (∃ v w, s.eval scope = .ok v ∧ s.eval other = .ok w ∧ v == w) ∨
        ∃ e, s.eval scope = .error e ∧ s.eval other = .error e := by
  have hnormal := Scope.alike_iff.mp h
  constructor
  · intro condition
    have hcongr := Condition.eval_congr hnormal condition
    cases hscope : condition.eval scope with
    | error e =>
      cases hother : condition.eval other with
      | error e' => exact .inr ⟨e, e', rfl, rfl⟩
      | ok b => simp [hscope, hother, Except.toOption] at hcongr
    | ok b =>
      rw [hscope] at hcongr
      exact .inl ⟨b, rfl, toOption_eq_some.mp hcongr.symm⟩
  · intro s
    rcases map_eq_map.mp (Scalar.eval_congr hnormal s) with ⟨e, hl, hr⟩ | ⟨v, w, hl, hr, heq⟩
    · exact .inr ⟨e, hl, hr⟩
    · exact .inl ⟨v, w, hl, hr, Value.eq_iff_normal.mpr heq⟩

def shown (zero nan : Double) (instant : Timestamp) : Scope :=
  ⟨[[(⟨some "r", "zero"⟩, .float zero), (⟨some "r", "nan"⟩, .float nan)],
    [(⟨none, "at"⟩, .time instant)]]⟩

def secondInUtc : Timestamp := ⟨1000000000, 0, by decide, by decide⟩

def secondInParis : Timestamp := ⟨1000000000, 3600, by decide, by decide⟩

def isListed : Condition :=
  .and (.predicate (.var ⟨none, "zero"⟩) .equal (.const (.float .zero)))
    (.predicate (.tuple [.var ⟨none, "nan"⟩, .var ⟨none, "at"⟩]) .isIn
      (.const (.tuple [.null, .tuple [.float .nan, .time secondInUtc]])))

theorem evaluation_respects_equality_of_zeros :
    (shown .zero .nan secondInUtc).Alike (shown (.neg .zero) (.neg .nan) secondInParis) ∧
      (isListed.eval (shown .zero .nan secondInUtc) = .ok true ∧
        isListed.eval (shown (.neg .zero) (.neg .nan) secondInParis) = .ok true) ∧
      ∃ v w, (Scalar.var ⟨some "r", "zero"⟩).eval (shown .zero .nan secondInUtc) = .ok v ∧
        (Scalar.var ⟨some "r", "zero"⟩).eval (shown (.neg .zero) (.neg .nan) secondInParis) = .ok w ∧
          v == w ∧ v ≠ w := by
  have halike : (shown .zero .nan secondInUtc).Alike (shown (.neg .zero) (.neg .nan) secondInParis) :=
    .cons (.cons ⟨rfl, by decide⟩ (.cons ⟨rfl, by decide⟩ .nil))
      (.cons (.cons ⟨rfl, by decide⟩ .nil) .nil)
  obtain ⟨hcondition, hscalar⟩ := evaluation_respects_equality halike
  have hlisted : isListed.eval (shown .zero .nan secondInUtc) = .ok true := by
    rw [isListed.eval_eq_outcome]
    rfl
  refine ⟨halike, ⟨hlisted, ?_⟩, ?_⟩
  · rcases hcondition isListed with ⟨b, hleft, hright⟩ | ⟨e, -, hleft, -⟩
    · rw [hright, ← hleft, hlisted]
    · rw [hlisted] at hleft
      cases hleft
  · rcases hscalar (.var ⟨some "r", "zero"⟩) with ⟨v, w, hleft, hright, heq⟩ | ⟨e, hleft, -⟩
    · refine ⟨v, w, hleft, hright, heq, ?_⟩
      rintro rfl
      cases hleft
      cases hright
    · cases hleft

end StreamQuery
