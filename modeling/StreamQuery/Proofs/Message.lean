import StreamQuery.Condition.Eval
import StreamQuery.Proofs.Aggregate.Acceptance
import StreamQuery.Proofs.Condition.Ordering
import StreamQuery.Proofs.Value.Text

/-!
# Failures without a message

A failure has a message unless a value that it names has no text. Here it is
said of aggregates and relations which values those are (`message_eq_none`): a
value that is refused for its kind, the first value of the run where one of
another kind comes later, the key of a group that does not exist. The other
failures, totals out of range and values without an order, always have one.
-/

namespace StreamQuery

theorem GroupKey.render_eq_none {key : GroupKey} : key.render = none ↔ ¬ key.toValue.Writable :=
  key.toValue.render_eq_none

theorem Error.message_mixedTypes {value lockedValue : Rendering} :
    (mixedTypes aggregate kind value lockedKind lockedValue).message = none ↔
      value = none ∨ lockedValue = none := by
  cases value <;> cases lockedValue <;> simp [message]

theorem Value.message_refusedBy {v : Value} :
    (v.refusedBy context).message = none ↔ ¬ v.Writable := by
  rw [← v.render_eq_none, refusedBy, Error.message]
  cases v.render <;> simp

-- ---------------------------------------------------------------------------
-- Locks
-- ---------------------------------------------------------------------------

namespace KindLock

theorem message_verdict {lock : KindLock} (h : lock.verdict aggregate v accepted = .error e) :
    e.message = none ↔ ¬ v.Writable ∨ (v.kind ∈ accepted ∧
      ∃ first, lock.first = some first ∧ first.kind ≠ v.kind ∧ ¬ first.Writable) := by
  unfold verdict at h
  by_cases hv : v.kind ∈ accepted
  · rw [if_pos hv] at h
    cases hfirst : lock.first with
    | none => simp [hfirst] at h
    | some first =>
      simp only [hfirst] at h
      by_cases hkind : first.kind = v.kind
      · rw [if_pos hkind] at h
        cases h
      · rw [if_neg hkind] at h
        cases h
        simp [Error.message_mixedTypes, Value.render_eq_none, hv, hkind]
  · rw [if_neg hv] at h
    cases h
    simp [Value.message_refusedBy, hv]

end KindLock

-- ---------------------------------------------------------------------------
-- Aggregates
-- ---------------------------------------------------------------------------

theorem Total.message_add {total v : Value} (hkind : total.kind = v.kind)
    (hv : v.kind ∈ AggregateFunction.sum.acceptedKinds) (h : add total v = .error e) :
    v.Writable ∧ e.message ≠ none := by
  have helim : ∀ (result : Option Value) (failure : Error),
      result.elim (.error failure) .ok = Except.error e → e = failure := by
    intro result failure h
    cases result with
    | none => exact (Except.error.inj h).symm
    | some next => cases h
  cases v with
  | int n =>
    cases total with
    | int m =>
      rw [helim _ _ h]
      simp [Value.Writable, overflow, Error.message, Value.render]
    | _ => cases hkind
  | float x =>
    cases total with
    | float y => cases h
    | _ => cases hkind
  | duration d =>
    cases total with
    | duration c =>
      rw [helim _ _ h]
      simp [Value.Writable, overflow, Error.message, Value.render]
    | _ => cases hkind
  | _ => simp [Value.kind, AggregateFunction.acceptedKinds] at hv

namespace Accumulator

variable {f : AggregateFunction} {acc : Accumulator f} {key : GroupKey} {v : Value} {e : Error}

theorem verdict_add_error : (acc.add key v).1 = .error e ↔ acc.advance key v = .error e := by
  unfold add
  cases acc.advance key v <;> simp

theorem message_inspect (hf : ¬ f.acceptedKinds.isEmpty) (h : (acc.inspect v).1 = .error e) :
    e.message = none ↔ ¬ v.Writable ∨ (v.kind ∈ f.acceptedKinds ∧
      ∃ first, acc.lock.first = some first ∧ first.kind ≠ v.kind ∧ ¬ first.Writable) := by
  rw [inspect_of_locks hf] at h
  rw [KindLock.message_verdict h, KindLock.first_offered]
  cases acc.lock.first <;> simp

theorem message_get (h : acc.get key = .error e) :
    e.message = none ↔ ¬ key.toValue.Writable := by
  unfold get at h
  split at h
  · cases h
  · cases h
    rw [← GroupKey.render_eq_none, Error.message]
    cases key.render <;> simp

end Accumulator

namespace AggregateFunction

variable {f : AggregateFunction} {before : List (GroupKey × Value)} {key : GroupKey}
  {values : List Value} {v : Value} {e : Error}

/-- A value of the right kind is refused only if a total gets out of range, and
numbers always have a text. -/
theorem message_step {cell : Option f.Cell} (hv : v.kind ∈ f.acceptedKinds)
    (h : f.Reflects v.kind values cell) (hs : f.step cell v = .error e) :
    v.Writable ∧ e.message ≠ none := by
  have hno : ¬ f.Affords v.kind (Value.amounts values + v.amount) := by
    rw [← step_ok hv h, hs]
    simp
  cases f with
  | sum =>
    cases cell with
    | none => cases hs.symm.trans (Total.first_ok.mpr ⟨hv, rfl⟩)
    | some total => exact Total.message_add h.2.1 hv hs
  | _ => exact absurd trivial hno

theorem message_add_fed (hb : ∀ addition ∈ before, addition.1.Bounded) (hkey : key.Bounded)
    (h : ((f.fed before).add key v).1 = .error e) :
    e.message = none ↔ ¬ v.Writable ∨ (v.kind ∈ f.acceptedKinds ∧
      ∃ first, firstValue before = some first ∧ first.kind ≠ v.kind ∧ ¬ first.Writable) := by
  rw [Accumulator.verdict_add_error, Accumulator.advance, bind_error] at h
  by_cases hf : f.acceptedKinds.isEmpty
  · obtain ⟨next, hnext⟩ := exists_step_of_takes_all hf ((f.fed before).cells.get? key) v
    simp [Accumulator.inspect_of_takes_all hf, hnext] at h
  · have hfirst : (f.fed before).lock.first = firstValue before := first_feed hf .start
    rcases h with hinspect | ⟨⟨⟩, hinspect, hstep⟩
    · rw [Accumulator.message_inspect hf hinspect, hfirst]
    · obtain ⟨hv, hkind⟩ := (inspect_fed hf key []).mp hinspect
      obtain ⟨hwritable, hmessage⟩ := message_step hv (reflects_before hkind hb hkey) hstep
      have hsame : ∀ first, firstValue before = some first → first.kind = v.kind := by
        intro first hsome
        refine ((Accumulator.inspect_ok hf).mp hinspect).2 first.kind ?_
        rw [KindLock.kind, hfirst, hsome, Option.map_some]
      simp only [hmessage, hwritable, not_true_eq_false, false_or, false_iff]
      rintro ⟨-, first, hsome, hne, -⟩
      exact hne (hsame first hsome)

end AggregateFunction

-- ---------------------------------------------------------------------------
-- Relations
-- ---------------------------------------------------------------------------

namespace Relation

variable {relation : Relation} {left right : Value} {e : Error}

theorem message_of_exchanged {x y : Except Error Bool} (hx : Exchanged id x y) :
    (x = .error e → e.message ≠ none) ∧ (y = .error e → e.message ≠ none) := by
  cases hx with
  | ok b => simp
  | mismatch left right =>
    constructor <;>
    · rintro ⟨⟩
      simp [Error.message]

theorem message_holds (h : relation.holds left right = .error e) :
    e.message = none ↔ (relation = .isIn ∧ ¬ right.Writable) ∨
      (relation = .like ∧ (¬ left.Writable ∨ left.kind = .string ∧ ¬ right.Writable)) := by
  cases relation with
  | equal | notEqual => cases h
  | moreThan => simpa using (message_of_exchanged (moreThan_exchanged left right)).1 h
  | lessThan => simpa using (message_of_exchanged (moreThan_exchanged right left)).2 h
  | isIn =>
    cases right with
    | tuple items => cases h
    | _ =>
      cases h
      simp [Value.message_refusedBy]
  | like =>
    cases left with
    | string text =>
      cases right with
      | string pattern => cases h
      | _ =>
        cases h
        simp [Value.message_refusedBy, Value.kind, Value.Writable]
    | _ =>
      cases h
      simp [Value.message_refusedBy, Value.kind]

end Relation

-- ---------------------------------------------------------------------------
-- All of them
-- ---------------------------------------------------------------------------

/-- When a failure lacks a message, whatever the aggregate was offered before: for
a refused value, if the value has no text, or if its kind is accepted but is not
that of the first value of the run, and this one has no text; for a group that
is not found, if its key has no text; for a relation, if it is a membership or a
pattern match and the operand that it does not take has no text.

Premise: the lengths in the keys fit eight bytes. -/
theorem message_eq_none (f : AggregateFunction) (before : List (GroupKey × Value))
    (hb : ∀ addition ∈ before, addition.1.Bounded) :
    (∀ (key : GroupKey) (v : Value) (e : Error), key.Bounded →
      ((f.fed before).add key v).1 = .error e →
        (e.message = none ↔ ¬ v.Writable ∨ (v.kind ∈ f.acceptedKinds ∧ ∃ first,
          AggregateFunction.firstValue before = some first ∧ first.kind ≠ v.kind ∧
            ¬ first.Writable))) ∧
    (∀ (key : GroupKey) (e : Error), (f.fed before).get key = .error e →
      (e.message = none ↔ ¬ key.toValue.Writable)) ∧
    (∀ (relation : Relation) (left right : Value) (e : Error),
      relation.holds left right = .error e →
        (e.message = none ↔ (relation = .isIn ∧ ¬ right.Writable) ∨
          (relation = .like ∧ (¬ left.Writable ∨ left.kind = .string ∧ ¬ right.Writable)))) :=
  ⟨fun _ _ _ hkey h => AggregateFunction.message_add_fed hb hkey h,
    fun _ _ h => Accumulator.message_get h, fun _ _ _ _ h => Relation.message_holds h⟩

/-- The beginning of 1970 in UTC, on a clock that is one second ahead. -/
def oneSecondAhead : Value := .time ⟨0, 1, by decide, by decide⟩

theorem mean_of_oneSecondAhead : ∃ e,
    ((AggregateFunction.avg.fed []).add ⟨[.string "a"]⟩ oneSecondAhead).1 = .error e ∧
      e.message = none :=
  ⟨_, rfl, rfl⟩

/-- What cannot be told here is the value that was taken before. -/
theorem maximum_after_oneSecondAhead :
    (⟨[.string "a"]⟩ : GroupKey).Bounded ∧ (Value.int 1).Writable ∧ ∃ e,
      ((AggregateFunction.max.fed [(⟨[.string "a"]⟩, oneSecondAhead)]).add ⟨[.string "a"]⟩
        (.int 1)).1 = .error e ∧ e.message = none := by
  have hkey : (⟨[.string "a"]⟩ : GroupKey).Bounded := by decide
  have hb : ∀ addition ∈ [((⟨[.string "a"]⟩ : GroupKey), oneSecondAhead)], addition.1.Bounded :=
    List.forall_mem_singleton.mpr hkey
  refine ⟨hkey, by decide, ?_⟩
  cases h : ((AggregateFunction.max.fed [(⟨[.string "a"]⟩, oneSecondAhead)]).add ⟨[.string "a"]⟩
      (.int 1)).1 with
  | ok u =>
    rcases (AggregateFunction.add_fed_ok hb hkey []).mp h with hall | ⟨-, hkind, -⟩
    · exact absurd hall (by decide)
    · exact absurd hkind (by decide)
  | error e =>
    exact ⟨e, rfl, ((message_eq_none .max _ hb).1 _ _ e hkey h).mpr
      (.inr ⟨by decide, oneSecondAhead, rfl, by decide, by decide⟩)⟩

end StreamQuery
