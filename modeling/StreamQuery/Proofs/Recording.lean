import StreamQuery.Error

/-!
# Steps with a record

To say in which order a computation takes its steps, each step can be made to
write an entry behind a record (`recorded`). `Notes x y p` says that `x` is `y`
with a record: it gives the same result and leaves the same state, and what it
writes stands to the result as `p` says. The lemmas carry this from the steps to
what is built from them.
-/

namespace StreamQuery

variable {σ κ α β : Type}

abbrev Recorder (σ κ : Type) : Type → Type := StateM (σ × List κ)

def recorded (entry : α → κ) (step : StateM σ α) : Recorder σ κ α := fun (s, record) =>
  let (a, after) := step.run s
  (a, (after, record ++ [entry a]))

/-- `x` does what `y` does, and writes entries that stand to the result as `p`
says, whatever the state and the record before. -/
def Notes (x : Recorder σ κ α) (y : StateM σ α) (p : List κ → α → Prop) : Prop :=
  ∀ s record, ∃ entries a after, y.run s = (a, after) ∧
    x.run (s, record) = (a, (after, record ++ entries)) ∧ p entries a

namespace Notes

variable {x : Recorder σ κ α} {y : StateM σ α} {p q : List κ → α → Prop}

theorem recorded (entry : α → κ) (step : StateM σ α) :
    Notes (recorded entry step) step fun entries a => entries = [entry a] :=
  fun s _ => ⟨[entry (step.run s).1], (step.run s).1, (step.run s).2, rfl, rfl, rfl⟩

theorem pure {a : α} (h : p [] a) :
    Notes (Pure.pure a : Recorder σ κ α) (Pure.pure a : StateM σ α) p := fun s record =>
  ⟨[], a, s, rfl, congrArg (fun r => (a, (s, r))) (List.append_nil record).symm, h⟩

theorem mono (h : Notes x y p) (hpq : ∀ entries a, p entries a → q entries a) : Notes x y q := by
  intro s record
  obtain ⟨entries, a, after, hy, hx, hp⟩ := h s record
  exact ⟨entries, a, after, hy, hx, hpq entries a hp⟩

theorem bind {f : α → Recorder σ κ β} {g : α → StateM σ β} {r : α → List κ → β → Prop}
    (h : Notes x y p) (hf : ∀ a, Notes (f a) (g a) (r a)) :
    Notes (x >>= f) (y >>= g) fun entries b =>
      ∃ a first rest, entries = first ++ rest ∧ p first a ∧ r a rest b := by
  intro s record
  obtain ⟨first, a, after, hy, hx, hp⟩ := h s record
  obtain ⟨rest, b, last, hg, hf, hr⟩ := hf a after (record ++ first)
  refine ⟨first ++ rest, b, last, ?_, ?_, a, first, rest, rfl, hp, hr⟩
  · rw [StateT.run_bind, hy]
    exact hg
  · rw [StateT.run_bind, hx, ← List.append_assoc]
    exact hf

theorem fst_eq {a : α} (h : Notes x y p) (hp : ∀ entries b, p entries b → b = a) (s : σ) :
    (y.run s).1 = a := by
  obtain ⟨entries, b, after, hy, -, hb⟩ := h s []
  rw [hy]
  exact hp entries b hb

end Notes

-- ---------------------------------------------------------------------------
-- Steps that may fail
-- ---------------------------------------------------------------------------

/-- What is written and given by two steps, the second of which is taken only
after a success of the first. -/
inductive Then (p : List κ → Except Error α → Prop) (q : α → List κ → Except Error β → Prop) :
    List κ → Except Error β → Prop where
  | failed {entries : List κ} {e : Error} (h : p entries (.error e)) : Then p q entries (.error e)
  | next {first rest : List κ} {a : α} {outcome : Except Error β} (h : p first (.ok a))
      (hrest : q a rest outcome) : Then p q (first ++ rest) outcome

theorem Notes.lift {x : Recorder σ κ α} {y : StateM σ α} {p : List κ → α → Prop}
    (h : Notes x y p) :
    Notes (ExceptT.lift x : ExceptT Error (Recorder σ κ) α).run
      (ExceptT.lift y : ExceptT Error (StateM σ) α).run fun entries outcome =>
        ∃ a, outcome = .ok a ∧ p entries a := by
  intro s record
  obtain ⟨entries, a, after, hy, hx, hp⟩ := h s record
  refine ⟨entries, .ok a, after, ?_, ?_, a, rfl, hp⟩
  · rw [ExceptT.run_lift, StateT.run_map, hy]
    rfl
  · rw [ExceptT.run_lift, StateT.run_map, hx]
    rfl

theorem Notes.bindExcept {x : ExceptT Error (Recorder σ κ) α} {y : ExceptT Error (StateM σ) α}
    {f : α → ExceptT Error (Recorder σ κ) β} {g : α → ExceptT Error (StateM σ) β}
    {p : List κ → Except Error α → Prop} {q : α → List κ → Except Error β → Prop}
    (h : Notes x.run y.run p) (hf : ∀ a, Notes (f a).run (g a).run (q a)) :
    Notes (x >>= f).run (y >>= g).run (Then p q) := by
  intro s record
  obtain ⟨first, outcome, after, hy, hx, hp⟩ := h s record
  rw [ExceptT.run_bind, ExceptT.run_bind, StateT.run_bind, StateT.run_bind, hy, hx]
  cases outcome with
  | error e => exact ⟨first, .error e, after, rfl, rfl, .failed hp⟩
  | ok a =>
    obtain ⟨rest, final, last, hg, hf, hq⟩ := hf a after (record ++ first)
    refine ⟨first ++ rest, final, last, hg, ?_, .next hp hq⟩
    rw [← List.append_assoc]
    exact hf

end StreamQuery
