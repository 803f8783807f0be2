import StreamQuery.Proofs.Condition.Meaning

/-!
# Conjuncts

A conjunction has the outcome of the first of its operands that does not hold, be it
`false` or a failure, however the operands are nested. So a formula can be split into
its conjuncts and put together again (`conjuncts_rejoined`). While a formula is split,
what has been found and what still waits on the stack together mean the same at every
step (`firstOtherThan_split`).
-/

namespace StreamQuery

/-- The first of these outcomes that is not `passing`, and `passing` if all are. -/
def firstOtherThan (passing : Bool) (outcomes : List (Except Error Bool)) : Except Error Bool :=
  (outcomes.find? fun outcome => outcome.toOption != some passing).getD (.ok passing)

theorem firstOtherThan_bothHold (before : List (Except Error Bool)) (left right : Except Error Bool)
    (after : List (Except Error Bool)) :
    firstOtherThan true (before ++ bothHold left right :: after) =
      firstOtherThan true (before ++ left :: right :: after) := by
  obtain e | _ | _ := left <;> simp [firstOtherThan, bothHold, Except.toOption, List.find?_append]

theorem firstOtherThan_eitherHolds (left right : Except Error Bool)
    (after : List (Except Error Bool)) :
    firstOtherThan false (eitherHolds left right :: after) =
      firstOtherThan false (left :: right :: after) := by
  obtain e | _ | _ := left <;> simp [firstOtherThan, eitherHolds, Except.toOption]

theorem firstOtherThan_singleton (passing : Bool) (outcome : Except Error Bool) :
    firstOtherThan passing [outcome] = outcome := by
  obtain e | b := outcome
  · simp [firstOtherThan, Except.toOption]
  · cases passing <;> cases b <;> rfl

namespace Formula

-- ---------------------------------------------------------------------------
-- Joining
-- ---------------------------------------------------------------------------

variable {scope : Scope}

theorem outcome_foldl {join : Formula → Formula → Formula} {passing : Bool}
    (hjoin : ∀ f g after, firstOtherThan passing ((join f g).outcome scope :: after) =
      firstOtherThan passing (f.outcome scope :: g.outcome scope :: after))
    (f : Formula) (fs : List Formula) :
    (fs.foldl join f).outcome scope = firstOtherThan passing ((f :: fs).map (outcome scope)) := by
  -- The chain grows to the left, so its innermost link is the first of the list.
  induction fs generalizing f with
  | nil => exact (firstOtherThan_singleton passing _).symm
  | cons g fs ih =>
    rw [List.foldl_cons, ih]
    exact hjoin f g _

theorem outcome_allOf (fs : List Formula) :
    (allOf fs).outcome scope = firstOtherThan true (fs.map (outcome scope)) := by
  cases fs with
  | nil => rfl
  | cons f fs => exact outcome_foldl (fun _ _ _ => firstOtherThan_bothHold [] _ _ _) f fs

theorem outcome_anyOf (fs : List Formula) :
    (anyOf fs).outcome scope = firstOtherThan false (fs.map (outcome scope)) := by
  cases fs with
  | nil => rfl
  | cons f fs => exact outcome_foldl (fun _ _ _ => firstOtherThan_eitherHolds _ _ _) f fs

-- ---------------------------------------------------------------------------
-- Splitting
-- ---------------------------------------------------------------------------

theorem split_of_kind_ne (h : f.kind ≠ .and) (work : List Formula) (found : Array Formula) :
    split (f :: work) found = split work (found.push f) := by
  cases f with
  | and left right => exact absurd rfl h
  | _ => rw [split]; simp

theorem firstOtherThan_split (work : List Formula) (found : Array Formula) :
    firstOtherThan true ((split work found).toList.map (outcome scope)) =
      firstOtherThan true ((found.toList ++ work).map (outcome scope)) := by
  fun_induction split work found with
  | case1 found => simp
  | case2 found left right work ih =>
    rw [ih, List.map_append, List.map_append, List.map_cons, List.map_cons, List.map_cons, outcome,
      firstOtherThan_bothHold]
  | case3 found f work hf ih => rw [ih, Array.toList_push, List.append_assoc, List.singleton_append]

theorem kind_ne_of_mem_split (work : List Formula) (found : Array Formula)
    (h : ∀ f ∈ found, f.kind ≠ .and) : ∀ f ∈ split work found, f.kind ≠ .and := by
  fun_induction split work found with
  | case1 found => exact h
  | case2 found left right work ih => exact ih h
  | case3 found f work hf ih =>
    refine ih fun g hg => ?_
    rcases Array.mem_push.mp hg with hg | rfl
    · exact h g hg
    · cases g with
      | and left right => exact absurd rfl (hf left right)
      | _ => simp [kind]

theorem split_foldl (f : Formula) (fs work : List Formula) (found : Array Formula) :
    split (fs.foldl and f :: work) found = split (f :: fs ++ work) found := by
  induction fs generalizing f with
  | nil => rfl
  | cons g fs ih =>
    rw [List.foldl_cons, ih, List.cons_append, split]
    rfl

theorem toList_split (fs : List Formula) (found : Array Formula) (h : ∀ f ∈ fs, f.kind ≠ .and) :
    (split fs found).toList = found.toList ++ fs := by
  induction fs generalizing found with
  | nil => simp [split]
  | cons f fs ih =>
    obtain ⟨hf, hfs⟩ := List.forall_mem_cons.mp h
    rw [split_of_kind_ne hf, ih _ hfs, Array.toList_push, List.append_assoc, List.singleton_append]

theorem outcome_conjuncts (f : Formula) :
    firstOtherThan true (f.conjuncts.map (outcome scope)) = f.outcome scope := by
  rw [conjuncts, firstOtherThan_split]
  exact firstOtherThan_singleton true _

/-- Splitting a formula into conjuncts and putting them together again changes nothing
about its outcome, failures and what is skipped included. The conjuncts are no
conjunctions themselves, and a conjunction of such formulas is split into just these.

All of some formulas hold as the first of them decides that does not simply hold, and
any of them as the first that is not simply `false`. -/
theorem conjuncts_rejoined :
    (∀ (f : Formula) (scope : Scope), (allOf f.conjuncts).evaluate scope = f.evaluate scope) ∧
    (∀ f : Formula, ∀ g ∈ f.conjuncts, g.kind ≠ .and) ∧
    (∀ fs : List Formula, fs ≠ [] → (∀ f ∈ fs, f.kind ≠ .and) → (allOf fs).conjuncts = fs) ∧
    (∀ (fs : List Formula) (scope : Scope),
      (allOf fs).evaluate scope = firstOtherThan true (fs.map (evaluate scope))) ∧
    (∀ (fs : List Formula) (scope : Scope),
      (anyOf fs).evaluate scope = firstOtherThan false (fs.map (evaluate scope))) := by
  simp only [evaluate_eq]
  refine ⟨fun f scope => ?_, fun f g hg => ?_, fun fs hne hkind => ?_,
    fun fs scope => outcome_allOf fs, fun fs scope => outcome_anyOf fs⟩
  · rw [outcome_allOf, outcome_conjuncts]
  · exact kind_ne_of_mem_split [f] #[] (by simp) g (Array.mem_toList_iff.mp hg)
  · cases fs with
    | nil => exact absurd rfl hne
    | cons f fs =>
      rw [conjuncts, allOf, split_foldl, List.append_nil, toList_split _ _ hkind]
      rfl

def failsFirst : List Formula :=
  [unbound, .not (.and (.const true) (.const true)), .const false]

theorem conjuncts_rejoined_of_failsFirst :
    failsFirst ≠ [] ∧ (∀ f ∈ failsFirst, f.kind ≠ .and) ∧
    (allOf failsFirst).conjuncts = failsFirst ∧
    (allOf (and unbound (and (.const false) unbound)).conjuncts).evaluate .empty =
      .error (.notFound "variable t.a") := by
  have hne : failsFirst ≠ [] := by simp [failsFirst]
  have hkind : ∀ f ∈ failsFirst, f.kind ≠ .and := by decide
  refine ⟨hne, hkind, conjuncts_rejoined.2.2.1 failsFirst hne hkind, ?_⟩
  rw [conjuncts_rejoined.1, evaluate_eq]
  rfl

end Formula

end StreamQuery
