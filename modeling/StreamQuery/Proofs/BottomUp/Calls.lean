import StreamQuery.Proofs.BottomUp
import StreamQuery.Proofs.Outcome
import StreamQuery.Proofs.Recording

/-!
# The calls of a fold

A fold with a stack of work makes the calls that the recursion on the tree makes,
in the same order and through the same states (`fold_makes_recursive_calls`).
`Folds` says which calls these are: a node is expanded, its children are folded
one after the other, each with all that lies under it, and then it is built from
their results. So there are as many results as children, and the first call that
fails is the last one and gives the outcome of the whole.
-/

namespace StreamQuery.BottomUp

variable {τ ο σ : Type}

inductive Call (τ ο : Type) where
  | expand (node : τ) (outcome : Except Error (List τ))
  | build (node : τ) (results : List ο) (outcome : Except Error ο)

def Call.failure : Call τ ο → Option Error
  | .expand _ (.error e) | .build _ _ (.error e) => some e
  | .expand _ (.ok _) | .build _ _ (.ok _) => none

/-- The calls that fold these nodes one after the other, and what they give. -/
inductive Folds : List τ → List (Call τ ο) → Except Error (List ο) → Prop where
  | done : Folds [] [] (.ok [])
  | unexpanded (node : τ) (others : List τ) (e : Error) :
      Folds (node :: others) [.expand node (.error e)] (.error e)
  | stopped (node : τ) (others : List τ) {children : List τ} {calls : List (Call τ ο)} {e : Error}
      (h : Folds children calls (.error e)) :
      Folds (node :: others) (.expand node (.ok children) :: calls) (.error e)
  | unbuilt (node : τ) (others : List τ) {children : List τ} {calls : List (Call τ ο)}
      {results : List ο} (e : Error) (h : Folds children calls (.ok results)) :
      Folds (node :: others)
        (.expand node (.ok children) :: calls ++ [.build node results (.error e)]) (.error e)
  | built (node : τ) {others children : List τ} {calls more : List (Call τ ο)}
      {results : List ο} (result : ο) {outcome : Except Error (List ο)}
      (h : Folds children calls (.ok results)) (hothers : Folds others more outcome) :
      Folds (node :: others)
        (.expand node (.ok children) :: calls ++ .build node results (.ok result) :: more)
        (outcome.map (result :: ·))

namespace Folds

variable {nodes others : List τ} {calls more : List (Call τ ο)} {results : List ο} {result : ο}
  {outcome : Except Error (List ο)} {e : Error}

theorem length_results (h : Folds nodes calls outcome) (hok : outcome = .ok results) :
    results.length = nodes.length := by
  induction h generalizing results with
  | done =>
    cases hok
    rfl
  | built node result _ _ _ ih =>
    obtain ⟨rest, hrest, rfl⟩ := map_ok.mp hok
    rw [List.length_cons, List.length_cons, ih hrest]
  | _ => cases hok

theorem failure_eq_none (h : Folds nodes calls outcome) (hok : outcome = .ok results) :
    ∀ call ∈ calls, call.failure = none := by
  induction h generalizing results with
  | done => simp
  | built node result _ _ ih ihothers =>
    obtain ⟨rest, hrest, rfl⟩ := map_ok.mp hok
    intro call hcall
    rcases List.mem_append.mp hcall with hcall | hcall
    · rcases List.mem_cons.mp hcall with rfl | hcall
      · rfl
      · exact ih rfl call hcall
    · rcases List.mem_cons.mp hcall with rfl | hcall
      · rfl
      · exact ihothers hrest call hcall
  | _ => cases hok

theorem exists_last (h : Folds nodes calls outcome) (hfails : outcome = .error e) :
    ∃ before last, calls = before ++ [last] ∧ last.failure = some e ∧
      ∀ call ∈ before, call.failure = none := by
  induction h with
  | done => cases hfails
  | unexpanded node others e' =>
    cases hfails
    exact ⟨[], _, rfl, rfl, by simp⟩
  | @stopped node others children calls _ h ih =>
    cases hfails
    obtain ⟨before, last, rfl, hlast, hbefore⟩ := ih rfl
    exact ⟨_ :: before, last, rfl, hlast, List.forall_mem_cons.mpr ⟨rfl, hbefore⟩⟩
  | unbuilt node others e' h =>
    cases hfails
    exact ⟨_, _, rfl, rfl, List.forall_mem_cons.mpr ⟨rfl, h.failure_eq_none rfl⟩⟩
  | @built node _ children calls _ results result rest h _ _ ihothers =>
    cases rest with
    | ok rest => cases hfails
    | error e' =>
      cases hfails
      obtain ⟨before, last, rfl, hlast, hbefore⟩ := ihothers rfl
      refine ⟨.expand node (.ok children) :: calls ++ .build node results (.ok result) :: before,
        last, by simp, hlast, fun call hcall => ?_⟩
      rcases List.mem_append.mp hcall with hcall | hcall
      · rcases List.mem_cons.mp hcall with rfl | hcall
        · rfl
        · exact h.failure_eq_none rfl call hcall
      · rcases List.mem_cons.mp hcall with rfl | hcall
        · rfl
        · exact hbefore call hcall

theorem build_mem (h : Folds nodes calls outcome) {node : τ} {built : Except Error ο}
    (hmem : .build node results built ∈ calls) :
    ∃ children, .expand node (.ok children) ∈ calls ∧ children.length = results.length := by
  induction h with
  | done => simp at hmem
  | unexpanded => simp at hmem
  | stopped _ _ _ ih =>
    obtain ⟨children, hchildren, hlength⟩ := ih (by simpa using hmem)
    exact ⟨children, List.mem_cons_of_mem _ hchildren, hlength⟩
  | unbuilt own others e h ih =>
    simp only [List.cons_append, List.mem_cons, reduceCtorEq, List.mem_append,
      List.not_mem_nil, or_false, false_or] at hmem
    rcases hmem with hmem | hmem
    · obtain ⟨children, hchildren, hlength⟩ := ih hmem
      exact ⟨children, by simp [hchildren], hlength⟩
    · cases hmem
      exact ⟨_, by simp, (h.length_results rfl).symm⟩
  | built own result h _ ih ihothers =>
    simp only [List.cons_append, List.mem_cons, reduceCtorEq, List.mem_append, false_or] at hmem
    rcases hmem with hmem | hmem | hmem
    · obtain ⟨children, hchildren, hlength⟩ := ih hmem
      exact ⟨children, by simp [hchildren], hlength⟩
    · cases hmem
      exact ⟨_, by simp, (h.length_results rfl).symm⟩
    · obtain ⟨children, hchildren, hlength⟩ := ihothers hmem
      exact ⟨children, by simp [hchildren], hlength⟩

theorem of_failed {node : τ} (h : Folds [node] calls (.error e)) (others : List τ) :
    Folds (node :: others) calls (.error e) := by
  generalize hnodes : [node] = nodes, houtcome : Except.error e = outcome at h
  cases h with
  | done => cases hnodes
  | unexpanded => cases hnodes; cases houtcome; exact .unexpanded _ _ _
  | stopped _ _ h => cases hnodes; cases houtcome; exact .stopped _ _ h
  | unbuilt _ _ _ h => cases hnodes; cases houtcome; exact .unbuilt _ _ _ h
  | built _ _ _ h =>
    cases hnodes
    cases h
    cases houtcome

theorem cons {node : τ} (h : Folds [node] calls (.ok [result]))
    (hothers : Folds others more outcome) :
    Folds (node :: others) (calls ++ more) (outcome.map (result :: ·)) := by
  generalize hnodes : [node] = nodes, hresults : Except.ok [result] = first at h
  cases h with
  | @built _ _ _ _ _ _ own _ h hnone =>
    cases hnodes
    cases hnone
    cases hresults
    rw [List.append_assoc]
    exact .built _ _ h hothers
  | done => cases hnodes
  | _ => cases hresults

end Folds

-- ---------------------------------------------------------------------------
-- Recorded folds
-- ---------------------------------------------------------------------------

theorem notes_mapM {f : τ → ExceptT Error (Recorder σ (Call τ ο)) ο}
    {g : τ → ExceptT Error (StateM σ) ο} {nodes : List τ}
    (h : ∀ node ∈ nodes, Notes (f node).run (g node).run fun calls outcome =>
      Folds [node] calls (outcome.map fun result => [result])) :
    Notes (nodes.mapM f).run (nodes.mapM g).run (Folds nodes) := by
  induction nodes with
  | nil => exact .pure .done
  | cons node others ih =>
    have hothers := ih fun node hmem => h node (List.mem_cons_of_mem _ hmem)
    rw [List.mapM_cons, List.mapM_cons]
    refine ((h node List.mem_cons_self).bindExcept fun result =>
      hothers.bindExcept fun rest => .pure (p := fun calls outcome =>
        calls = [] ∧ outcome = .ok (result :: rest)) ⟨rfl, rfl⟩).mono ?_
    rintro _ _ (hfailed | ⟨hfirst, hfailed | ⟨hrest, rfl, rfl⟩⟩)
    · exact hfailed.of_failed others
    · exact hfirst.cons hfailed
    · rw [List.append_nil]
      exact hfirst.cons hrest

variable [SizeOf τ] {expand : (t : τ) → ExceptT Error (StateM σ) (Children t)}
  {build : τ → List ο → ExceptT Error (StateM σ) ο}

def recordExpand (expand : (t : τ) → ExceptT Error (StateM σ) (Children t)) (t : τ) :
    ExceptT Error (Recorder σ (Call τ ο)) (Children t) :=
  ExceptT.mk (recorded (fun outcome => .expand t (outcome.map fun children => children.val))
    (expand t).run)

def recordBuild (build : τ → List ο → ExceptT Error (StateM σ) ο) (t : τ) (results : List ο) :
    ExceptT Error (Recorder σ (Call τ ο)) ο :=
  ExceptT.mk (recorded (fun outcome => .build t results outcome) (build t results).run)

theorem notes_recordExpand (t : τ) :
    Notes (recordExpand (ο := ο) expand t).run (expand t).run fun calls outcome =>
      calls = [.expand t (outcome.map fun children => children.val)] := by
  have hrun : (recordExpand (ο := ο) expand t).run =
      recorded (fun outcome => .expand t (outcome.map fun children => children.val))
        (expand t).run := rfl
  rw [hrun]
  exact .recorded _ _

theorem notes_recurse (expand : (t : τ) → ExceptT Error (StateM σ) (Children t))
    (build : τ → List ο → ExceptT Error (StateM σ) ο) (t : τ) :
    Notes (recurse (recordExpand expand) (recordBuild build) t).run (recurse expand build t).run
      fun calls outcome => Folds [t] calls (outcome.map fun result => [result]) := by
  rw [recurse_eq, recurse_eq]
  have hbuild : ∀ results, Notes (recordBuild build t results).run (build t results).run
      fun calls outcome => calls = [.build t results outcome] := fun _ => .recorded _ _
  have hchildren : ∀ children : Children t,
      Notes (children.val.mapM (recurse (recordExpand expand) (recordBuild build))).run
        (children.val.mapM (recurse expand build)).run (Folds children.val) :=
    fun children => notes_mapM fun node hmem => notes_recurse expand build node
  refine ((notes_recordExpand t).bindExcept fun children =>
    (hchildren children).bindExcept hbuild).mono ?_
  rintro _ outcome (rfl | ⟨rfl, hfailed | ⟨hresults, rfl⟩⟩)
  · exact .unexpanded t [] _
  · exact .stopped t [] hfailed
  · cases outcome with
    | error e => exact .unbuilt t [] e hresults
    | ok result => exact .built t result hresults .done
termination_by sizeOf t
decreasing_by exact children.sizeOf_lt hmem

/-- A fold with a stack of work is the recursion on the tree: it gives the same
outcome from every state and leaves the same state. It makes the same calls, with
or without a record of them. A node is built from as many results as it has
children, nothing is called after a call that fails, and a fold fails with the
failure of its last call and never by itself.

What the children of a node are may be found out with failures and effects; only
that the tree is finite has to be certain. -/
theorem fold_makes_recursive_calls (expand : (t : τ) → ExceptT Error (StateM σ) (Children t))
    (build : τ → List ο → ExceptT Error (StateM σ) ο) (root : τ) :
    fold expand build root = recurse expand build root ∧
    fold (recordExpand expand) (recordBuild build) root =
      recurse (recordExpand expand) (recordBuild build) root ∧
    ∀ s record, ∃ calls outcome after,
      (fold expand build root).run.run s = (outcome, after) ∧
      (fold (recordExpand expand) (recordBuild build) root).run.run (s, record) =
        (outcome, (after, record ++ calls)) ∧
      Folds [root] calls (outcome.map fun result => [result]) ∧
      (∀ node results built, .build node results built ∈ calls →
        ∃ children, .expand node (.ok children) ∈ calls ∧ children.length = results.length) ∧
      (∀ result, outcome = .ok result → ∀ call ∈ calls, call.failure = none) ∧
      (∀ e, outcome = .error e → ∃ before last, calls = before ++ [last] ∧
        last.failure = some e ∧ ∀ call ∈ before, call.failure = none) := by
  refine ⟨fold_eq_recurse root, fold_eq_recurse root, fun s record => ?_⟩
  rw [fold_eq_recurse, fold_eq_recurse]
  obtain ⟨calls, outcome, after, hplain, hrecorded, hfolds⟩ :=
    notes_recurse expand build root s record
  refine ⟨calls, outcome, after, hplain, hrecorded, hfolds,
    fun node results built hmem => hfolds.build_mem hmem, ?_, ?_⟩
  · rintro result rfl
    exact hfolds.failure_eq_none rfl
  · rintro e rfl
    exact hfolds.exists_last rfl

end StreamQuery.BottomUp
