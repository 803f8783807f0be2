import StreamQuery.BottomUp

/-!
# Folding by recursion

Folding a tree with a stack of work is the recursion on the tree: expand a
node, fold its children from left to right, and build the result from theirs
(`fold_eq_recurse`). The lemma that carries the induction speaks of any work
and any results that wait behind the node (`run_enter`). So no fold can run out
of results or leave one over.
-/

namespace StreamQuery

theorem sizeOf_le_total [SizeOf τ] {nodes : List τ} {node : τ} (h : node ∈ nodes) :
    sizeOf node ≤ total sizeOf nodes := by
  induction nodes with
  | nil => cases h
  | cons first nodes ih =>
    rcases List.mem_cons.mp h with rfl | h
    · exact Nat.le_add_right _ _
    · exact Nat.le_trans (ih h) (Nat.le_add_left _ _)

theorem Children.sizeOf_lt [SizeOf τ] {t node : τ} (children : Children t)
    (h : node ∈ children.val) : sizeOf node < sizeOf t :=
  Nat.lt_of_le_of_lt (sizeOf_le_total h) children.property

@[simp] theorem liftOutcome_ok [Monad m] (a : α) :
    (liftOutcome (.ok a) : ExceptT Error m α) = pure a := rfl

namespace BottomUp

variable {τ ο : Type} {m : Type → Type} [Monad m] [SizeOf τ]

def recurse (expand : (t : τ) → ExceptT Error m (Children t))
    (build : τ → List ο → ExceptT Error m ο) (t : τ) : ExceptT Error m ο := do
  let children ← expand t
  let results ← children.val.attach.mapM fun node => recurse expand build node.val
  build t results
termination_by sizeOf t
decreasing_by exact children.sizeOf_lt node.property

variable [LawfulMonad m] {expand : (t : τ) → ExceptT Error m (Children t)}
  {build : τ → List ο → ExceptT Error m ο}

theorem recurse_eq (t : τ) : recurse expand build t = (do
    let children ← expand t
    let results ← children.val.mapM (recurse expand build)
    build t results) := by
  rw [recurse]
  congr 1
  funext children
  congr 1
  rw [List.mapM_subtype fun _ _ => rfl, List.unattach_attach]

/-- Expanding the children of a node leaves their results, in order, to build
the node from. Some of the results may be there already. -/
theorem run_children (t : τ) (work : List (Task τ)) (results : List ο) {nodes : List τ}
    (h : ∀ node ∈ nodes, ∀ work results, run expand build (.enter node :: work) results =
      recurse expand build node >>= fun result => run expand build work (result :: results))
    (done : List ο) :
    run expand build (nodes.map .enter ++ .build t (done.length + nodes.length) :: work)
        (done.reverse ++ results) = (do
      let rest ← nodes.mapM (recurse expand build)
      let result ← build t (done ++ rest)
      run expand build work (result :: results)) := by
  induction nodes generalizing done with
  | nil =>
    have htake : takeResults done.length (done.reverse ++ results) = .ok (done, results) := by
      simp [takeResults]
    simp only [List.map_nil, List.nil_append, List.length_nil, Nat.add_zero, List.mapM_nil,
      pure_bind, List.append_nil]
    rw [run, htake, liftOutcome_ok, pure_bind]
  | cons node nodes ih =>
    rw [List.map_cons, List.cons_append, h node List.mem_cons_self, List.mapM_cons]
    simp only [bind_assoc, pure_bind]
    congr 1
    funext result
    have hcount : (done ++ [result]).length + nodes.length = done.length + (node :: nodes).length := by
      simp [Nat.add_assoc, Nat.add_comm 1]
    have hstack : (done ++ [result]).reverse ++ results = result :: (done.reverse ++ results) := by
      simp
    have hrest := ih (fun node hmem => h node (List.mem_cons_of_mem _ hmem)) (done ++ [result])
    rw [hcount, hstack] at hrest
    rw [hrest]
    simp only [List.append_assoc, List.singleton_append]

theorem run_enter (t : τ) : ∀ work results, run expand build (.enter t :: work) results =
    recurse expand build t >>= fun result => run expand build work (result :: results) := by
  intro work results
  rw [run, recurse_eq, bind_assoc]
  congr 1
  funext children
  have hchildren : ∀ node ∈ children.val, ∀ work results,
      run expand build (.enter node :: work) results =
        recurse expand build node >>= fun result => run expand build work (result :: results) :=
    fun node hmem => run_enter node
  have h := run_children t work results hchildren []
  rw [List.length_nil, Nat.zero_add, List.reverse_nil, List.nil_append] at h
  rw [unfolded, h, bind_assoc]
  simp only [List.nil_append]
termination_by sizeOf t
decreasing_by exact children.sizeOf_lt hmem

theorem fold_eq_recurse (root : τ) : fold expand build root = recurse expand build root := by
  rw [fold, run_enter, bind_assoc]
  simp only [run, pure_bind, onlyResult, liftOutcome_ok, bind_pure]

theorem foldPure_eq (children : (t : τ) → Children t) (t : τ) :
    foldPure children build t = (do
      let results ← (children t).val.mapM (foldPure children build)
      build t results) := by
  have h : foldPure children build = recurse (fun node => pure (children node)) build :=
    funext fold_eq_recurse
  rw [h, recurse_eq, pure_bind]

end BottomUp

-- ---------------------------------------------------------------------------
-- Without effects
-- ---------------------------------------------------------------------------

theorem run_bind (x : ExceptT Error Id α) (f : α → ExceptT Error Id β) :
    (x >>= f).run.run = x.run.run >>= fun a => (f a).run.run := by
  cases x <;> rfl

theorem run_mapM (f : α → ExceptT Error Id β) (xs : List α) :
    (xs.mapM f).run.run = xs.mapM fun a => (f a).run.run := by
  induction xs with
  | nil => rfl
  | cons a xs ih =>
    rw [List.mapM_cons, List.mapM_cons, run_bind, ← ih]
    refine congrArg (_ >>= ·) (funext fun b => ?_)
    rw [run_bind]
    rfl

namespace BottomUp

theorem run_foldPure [SizeOf τ] (children : (t : τ) → Children t)
    (build : τ → List ο → Except Error ο) (fold : τ → Except Error ο)
    (h : ∀ t, fold t = ExceptT.run (m := Id)
      (foldPure children (fun t parts => liftOutcome (build t parts)) t))
    (t : τ) : fold t = (do
      let parts ← (children t).val.mapM fold
      build t parts) := by
  rw [h, foldPure_eq, funext h]
  exact (run_bind _ _).trans (by rw [run_mapM]; rfl)

end BottomUp

end StreamQuery
