import StreamQuery.Error

/-!
# Folding trees from the leaves up

Plans are often long chains of connectives, so trees are folded with an
explicit stack of work instead of by recursion on the tree. A node is expanded
into its children, which may fail or have an effect; then all its children are
folded from left to right; and then its result is built from theirs. The first
failure ends the fold.
-/

namespace StreamQuery

def total {α : Type} (f : α → Nat) : List α → Nat
  | [] => 0
  | a :: rest => f a + total f rest

theorem total_append {α : Type} (f : α → Nat) (as bs : List α) :
    total f (as ++ bs) = total f as + total f bs := by
  induction as with
  | nil => simp [total]
  | cons a as ih =>
    simp only [List.cons_append, total, ih]
    omega

/-- Nodes that can stand under `t` in a finite tree: together they are smaller. -/
def Children {τ : Type} [SizeOf τ] (t : τ) : Type :=
  { nodes : List τ // total sizeOf nodes < sizeOf t }

theorem total_sizeOf_lt {τ : Type} [SizeOf τ] (nodes : List τ) :
    total sizeOf nodes < sizeOf nodes := by
  induction nodes with
  | nil => simp [total]
  | cons t nodes ih =>
    simp only [total, List.cons.sizeOf_spec]
    omega

namespace BottomUp

/-- One piece of work: a node to expand, or a node whose children, so many of
them, are done. -/
inductive Task (τ : Type) where
  | enter (node : τ)
  | build (node : τ) (arity : Nat)

variable {τ ο : Type}

noncomputable def Task.weight [SizeOf τ] : Task τ → Nat
  | .enter node => 2 * sizeOf node
  | .build _ _ => 1

/-- A bound on the tasks that a stack of work leads to. -/
noncomputable def remaining [SizeOf τ] (work : List (Task τ)) : Nat := total Task.weight work

def unfolded (node : τ) (nodes : List τ) (work : List (Task τ)) : List (Task τ) :=
  nodes.map .enter ++ .build node nodes.length :: work

theorem remaining_enter [SizeOf τ] (nodes : List τ) (work : List (Task τ)) :
    remaining (nodes.map .enter ++ work) = 2 * total sizeOf nodes + remaining work := by
  induction nodes with
  | nil => simp [total]
  | cons node nodes ih =>
    simp only [remaining, List.map_cons, List.cons_append, total, Task.weight] at ih ⊢
    omega

theorem remaining_unfolded [SizeOf τ] (node : τ) (children : Children node)
    (work : List (Task τ)) :
    remaining (unfolded node children.val work) < remaining (.enter node :: work) := by
  have h := children.property
  rw [unfolded, remaining_enter]
  simp only [remaining, total, Task.weight]
  omega

theorem remaining_build [SizeOf τ] (node : τ) (arity : Nat) (work : List (Task τ)) :
    remaining work < remaining (.build node arity :: work) := by
  simp only [remaining, total, Task.weight]
  omega

/-- The last `arity` results, in order, and the ones before them. -/
def takeResults (arity : Nat) (results : List ο) : Except Error (List ο × List ο) :=
  if results.length < arity then .error (.internal "fold_postorder: result stack underflow")
  else .ok ((results.take arity).reverse, results.drop arity)

def onlyResult (results : List ο) : Except Error ο :=
  match results with
  | [result] => .ok result
  | _ => .error (.internal s!"fold_postorder: expected 1 result, got {results.length}")

variable {m : Type → Type} [Monad m] [SizeOf τ]

/-- Works off a stack. The results are those of the finished nodes that no
parent has taken yet, the last one first. -/
def run (expand : (t : τ) → ExceptT Error m (Children t))
    (build : τ → List ο → ExceptT Error m ο) :
    List (Task τ) → List ο → ExceptT Error m (List ο)
  | [], results => pure results
  | .enter node :: work, results => do
    let children ← expand node
    run expand build (unfolded node children.val work) results
  | .build node arity :: work, results => do
    let (taken, others) ← liftOutcome (takeResults arity results)
    let result ← build node taken
    run expand build work (result :: others)
termination_by work => remaining work
decreasing_by
  · exact remaining_unfolded node children work
  · exact remaining_build node arity work

def fold (expand : (t : τ) → ExceptT Error m (Children t))
    (build : τ → List ο → ExceptT Error m ο) (root : τ) : ExceptT Error m ο := do
  let results ← run expand build [.enter root] []
  liftOutcome (onlyResult results)

def foldPure (children : (t : τ) → Children t) (build : τ → List ο → ExceptT Error m ο)
    (root : τ) : ExceptT Error m ο :=
  fold (fun node => pure (children node)) build root

end BottomUp

inductive Tree (α : Type) where
  | node (label : α) (children : List (Tree α))

namespace Tree

variable {α : Type}

def label : Tree α → α
  | .node label _ => label

theorem total_sizeOf_children [SizeOf α] (label : α) (children : List (Tree α)) :
    total sizeOf children < sizeOf (node label children) := by
  have h := total_sizeOf_lt children
  simp only [node.sizeOf_spec]
  omega

def children [SizeOf α] : (t : Tree α) → Children t
  | .node label children => ⟨children, total_sizeOf_children label children⟩

end Tree

end StreamQuery
