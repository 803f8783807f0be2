import StreamQuery.Proofs.Condition.Compile
import StreamQuery.Proofs.Condition.Outcome
import StreamQuery.Proofs.Condition.Scalar

/-!
# What evaluation reads

A walk over a tree finds its variables from left to right: what has been found
already, followed by the variables of all that waits on the stack, is the same at
every step (`toList_collect`).

Which list that is can be said without a walk. A variable stands at a place, the
way down from the root to it, and one place is to the left of another when it comes
first in the lexicographic order of ways (`LeftToRight`).

The outcome of an evaluation depends on nothing but the values of these variables
(`evaluation_reads_variables`).
-/

namespace StreamQuery

-- ---------------------------------------------------------------------------
-- Walks
-- ---------------------------------------------------------------------------

namespace Expression

theorem varsOfItems_eq_flatMap (items : List Expression) :
    varsOfItems items = items.flatMap vars := by
  induction items with
  | nil => rfl
  | cons e rest ih => simp [varsOfItems, ih]

theorem toList_collect (work : List Expression) (found : Array Name) :
    (collect work found).toList = found.toList ++ work.flatMap vars := by
  fun_induction collect work found with
  | case1 found => simp
  | case2 found name work ih => simp [ih, vars]
  | case3 found v work ih => simp [ih, vars]
  | case4 found items work ih => simp [ih, vars, varsOfItems_eq_flatMap]

theorem reads_eq_vars (e : Expression) : e.reads = e.vars := by
  simp [reads, toList_collect]

end Expression

namespace Formula

theorem toList_collect (work : List Formula) (found : Array Name) :
    (collect work found).toList = found.toList ++ work.flatMap vars := by
  fun_induction collect work found with
  | case1 found => simp
  | case2 found left right work ih | case3 found left right work ih => simp [ih, vars]
  | case4 found inner work ih => simp [ih, vars]
  | case5 found b work ih => simp [ih, vars]
  | case6 found left relation right work ih => simp [ih, vars, Expression.toList_collect]

theorem reads_eq_vars (f : Formula) : f.reads = f.vars := by
  simp [reads, toList_collect]

end Formula

-- ---------------------------------------------------------------------------
-- Places
-- ---------------------------------------------------------------------------

/-- At this place of the expression stands a variable of this name. A place is the
way to it from the root: the number of the child at every node. -/
inductive Expression.Stands : Expression → List Nat → Name → Prop where
  | here (name : Name) : Stands (.var name) [] name
  | child {items : List Expression} (hi : items[i]? = some e) (h : Stands e place name) :
      Stands (.tuple items) (i :: place) name

inductive Formula.Stands : Formula → List Nat → Name → Prop where
  | child {f g : Formula} (hi : f.children.val[i]? = some g) (h : Stands g place name) :
      Stands f (i :: place) name
  | left (h : Expression.Stands left place name) :
      Stands (.predicate left relation right) (0 :: place) name
  | right (h : Expression.Stands right place name) :
      Stands (.predicate left relation right) (1 :: place) name

/-- These are the names that stand somewhere, from left to right, each as often as it
stands there: the list goes through all places in their order. -/
def LeftToRight (stands : List Nat → Name → Prop) (names : List Name) : Prop :=
  ∃ leaves : List (List Nat × Name), names = leaves.map Prod.snd ∧
    (leaves.map Prod.fst).Pairwise (· < ·) ∧
    ∀ place name, (place, name) ∈ leaves ↔ stands place name

/-- What stands below a row of children, of which the first has this number. -/
def Below (first : Nat) (children : List (List Nat → Name → Prop)) (place : List Nat)
    (name : Name) : Prop :=
  ∃ i rest stands, place = (first + i) :: rest ∧ children[i]? = some stands ∧ stands rest name

theorem below_cons {first : Nat} {stands : List Nat → Name → Prop}
    {children : List (List Nat → Name → Prop)} {place : List Nat} {name : Name} :
    Below first (stands :: children) place name ↔
      (∃ rest, place = first :: rest ∧ stands rest name) ∨
        Below (first + 1) children place name := by
  constructor
  · rintro ⟨i, rest, stands', rfl, hi, h⟩
    cases i with
    | zero =>
      obtain rfl : stands = stands' := by simpa using hi
      exact .inl ⟨rest, rfl, h⟩
    | succ i =>
      refine .inr ⟨i, rest, stands', ?_, by simpa using hi, h⟩
      rw [Nat.add_right_comm, Nat.add_assoc]
  · rintro (⟨rest, rfl, h⟩ | ⟨i, rest, stands', rfl, hi, h⟩)
    · exact ⟨0, rest, stands, rfl, rfl, h⟩
    · refine ⟨i + 1, rest, stands', ?_, by simpa using hi, h⟩
      rw [Nat.add_right_comm, Nat.add_assoc]

namespace LeftToRight

variable {stands : List Nat → Name → Prop} {children : List (List Nat → Name → Prop)}
  {names others : List Name} {first : Nat}

theorem congr {stands' : List Nat → Name → Prop} (h : LeftToRight stands names)
    (heq : ∀ place name, stands' place name ↔ stands place name) : LeftToRight stands' names := by
  obtain ⟨leaves, hnames, hsorted, hmem⟩ := h
  exact ⟨leaves, hnames, hsorted, fun place name => (hmem place name).trans (heq place name).symm⟩

theorem none (h : ∀ place name, ¬ stands place name) : LeftToRight stands [] :=
  ⟨[], rfl, .nil, by simpa using h⟩

theorem below_nil : LeftToRight (Below first []) [] :=
  none fun place name ⟨i, _, _, _, hi, _⟩ => by simp at hi

theorem below_cons (h : LeftToRight stands names)
    (hrest : LeftToRight (Below (first + 1) children) others) :
    LeftToRight (Below first (stands :: children)) (names ++ others) := by
  obtain ⟨leaves, rfl, hsorted, hmem⟩ := h
  obtain ⟨others, rfl, hsorted', hmem'⟩ := hrest
  -- Seen from the parent, the number of the child stands in front of every place.
  refine ⟨leaves.map (Prod.map (first :: ·) id) ++ others, by simp, ?_, ?_⟩
  · rw [List.map_append, List.map_map, List.pairwise_append]
    refine ⟨?_, hsorted', ?_⟩
    · rw [List.pairwise_map] at hsorted ⊢
      exact hsorted.imp fun h => List.cons_lt_cons_iff.mpr (.inr ⟨rfl, h⟩)
    · intro place hplace place' hplace'
      obtain ⟨leaf, -, rfl⟩ := List.mem_map.mp hplace
      obtain ⟨⟨place', name'⟩, hleaf', rfl⟩ := List.mem_map.mp hplace'
      obtain ⟨i, rest, -, rfl, -⟩ := (hmem' place' name').mp hleaf'
      exact List.cons_lt_cons_iff.mpr (.inl (by omega))
  · intro place name
    rw [List.mem_append, hmem', StreamQuery.below_cons]
    refine or_congr_left ?_
    constructor
    · intro h
      obtain ⟨⟨rest, name⟩, hleaf, heq⟩ := List.mem_map.mp h
      cases heq
      exact ⟨rest, rfl, (hmem rest name).mp hleaf⟩
    · rintro ⟨rest, rfl, h⟩
      exact List.mem_map.mpr ⟨(rest, name), (hmem rest name).mpr h, rfl⟩

theorem below_one (h : LeftToRight stands names) : LeftToRight (Below first [stands]) names := by
  simpa using h.below_cons below_nil

theorem below_two {stands' : List Nat → Name → Prop} (h : LeftToRight stands names)
    (h' : LeftToRight stands' others) :
    LeftToRight (Below first [stands, stands']) (names ++ others) :=
  h.below_cons h'.below_one

end LeftToRight

namespace Expression

theorem stands_tuple {items : List Expression} {place : List Nat} {name : Name} :
    Stands (.tuple items) place name ↔ Below 0 (items.map Stands) place name := by
  constructor
  · intro h
    cases h with
    | child hi h => exact ⟨_, _, _, by rw [Nat.zero_add], by simp [hi], h⟩
  · rintro ⟨i, rest, stands, rfl, hi, h⟩
    rw [List.getElem?_map, Option.map_eq_some_iff] at hi
    obtain ⟨e, hi, rfl⟩ := hi
    rw [Nat.zero_add]
    exact .child hi h

mutual

theorem vars_leftToRight : (e : Expression) → LeftToRight e.Stands e.vars
  | .var name => by
    refine ⟨[([], name)], rfl, by simp, ?_⟩
    intro place name'
    constructor
    · rintro (_ | ⟨_, ⟨⟩⟩)
      exact .here name
    · rintro ⟨⟩
      exact List.mem_cons_self
  | .const _ => .none (by rintro place name ⟨⟩)
  | .tuple items => (varsOfItems_leftToRight 0 items).congr fun _ _ => stands_tuple
termination_by structural e => e

theorem varsOfItems_leftToRight (first : Nat) : (items : List Expression) →
    LeftToRight (Below first (items.map Stands)) (varsOfItems items)
  | [] => .below_nil
  | e :: rest => (vars_leftToRight e).below_cons (varsOfItems_leftToRight (first + 1) rest)
termination_by structural items => items

end

end Expression

namespace Formula

theorem stands_of_children {f : Formula} (hf : f.kind ≠ .predicate) {place : List Nat}
    {name : Name} : f.Stands place name ↔ Below 0 (f.children.val.map Stands) place name := by
  constructor
  · intro h
    cases h with
    | child hi h => exact ⟨_, _, _, by rw [Nat.zero_add], by simp [hi], h⟩
    | left | right => exact absurd rfl hf
  · rintro ⟨i, rest, stands, rfl, hi, h⟩
    rw [List.getElem?_map, Option.map_eq_some_iff] at hi
    obtain ⟨g, hi, rfl⟩ := hi
    rw [Nat.zero_add]
    exact .child hi h

theorem stands_predicate {left right : Expression} {relation : Relation} {place : List Nat}
    {name : Name} : Stands (.predicate left relation right) place name ↔
      Below 0 [left.Stands, right.Stands] place name := by
  simp only [below_cons]
  constructor
  · intro h
    cases h with
    | child hi h => cases hi
    | left h => exact .inl ⟨_, rfl, h⟩
    | right h => exact .inr (.inl ⟨_, rfl, h⟩)
  · rintro (⟨rest, rfl, h⟩ | ⟨rest, rfl, h⟩ | ⟨i, _, _, _, hi, _⟩)
    · exact .left h
    · exact .right h
    · simp at hi

theorem vars_leftToRight (f : Formula) : LeftToRight f.Stands f.vars := by
  induction f with
  | and left right ihl ihr | or left right ihl ihr =>
    exact (ihl.below_two ihr).congr fun _ _ => stands_of_children (by simp [kind])
  | not inner ih => exact ih.below_one.congr fun _ _ => stands_of_children (by simp [kind])
  | const b => exact LeftToRight.below_nil.congr fun _ _ => stands_of_children (by simp [kind])
  | predicate left relation right =>
    exact (left.vars_leftToRight.below_two right.vars_leftToRight).congr fun _ _ =>
      stands_predicate

-- ---------------------------------------------------------------------------
-- Evaluation
-- ---------------------------------------------------------------------------

variable {scope other : Scope}

theorem outcome_eq_of_vars (f : Formula) (h : ∀ name ∈ f.vars, scope.get name = other.get name) :
    f.compiled.outcome scope = f.compiled.outcome other := by
  induction f with
  | and left right ihl ihr | or left right ihl ihr =>
    simp only [vars, List.mem_append] at h
    simp only [compiled, Condition.outcome]
    rw [ihl fun name hn => h name (.inl hn), ihr fun name hn => h name (.inr hn)]
  | not inner ih =>
    simp only [compiled, Condition.outcome]
    rw [ih h]
  | const b => rfl
  | predicate left relation right =>
    simp only [vars, List.mem_append] at h
    simp only [compiled, Condition.outcome, Condition.evalPredicate]
    rw [left.eval_congr fun name hn => h name (.inl hn),
      right.eval_congr fun name hn => h name (.inr hn)]

end Formula

/-- What a walk over an expression or a formula finds are its variables from left to
right, each as often as it stands there. Evaluation reads nothing else: in two scopes
in which each of these names has the same value, or fails alike, the compiled form has
the same outcome, whatever else is bound. -/
theorem evaluation_reads_variables :
    (∀ e : Expression, LeftToRight e.Stands e.reads) ∧
    (∀ f : Formula, LeftToRight f.Stands f.reads) ∧
    (∀ (e : Expression) (scope other : Scope),
      (∀ name ∈ e.reads, scope.get name = other.get name) →
        ∃ scalar, e.compile = .ok scalar ∧ scalar.eval scope = scalar.eval other) ∧
    (∀ (f : Formula) (scope other : Scope),
      (∀ name ∈ f.reads, scope.get name = other.get name) →
        ∃ condition, f.compile = .ok condition ∧ condition.eval scope = condition.eval other) := by
  refine ⟨fun e => ?_, fun f => ?_, fun e scope other h => ?_, fun f scope other h => ?_⟩
  · rw [e.reads_eq_vars]
    exact e.vars_leftToRight
  · rw [f.reads_eq_vars]
    exact f.vars_leftToRight
  · rw [e.reads_eq_vars] at h
    exact ⟨e.compiled, e.compile_eq, e.eval_congr h⟩
  · rw [f.reads_eq_vars] at h
    refine ⟨f.compiled, f.compile_eq, ?_⟩
    rw [Condition.eval_eq_outcome, Condition.eval_eq_outcome, f.outcome_eq_of_vars h]

def membership : Formula :=
  .or (.not (.predicate (.var ⟨"t", "a"⟩) .equal (.const (.int 1))))
    (.predicate (.var ⟨none, "b"⟩) .isIn
      (.tuple [.var ⟨"u", "c"⟩, .const (.int 4), .var ⟨none, "b"⟩]))

def threeColumns : Scope :=
  .ofBindings [(⟨"t", "a"⟩, .int 1), (⟨none, "b"⟩, .int 4), (⟨"u", "c"⟩, .null)]

def nestedColumns : Scope :=
  let outer : Frame :=
    [(⟨"t", "a"⟩, .int 1), (⟨none, "b"⟩, .string "hidden"), (⟨none, "c"⟩, .null)]
  (Scope.ofBindings outer).withRecord ⟨[(⟨"v", "b"⟩, .int 4), (⟨"v", "z"⟩, .bool true)], false⟩

theorem evaluation_reads_variables_of_membership :
    membership.reads = [⟨"t", "a"⟩, ⟨none, "b"⟩, ⟨"u", "c"⟩, ⟨none, "b"⟩] ∧
    (∀ name ∈ membership.reads, threeColumns.get name = nestedColumns.get name) ∧
    ∃ condition, membership.compile = .ok condition ∧
      condition.eval threeColumns = condition.eval nestedColumns := by
  have hreads : membership.reads = [⟨"t", "a"⟩, ⟨none, "b"⟩, ⟨"u", "c"⟩, ⟨none, "b"⟩] :=
    membership.reads_eq_vars
  have hagree : ∀ name ∈ membership.reads, threeColumns.get name = nestedColumns.get name := by
    rw [hreads]
    intro name h
    simp only [List.mem_cons, List.not_mem_nil, or_false] at h
    rcases h with rfl | rfl | rfl | rfl <;> rfl
  exact ⟨hreads, hagree, evaluation_reads_variables.2.2.2 membership _ _ hagree⟩

end StreamQuery
