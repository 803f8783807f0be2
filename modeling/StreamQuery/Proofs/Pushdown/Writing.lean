import StreamQuery.Proofs.Condition.Compile
import StreamQuery.Pushdown.Fragment

/-!
# Writing formulas in SQL

A formula is written without fail, from the left to the right (`toSql_eq`). Its
placeholders get the next numbers and nothing else about the table changes: that is
what it is to `meet` a list of demands, here those of the operands that are no columns
of the alias, in the order in which they stand in the formula (`written_meets`).
Compiling the entries cannot fail either (`Placeholders.compile_eq`).
-/

namespace StreamQuery

def Expression.isColumnOf (qualifier : String) : Expression → Bool
  | .var name => name.source == some qualifier
  | _ => false

theorem Expression.isColumnOf_iff {e : Expression} : e.isColumnOf qualifier ↔
    ∃ name : Name, e = .var name ∧ name.source = some qualifier := by
  cases e <;> simp [isColumnOf]

theorem Expression.toSql_column (h : name.source = some ps.qualifier) :
    (Expression.var name).toSql ps = (name.column, ps) :=
  if_pos h

theorem Expression.toSql_foreign {e : Expression} (h : e.isColumnOf ps.qualifier = false) :
    e.toSql ps = ps.record e := by
  cases e with
  | var name => exact if_neg (by simpa [isColumnOf] using h)
  | const v => rfl
  | tuple items => rfl

/-- The operand, if a database with this alias is sent its value. -/
def Expression.foreign (qualifier : String) (e : Expression) : List Expression :=
  if e.isColumnOf qualifier then [] else [e]

namespace Formula

def operands : Formula → List Expression
  | .and left right | .or left right => left.operands ++ right.operands
  | .not inner => inner.operands
  | .const _ => []
  | .predicate left _ right => [left, right]

def foreign (qualifier : String) (f : Formula) : List Expression :=
  f.operands.filter fun e => !e.isColumnOf qualifier

theorem foreign_and (left right : Formula) :
    (and left right).foreign qualifier = left.foreign qualifier ++ right.foreign qualifier :=
  List.filter_append ..

theorem foreign_or (left right : Formula) :
    (or left right).foreign qualifier = left.foreign qualifier ++ right.foreign qualifier :=
  List.filter_append ..

theorem foreign_predicate (left right : Expression) : (predicate left relation right).foreign
    qualifier = left.foreign qualifier ++ right.foreign qualifier := by
  unfold foreign operands Expression.foreign
  cases hl : left.isColumnOf qualifier <;> cases hr : right.isColumnOf qualifier <;> simp [hl, hr]

/-- The text of a formula, by recursion, and the placeholders afterwards. -/
def written : Formula → Placeholders → String × Placeholders
  | .and left right, ps =>
    let l := left.written ps
    let r := right.written l.2
    ("(" ++ l.1 ++ ") AND (" ++ r.1 ++ ")", r.2)
  | .or left right, ps =>
    let l := left.written ps
    let r := right.written l.2
    ("(" ++ l.1 ++ ") OR (" ++ r.1 ++ ")", r.2)
  | .not inner, ps =>
    let i := inner.written ps
    ("NOT (" ++ i.1 ++ ")", i.2)
  | .const b, ps => (ps.dialect.boolToken b, ps)
  | .predicate left relation right, ps =>
    let l := left.toSql ps
    let r := right.toSql l.2
    ("(" ++ l.1 ++ ") " ++ relation.token ++ " (" ++ r.1 ++ ")", r.2)

theorem run_bind_of_ok {x : ExceptT Error (StateM Placeholders) α}
    {k : α → ExceptT Error (StateM Placeholders) β} (h : x.run.run ps = (.ok a, after)) :
    (x >>= k).run.run ps = (k a).run.run after := by
  rw [ExceptT.run_bind, StateT.run_bind, h]
  rfl

theorem toSql_eq (f : Formula) (ps : Placeholders) :
    f.toSql ps = (.ok (f.written ps).1, (f.written ps).2) := by
  have hfold : ∀ (f : Formula) (ps : Placeholders),
      f.toSql ps = (BottomUp.foldPure children assembleSql f).run.run ps := fun _ _ => rfl
  induction f generalizing ps with
  | and left right ihl ihr | or left right ihl ihr =>
    rw [hfold, BottomUp.foldPure_eq]
    simp only [children, List.mapM_cons, List.mapM_nil, bind_assoc, pure_bind]
    rw [run_bind_of_ok (ihl ps), run_bind_of_ok (ihr _)]
    rfl
  | not inner ih =>
    rw [hfold, BottomUp.foldPure_eq]
    simp only [children, List.mapM_cons, List.mapM_nil, bind_assoc, pure_bind]
    rw [run_bind_of_ok (ih ps)]
    rfl
  | const b =>
    rw [hfold, BottomUp.foldPure_eq]
    rfl
  | predicate left relation right =>
    rw [hfold, BottomUp.foldPure_eq]
    rfl

theorem pushDown_eq (f : Formula) (qualifier : String) (dialect : Dialect) :
    f.pushDown qualifier dialect = .ok
      ⟨(f.written (.start qualifier dialect)).1, (f.written (.start qualifier dialect)).2⟩ := by
  rw [pushDown, toSql_eq]
  rfl

end Formula

-- ---------------------------------------------------------------------------
-- Demands
-- ---------------------------------------------------------------------------

/-- The placeholders that are handed out for these demands, if the first of them
gets this number. A demand is an expression to record, or nothing. -/
def Dialect.handOut (dialect : Dialect) (number : Nat) (demands : List (Option Expression)) :
    List (String × Option Expression) :=
  (demands.zipIdx number).map fun demand => (dialect.placeholder demand.2, demand.1)

namespace Dialect

variable {dialect : Dialect} {demands more : List (Option Expression)}

theorem handOut_append : dialect.handOut number (demands ++ more) =
    dialect.handOut number demands ++ dialect.handOut (number + demands.length) more := by
  rw [handOut, List.zipIdx_append, List.map_append]
  rfl

end Dialect

namespace Placeholders

variable {ps : Placeholders} {demands more : List (Option Expression)}

def recorded (handed : List (String × Option Expression)) : List (String × Expression) :=
  handed.filterMap fun placeholder => placeholder.2.map (placeholder.1, ·)

theorem mem_recorded {handed : List (String × Option Expression)} :
    (text, e) ∈ recorded handed ↔ (text, some e) ∈ handed := by
  simp [recorded]

def meet (ps : Placeholders) (demands : List (Option Expression)) : Placeholders :=
  { ps with
    entries := ps.entries ++ recorded (ps.dialect.handOut ps.counter demands)
    counter := ps.counter + demands.length }

theorem recorded_handOut (dialect : Dialect) (number : Nat) (expressions : List Expression) :
    recorded (dialect.handOut number (expressions.map some)) =
      (expressions.zipIdx number).map fun e => (dialect.placeholder e.2, e.1) := by
  rw [recorded, Dialect.handOut, List.zipIdx_map, List.map_map, List.filterMap_map]
  exact congrFun List.filterMap_eq_map _

theorem meet_nil : ps.meet [] = ps := by
  simp [meet, recorded, Dialect.handOut]

theorem meet_append : ps.meet (demands ++ more) = (ps.meet demands).meet more := by
  simp only [meet, Dialect.handOut_append, recorded, List.filterMap_append, List.append_assoc,
    List.length_append, Nat.add_assoc]

theorem fresh_eq (ps : Placeholders) :
    ps.fresh = (ps.dialect.placeholder ps.counter, ps.meet [none]) := by
  simp [fresh, meet, recorded, Dialect.handOut]

theorem record_eq (ps : Placeholders) (e : Expression) :
    ps.record e = (ps.dialect.placeholder ps.counter, ps.meet [some e]) :=
  rfl

end Placeholders

-- ---------------------------------------------------------------------------
-- Texts and entries
-- ---------------------------------------------------------------------------

def Expression.sqlFrom (qualifier : String) (dialect : Dialect) (number : Nat) : Expression → String
  | .var name => if name.source = some qualifier then name.column else dialect.placeholder number
  | _ => dialect.placeholder number

/-- How a formula is written if the next placeholder has this number: the operands
on the left take their placeholders first. -/
def Formula.sqlFrom (qualifier : String) (dialect : Dialect) : Formula → Nat → String
  | .and left right, number =>
    "(" ++ left.sqlFrom qualifier dialect number ++ ") AND (" ++
      right.sqlFrom qualifier dialect (number + (left.foreign qualifier).length) ++ ")"
  | .or left right, number =>
    "(" ++ left.sqlFrom qualifier dialect number ++ ") OR (" ++
      right.sqlFrom qualifier dialect (number + (left.foreign qualifier).length) ++ ")"
  | .not inner, number => "NOT (" ++ inner.sqlFrom qualifier dialect number ++ ")"
  | .const b, _ => dialect.boolToken b
  | .predicate left relation right, number =>
    "(" ++ left.sqlFrom qualifier dialect number ++ ") " ++ relation.token ++ " (" ++
      right.sqlFrom qualifier dialect (number + (left.foreign qualifier).length) ++ ")"

namespace Expression

theorem sqlFrom_column {name : Name} (h : name.source = some qualifier) :
    (Expression.var name).sqlFrom qualifier dialect number = name.column :=
  if_pos h

theorem sqlFrom_foreign {e : Expression} (h : e.isColumnOf qualifier = false) :
    e.sqlFrom qualifier dialect number = dialect.placeholder number := by
  cases e with
  | var name => exact if_neg (by simpa [isColumnOf] using h)
  | const v => rfl
  | tuple items => rfl

theorem toSql_meets (e : Expression) (ps : Placeholders) : e.toSql ps =
    (e.sqlFrom ps.qualifier ps.dialect ps.counter, ps.meet ((e.foreign ps.qualifier).map some)) := by
  unfold foreign
  cases h : e.isColumnOf ps.qualifier with
  | false =>
    rw [toSql_foreign h, sqlFrom_foreign h, Placeholders.record_eq, if_neg Bool.false_ne_true]
    rfl
  | true =>
    obtain ⟨name, rfl, hname⟩ := isColumnOf_iff.mp h
    rw [toSql_column hname, sqlFrom_column hname, if_pos rfl, List.map_nil, Placeholders.meet_nil]

end Expression

namespace Formula

theorem written_meets (f : Formula) (ps : Placeholders) : f.written ps =
    (f.sqlFrom ps.qualifier ps.dialect ps.counter, ps.meet ((f.foreign ps.qualifier).map some)) := by
  -- The right side starts with the number after those of the left one, in the text as in the
  -- table: `← List.length_map` turns the number of operands into that of demands.
  induction f generalizing ps with
  | and left right ihl ihr =>
    rw [written, ihl, ihr, foreign_and, List.map_append, Placeholders.meet_append, sqlFrom,
      ← List.length_map some]
    rfl
  | or left right ihl ihr =>
    rw [written, ihl, ihr, foreign_or, List.map_append, Placeholders.meet_append, sqlFrom,
      ← List.length_map some]
    rfl
  | not inner ih =>
    rw [written, ih]
    rfl
  | const b =>
    rw [written, foreign, operands, List.filter_nil, List.map_nil, Placeholders.meet_nil]
    rfl
  | predicate left relation right =>
    rw [written, left.toSql_meets, right.toSql_meets, foreign_predicate, List.map_append,
      Placeholders.meet_append, sqlFrom, ← List.length_map some]
    rfl

theorem entries_written (f : Formula) (ps : Placeholders) : (f.written ps).2.entries =
    ps.entries ++ ((f.foreign ps.qualifier).zipIdx ps.counter).map
      fun e => (ps.dialect.placeholder e.2, e.1) := by
  rw [f.written_meets, Placeholders.meet, Placeholders.recorded_handOut]

/-- The placeholders after handing out some for these expressions. -/
structure Adds (ps after : Placeholders) (expressions : List Expression) : Prop where
  qualifier : after.qualifier = ps.qualifier
  entries : after.entries.map Prod.snd = ps.entries.map Prod.snd ++ expressions

theorem adds_written (f : Formula) (ps : Placeholders) :
    Adds ps (f.written ps).2 (f.foreign ps.qualifier) where
  qualifier := by
    rw [f.written_meets]
    rfl
  entries := by
    rw [f.entries_written, List.map_append, List.map_map]
    exact congrArg _ (List.zipIdx_map_fst _ _)

end Formula

theorem Placeholders.compile_eq (ps : Placeholders) :
    ps.compile = .ok ⟨ps.entries.map (Prod.map id Expression.compiled)⟩ := by
  unfold compile
  refine bind_ok.mpr ⟨_, mapM_ok.mpr ?_, rfl⟩
  rw [List.forall₂_map_right_iff, List.forall₂_same]
  intro entry hentry
  simp only [Expression.compile_eq]
  rfl

end StreamQuery
