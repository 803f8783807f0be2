import StreamQuery.Proofs.Condition.Outcome
import StreamQuery.Proofs.Condition.Scalar
import StreamQuery.Proofs.Pushdown.Writing
import StreamQuery.Proofs.Scope

/-!
# Filters in the database

A filter that a database applies to its own rows means what it would mean here
(`pushed_filter_agrees`). There, columns of the alias are read off the row and
every other operand is a parameter, which was bound before any row was looked
at; here, all operands are evaluated with the row in front of the scope. That
the row hides nothing the parameters read is what qualified names are for.
-/

namespace StreamQuery

/-- The value of an operand as a database sees it: a column of the alias is
read off the row, anything else is the parameter of that number. -/
def Expression.read (qualifier : String) (row : Record) (parameters : List Value) (number : Nat) :
    Expression → Option Value
  | .var name => if name.source = some qualifier then row.get? name else parameters[number]?
  | _ => parameters[number]?

/-- The operand reads columns of the alias only by being one that the row has. -/
def Expression.Pushable (qualifier : String) (row : Record) (e : Expression) : Prop :=
  ∀ name ∈ e.vars, name.isQualified ∧
    (name.source = some qualifier → e = .var name ∧ name ∈ row.names)

namespace Formula

/-- The outcome of a formula in a database that was sent these parameters, if
the first operand in need of one takes the parameter `number`. -/
def evalPushed (qualifier : String) (row : Record) (parameters : List Value) :
    Formula → Nat → Except Error Bool
  | .and left right, number =>
    bothHold (left.evalPushed qualifier row parameters number)
      (right.evalPushed qualifier row parameters (number + (left.foreign qualifier).length))
  | .or left right, number =>
    eitherHolds (left.evalPushed qualifier row parameters number)
      (right.evalPushed qualifier row parameters (number + (left.foreign qualifier).length))
  | .not inner, number => (!·) <$> inner.evalPushed qualifier row parameters number
  | .const b, _ => .ok b
  | .predicate left relation right, number =>
    match left.read qualifier row parameters number,
      right.read qualifier row parameters (number + (left.foreign qualifier).length) with
    | some l, some r => relation.holds l r
    | _, _ => .error (.internal "operand has no value")

end Formula

variable {qualifier : String} {row : Record} {parameters : List Value} {scope : Scope}
  {number : Nat}

def Supplies (scope : Scope) (parameters : List Value) (number : Nat)
    (expressions : List Expression) : Prop :=
  ∀ k e, expressions[k]? = some e →
    ∃ v, parameters[number + k]? = some v ∧ e.compiled.eval scope = .ok v

theorem Supplies.left (h : Supplies scope parameters number (expressions ++ more)) :
    Supplies scope parameters number expressions := by
  intro k e he
  obtain ⟨hk, -⟩ := List.getElem?_eq_some_iff.mp he
  exact h k e (by rw [List.getElem?_append_left hk, he])

theorem Supplies.right (h : Supplies scope parameters number (expressions ++ more)) :
    Supplies scope parameters (number + expressions.length) more := by
  intro k e he
  rw [Nat.add_assoc]
  exact h _ e (by rw [List.getElem?_append_right (Nat.le_add_right _ _), Nat.add_sub_cancel_left, he])

theorem supplies_of_bind (h : Scalar.evalItems scope (expressions.map Expression.compiled) =
    .ok parameters) : Supplies scope parameters 0 expressions := by
  intro k e he
  obtain ⟨hlen, hget⟩ :=
    List.forall₂_iff_get.mp (List.forall₂_map_left_iff.mp (Scalar.evalItems_ok.mp h))
  obtain ⟨hk, rfl⟩ := List.getElem?_eq_some_iff.mp he
  have hk' : k < parameters.length := hlen ▸ hk
  exact ⟨parameters[k], by rw [Nat.zero_add, List.getElem?_eq_getElem hk'], hget k hk hk'⟩

namespace Expression

theorem read_column {name : Name} (h : name.source = some qualifier) :
    (Expression.var name).read qualifier row parameters number = row.get? name :=
  if_pos h

theorem read_foreign {e : Expression} (h : e.isColumnOf qualifier = false) :
    e.read qualifier row parameters number = parameters[number]? := by
  cases e with
  | var name => exact if_neg (by simpa [isColumnOf] using h)
  | const v => rfl
  | tuple items => rfl

theorem Pushable.eval_eq {e : Expression} (he : e.Pushable qualifier row)
    (hrow : ∀ name ∈ row.names, name.source = some qualifier)
    (h : e.isColumnOf qualifier = false) :
    e.compiled.eval (scope.withRecord row) = e.compiled.eval scope := by
  refine eval_congr e fun name hn => Scope.get_withRecord_of_none ?_
  rintro ⟨column, hc, haddr⟩
  obtain ⟨hq, hnative⟩ := he name hn
  have hsource : column.1.source = some qualifier := hrow column.1 (List.mem_map_of_mem hc)
  have hqualified : column.1.isQualified := by rw [Name.isQualified, hsource]; rfl
  rw [(Name.addresses_iff hq hqualified).mp haddr] at hn
  obtain ⟨rfl, -⟩ := (he column.1 hn).2 hsource
  rw [isColumnOf_iff.mpr ⟨column.1, rfl, hsource⟩] at h
  cases h

theorem Pushable.exists_read {e : Expression} (he : e.Pushable qualifier row)
    (hrow : ∀ name ∈ row.names, name.source = some qualifier)
    (h : Supplies scope parameters number (e.foreign qualifier)) :
    ∃ v, e.read qualifier row parameters number = some v ∧
      e.compiled.eval (scope.withRecord row) = .ok v := by
  cases hc : e.isColumnOf qualifier with
  | true =>
    obtain ⟨name, rfl, hs⟩ := isColumnOf_iff.mp hc
    have hq : ∀ name ∈ row.names, name.isQualified := fun name hn => by
      rw [Name.isQualified, hrow name hn]
      rfl
    obtain ⟨-, hmem⟩ := (he name List.mem_cons_self).2 hs
    obtain ⟨v, hget, heval⟩ := Scope.get_withRecord_of_mem hq hmem
    exact ⟨v, by rw [read_column hs, hget], heval⟩
  | false =>
    obtain ⟨v, hv, heval⟩ := h 0 e (by simp [foreign, hc])
    exact ⟨v, by rw [read_foreign hc]; exact hv, by rw [he.eval_eq hrow hc, heval]⟩

end Expression

namespace Formula

theorem evalPushed_eq (hrow : ∀ name ∈ row.names, name.source = some qualifier) (f : Formula)
    (hf : ∀ e ∈ f.operands, e.Pushable qualifier row) (number : Nat)
    (h : Supplies scope parameters number (f.foreign qualifier)) :
    f.evalPushed qualifier row parameters number = f.compiled.outcome (scope.withRecord row) := by
  induction f generalizing number with
  | and left right ihl ihr =>
    rw [foreign_and] at h
    rw [evalPushed, compiled, Condition.outcome,
      ihl (fun e he => hf e (List.mem_append_left _ he)) number h.left,
      ihr (fun e he => hf e (List.mem_append_right _ he)) _ h.right]
  | or left right ihl ihr =>
    rw [foreign_or] at h
    rw [evalPushed, compiled, Condition.outcome,
      ihl (fun e he => hf e (List.mem_append_left _ he)) number h.left,
      ihr (fun e he => hf e (List.mem_append_right _ he)) _ h.right]
  | not inner ih => rw [evalPushed, compiled, Condition.outcome, ih hf number h]
  | const b => rfl
  | predicate left relation right =>
    rw [foreign_predicate] at h
    obtain ⟨l, hl, hleval⟩ := (hf left List.mem_cons_self).exists_read hrow h.left
    obtain ⟨r, hr, hreval⟩ :=
      (hf right (List.mem_cons_of_mem _ List.mem_cons_self)).exists_read hrow h.right
    rw [evalPushed, compiled, Condition.outcome, Condition.evalPredicate, hleval, ok_bind, hreval,
      ok_bind]
    simp only [hl, hr]

theorem vars_eq (f : Formula) : f.vars = f.operands.flatMap Expression.vars := by
  induction f with
  | and left right ihl ihr | or left right ihl ihr =>
    rw [vars, operands, List.flatMap_append, ihl, ihr]
  | not inner ih => exact ih
  | const b => rfl
  | predicate left relation right => simp [vars, operands]

/-- A filter that is pushed down is written and compiled without fail. Whenever
the values of its parameters can be had, the database keeps the same rows as
the filter would here, and a row on which the one fails makes the other fail in
the same way.

Premise: the columns of the row are qualified by the alias. So is every name in
the formula by some source, and a column of the alias stands in the formula
only as a whole operand and is one of the row. -/
theorem pushed_filter_agrees (f : Formula) (qualifier : String) (dialect : Dialect) (scope : Scope)
    (row : Record) (hrow : ∀ name ∈ row.names, name.source = some qualifier)
    (hqualified : ∀ name ∈ f.vars, name.isQualified)
    (hnative : ∀ e ∈ f.operands, ∀ name ∈ e.vars, name.source = some qualifier →
      e = .var name ∧ name ∈ row.names) :
    ∃ fragment parameters condition, f.pushDown qualifier dialect = .ok fragment ∧
      fragment.placeholders.compile = .ok parameters ∧ f.compile = .ok condition ∧
      ∀ values, parameters.bind scope = .ok values →
        f.evalPushed qualifier row values 0 = condition.eval (scope.withRecord row) := by
  refine ⟨_, _, _, pushDown_eq f qualifier dialect, Placeholders.compile_eq _, compile_eq f,
    fun values hvalues => ?_⟩
  have hentries := (adds_written f (.start qualifier dialect)).entries
  rw [Condition.eval_eq_outcome]
  refine evalPushed_eq hrow f (fun e he name hn => ⟨?_, hnative e he name hn⟩) 0 ?_
  · refine hqualified name ?_
    rw [vars_eq]
    exact List.mem_flatMap.mpr ⟨e, he, hn⟩
  · refine supplies_of_bind ?_
    rw [Parameters.bind, List.map_map] at hvalues
    have hcompiled : (f.foreign qualifier).map Expression.compiled =
        ((f.written (.start qualifier dialect)).2.entries.map Prod.snd).map Expression.compiled := by
      rw [hentries]
      rfl
    rw [hcompiled, List.map_map]
    exact hvalues

def columnBetween : Formula :=
  .and (.predicate (.var ⟨"u", "b"⟩) .lessThan (.var ⟨"t", "a"⟩))
    (.predicate (.var ⟨"t", "a"⟩) .lessThan (.const (.int 9)))

theorem pushed_filter_agrees_on_columnBetween :
    ∃ fragment parameters condition, columnBetween.pushDown "t" .standard = .ok fragment ∧
      fragment.placeholders.compile = .ok parameters ∧ columnBetween.compile = .ok condition ∧
      parameters.bind (.ofBindings [(⟨"u", "b"⟩, .int 1)]) = .ok [.int 1, .int 9] ∧
      columnBetween.evalPushed "t" ⟨[(⟨"t", "a"⟩, .int 5)], false⟩ [.int 1, .int 9] 0 =
        condition.eval (Scope.withRecord (.ofBindings [(⟨"u", "b"⟩, .int 1)])
          ⟨[(⟨"t", "a"⟩, .int 5)], false⟩) := by
  obtain ⟨fragment, parameters, condition, hpush, hcompile, hcondition, hagree⟩ :=
    pushed_filter_agrees columnBetween "t" .standard (.ofBindings [(⟨"u", "b"⟩, .int 1)])
      ⟨[(⟨"t", "a"⟩, .int 5)], false⟩ (by decide) (by decide)
      (by simp [columnBetween, operands, Expression.vars, Record.names])
  have hbind : parameters.bind (.ofBindings [(⟨"u", "b"⟩, .int 1)]) = .ok [.int 1, .int 9] := by
    rw [pushDown_eq] at hpush
    cases hpush
    rw [Placeholders.compile_eq] at hcompile
    cases hcompile
    rfl
  exact ⟨fragment, parameters, condition, hpush, hcompile, hcondition, hbind, hagree _ hbind⟩

end Formula

end StreamQuery
