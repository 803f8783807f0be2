import StreamQuery.Proofs.Condition.Meaning
import StreamQuery.Proofs.Pushdown.Numbering

/-!
# Placeholders and their expressions

However a table of placeholders is used, the placeholders that it hands out are
numbered through and stand for the expressions that they were asked for
(`placeholders_line_up`). What a call asks for can be read off the call
(`Call.demands`): `fresh` a placeholder for nothing, an expression that is no
column of the alias one for itself, a formula one for each such operand. One call
meets its demands with the next numbers (`run_eq`, `handsOut_eq`), so a sequence
of calls meets theirs one after the other (`after_eq`, `handedOut_eq`).
-/

namespace StreamQuery

-- ---------------------------------------------------------------------------
-- Calls
-- ---------------------------------------------------------------------------

namespace Placeholders

inductive Call where
  | fresh
  | expression (e : Expression)
  | formula (f : Formula)

/-- The placeholders that expressions get when they are written one after the other:
the texts of those that are no columns of the alias. -/
def handedTo : List Expression → Placeholders → List (String × Option Expression)
  | [], _ => []
  | e :: rest, ps =>
    (if e.isColumnOf ps.qualifier then [] else [((e.toSql ps).1, some e)]) ++
      handedTo rest (e.toSql ps).2

theorem handedTo_eq (expressions : List Expression) (ps : Placeholders) :
    handedTo expressions ps = ps.dialect.handOut ps.counter
      ((expressions.filter fun e => !e.isColumnOf ps.qualifier).map some) := by
  induction expressions generalizing ps with
  | nil => rfl
  | cons e rest ih =>
    cases h : e.isColumnOf ps.qualifier with
    | false =>
      rw [List.filter_cons_of_pos (by simp [h]), handedTo, ih, Expression.toSql_foreign h, h]
      rfl
    | true =>
      obtain ⟨name, rfl, hname⟩ := Expression.isColumnOf_iff.mp h
      rw [List.filter_cons_of_neg (by simp [h]), handedTo, ih, Expression.toSql_column hname, h]
      rfl

namespace Call

def run : Call → Placeholders → Except Error String × Placeholders
  | .fresh, ps => (.ok ps.fresh.1, ps.fresh.2)
  | .expression e, ps => (.ok (e.toSql ps).1, (e.toSql ps).2)
  | .formula f, ps => f.toSql ps

/-- The placeholders that a call hands out, from left to right in what it returns,
with the expressions that they are recorded for. -/
def handsOut : Call → Placeholders → List (String × Option Expression)
  | .fresh, ps => [(ps.fresh.1, none)]
  | .expression e, ps => handedTo [e] ps
  | .formula f, ps => handedTo f.operands ps

def demands (qualifier : String) : Call → List (Option Expression)
  | .fresh => [none]
  | .expression e => (e.foreign qualifier).map some
  | .formula f => (f.foreign qualifier).map some

def answer (qualifier : String) (dialect : Dialect) : Call → Nat → String
  | .fresh, number => dialect.placeholder number
  | .expression e, number => e.sqlFrom qualifier dialect number
  | .formula f, number => f.sqlFrom qualifier dialect number

theorem run_eq (call : Call) (ps : Placeholders) : call.run ps =
    (.ok (call.answer ps.qualifier ps.dialect ps.counter), ps.meet (call.demands ps.qualifier)) := by
  cases call with
  | fresh =>
    rw [run, ps.fresh_eq]
    rfl
  | expression e =>
    rw [run, e.toSql_meets]
    rfl
  | formula f =>
    rw [run, f.toSql_eq, f.written_meets]
    rfl

theorem handsOut_eq (call : Call) (ps : Placeholders) :
    call.handsOut ps = ps.dialect.handOut ps.counter (call.demands ps.qualifier) := by
  cases call with
  | fresh => rfl
  | expression e =>
    rw [handsOut, handedTo_eq, demands, Expression.foreign]
    cases h : e.isColumnOf ps.qualifier <;> simp [h]
  | formula f => exact handedTo_eq f.operands ps

end Call

-- ---------------------------------------------------------------------------
-- Sequences of calls
-- ---------------------------------------------------------------------------

def after : List Call → Placeholders → Placeholders
  | [], ps => ps
  | call :: rest, ps => after rest (call.run ps).2

def handedOut : List Call → Placeholders → List (String × Option Expression)
  | [], _ => []
  | call :: rest, ps => call.handsOut ps ++ handedOut rest (call.run ps).2

theorem after_eq (calls : List Call) (ps : Placeholders) :
    after calls ps = ps.meet (calls.flatMap (Call.demands ps.qualifier)) := by
  induction calls generalizing ps with
  | nil => exact meet_nil.symm
  | cons call rest ih =>
    rw [after, ih, call.run_eq, List.flatMap_cons, meet_append]
    rfl

theorem handedOut_eq (calls : List Call) (ps : Placeholders) : handedOut calls ps =
    ps.dialect.handOut ps.counter (calls.flatMap (Call.demands ps.qualifier)) := by
  induction calls generalizing ps with
  | nil => rfl
  | cons call rest ih =>
    rw [handedOut, ih, call.handsOut_eq, call.run_eq, List.flatMap_cons, Dialect.handOut_append]
    rfl

theorem after_append (calls more : List Call) (ps : Placeholders) :
    after (calls ++ more) ps = after more (after calls ps) := by
  induction calls generalizing ps with
  | nil => rfl
  | cons call rest ih => exact ih _

theorem handedOut_append (calls more : List Call) (ps : Placeholders) :
    handedOut (calls ++ more) ps = handedOut calls ps ++ handedOut more (after calls ps) := by
  induction calls generalizing ps with
  | nil => rfl
  | cons call rest ih => rw [List.cons_append, handedOut, handedOut, after, ih, List.append_assoc]

-- ---------------------------------------------------------------------------
-- Alignment
-- ---------------------------------------------------------------------------

/-- A table that has handed out these placeholders, and no others. -/
structure LinesUp (ps : Placeholders) (handed : List (String × Option Expression)) : Prop where
  distinct : (handed.map Prod.fst).Nodup
  entries : ps.entries = recorded handed
  ascending : ps.Numbered
  counter : ps.counter = 1 + handed.length
  found : ∀ placeholder ∈ handed, ps.get? placeholder.1 = placeholder.2
  unknown : ∀ text ∉ handed.map Prod.fst, ps.get? text = none

variable {ps : Placeholders} {handed : List (String × Option Expression)}

theorem linesUp_of_entries (hdistinct : (handed.map Prod.fst).Nodup)
    (hentries : ps.entries = recorded handed) (hascending : ps.Numbered)
    (hcounter : ps.counter = 1 + handed.length) : LinesUp ps handed where
  distinct := hdistinct
  entries := hentries
  ascending := hascending
  counter := hcounter
  found := by
    rintro ⟨text, demand⟩ hmem
    cases demand with
    | some e =>
      apply hascending.get?_of_mem
      rw [hentries]
      exact mem_recorded.mpr hmem
    | none =>
      apply get?_eq_none
      intro e he
      rw [hentries] at he
      -- Its entry would make it a placeholder that was handed out twice.
      have hsame := List.inj_on_of_nodup_map hdistinct (mem_recorded.mp he) hmem rfl
      cases hsame
  unknown text htext := by
    apply get?_eq_none
    intro e he
    rw [hentries] at he
    exact htext (List.mem_map_of_mem (mem_recorded.mp he))

theorem linesUp_after (calls : List Call) (qualifier : String) (dialect : Dialect) :
    LinesUp (after calls (start qualifier dialect)) (handedOut calls (start qualifier dialect)) := by
  have hafter := after_eq calls (start qualifier dialect)
  have hhanded := handedOut_eq calls (start qualifier dialect)
  apply linesUp_of_entries
  · rw [hhanded]
    exact Dialect.nodup_handOut
  · rw [hafter, hhanded]
    rfl
  · rw [hafter]
    exact (numbered_start qualifier dialect).meet _
  · rw [hafter, hhanded, Dialect.handOut, List.length_map, List.length_zipIdx]
    rfl

end Placeholders

open Placeholders

theorem Formula.written_appends (f : Formula) (ps : Placeholders) :
    ∃ added, (f.written ps).2.entries = ps.entries ++ added ∧
      added.map Prod.snd = f.foreign ps.qualifier := by
  refine ⟨_, f.entries_written ps, ?_⟩
  rw [List.map_map]
  exact List.zipIdx_map_fst _ _

theorem Parameters.bind_eq (entries : List (String × Expression)) (scope : Scope) :
    Parameters.bind ⟨entries.map (Prod.map id Expression.compiled)⟩ scope =
      (entries.map Prod.snd).mapM (Expression.value scope) := by
  have heval : Scalar.eval scope ∘ Prod.snd ∘ Prod.map id Expression.compiled =
      Expression.value scope ∘ Prod.snd (α := String) := funext fun entry => entry.2.eval_compiled
  rw [bind, Scalar.evalItems_eq_mapM, List.map_map, List.mapM_map, List.mapM_map, heval]

theorem Formula.pushDown_lines_up (f : Formula) (qualifier : String) (dialect : Dialect) :
    ∃ fragment parameters, f.pushDown qualifier dialect = .ok fragment ∧
      fragment.sql = f.sqlFrom qualifier dialect 1 ∧
      (∀ i, fragment.placeholders.entries[i]? =
        (f.foreign qualifier)[i]?.map fun e => (dialect.placeholder (i + 1), e)) ∧
      fragment.placeholders.compile = .ok parameters ∧
      ∀ scope, parameters.bind scope = (f.foreign qualifier).mapM (Expression.value scope) := by
  have hentries : (f.written (start qualifier dialect)).2.entries =
      ((f.foreign qualifier).zipIdx 1).map fun e => (dialect.placeholder e.2, e.1) :=
    f.entries_written (start qualifier dialect)
  refine ⟨_, _, f.pushDown_eq qualifier dialect, ?_, ?_, Placeholders.compile_eq _, ?_⟩
  · rw [f.written_meets]
    rfl
  · intro i
    rw [hentries, List.getElem?_map, List.getElem?_zipIdx, Option.map_map, Nat.add_comm]
    rfl
  · intro scope
    rw [Parameters.bind_eq, hentries, List.map_map]
    exact congrArg _ (List.zipIdx_map_fst 1 _)

/-- The placeholders that one table hands out, in whichever calls, are numbered through
from one. They are all different, and each leads for ever after to the expression that
it was recorded for, or to none if it was taken without one. The entries stand in the
order of their numbers. No call fails. Writing a formula appends exactly its operands
that are no columns of the alias, from left to right, with the repetitions.

In a pushed filter the placeholders are numbered from one, and binding gives the
values of these operands in this order, or the failure of the first that has none. -/
theorem placeholders_line_up (qualifier : String) (dialect : Dialect) :
    (∀ calls : List Call,
      let ps := after calls (start qualifier dialect)
      let handed := handedOut calls (start qualifier dialect)
      LinesUp ps handed ∧ handed = dialect.handOut 1 (calls.flatMap (Call.demands qualifier)) ∧
      (∀ more : List Call, ∀ placeholder ∈ handed,
        (after more ps).get? placeholder.1 = placeholder.2) ∧
      (∀ call : Call, (call.run ps).1 = .ok (call.answer qualifier dialect (1 + handed.length))) ∧
      ∀ f : Formula, ∃ added, (f.toSql ps).2.entries = ps.entries ++ added ∧
        added.map Prod.snd = f.foreign qualifier) ∧
    ∀ f : Formula, ∃ fragment parameters, f.pushDown qualifier dialect = .ok fragment ∧
      fragment.sql = f.sqlFrom qualifier dialect 1 ∧
      (∀ i, fragment.placeholders.entries[i]? =
        (f.foreign qualifier)[i]?.map fun e => (dialect.placeholder (i + 1), e)) ∧
      fragment.placeholders.compile = .ok parameters ∧
      ∀ scope,
        (∀ values, parameters.bind scope = .ok values ↔
          List.Forall₂ (fun e v => e.value scope = .ok v) (f.foreign qualifier) values) ∧
        ∀ error, parameters.bind scope = .error error ↔
          ∃ before e rest, f.foreign qualifier = before ++ e :: rest ∧
            (∀ earlier ∈ before, ∃ v, earlier.value scope = .ok v) ∧
            e.value scope = .error error := by
  constructor
  · intro calls ps handed
    have hlines : LinesUp ps handed := linesUp_after calls qualifier dialect
    have hps : ps = (start qualifier dialect).meet (calls.flatMap (Call.demands qualifier)) :=
      after_eq calls (start qualifier dialect)
    have hqualifier : ps.qualifier = qualifier := by rw [hps]; rfl
    have hdialect : ps.dialect = dialect := by rw [hps]; rfl
    refine ⟨hlines, handedOut_eq calls (start qualifier dialect), ?_, ?_, ?_⟩
    · -- What is handed out by more calls comes after what was handed out by these.
      intro more placeholder hmem
      have hmore := linesUp_after (calls ++ more) qualifier dialect
      rw [after_append, handedOut_append] at hmore
      exact hmore.found placeholder (List.mem_append_left _ hmem)
    · intro call
      rw [call.run_eq, hqualifier, hdialect, hlines.counter]
    · intro f
      rw [f.toSql_eq, ← hqualifier]
      exact f.written_appends ps
  · intro f
    obtain ⟨fragment, parameters, hfragment, hsql, hentries, hcompile, hbind⟩ :=
      f.pushDown_lines_up qualifier dialect
    refine ⟨fragment, parameters, hfragment, hsql, hentries, hcompile, fun scope => ⟨?_, ?_⟩⟩
    · intro values
      rw [hbind]
      exact mapM_ok
    · intro error
      rw [hbind]
      exact mapM_error

def insideOut : Formula :=
  .and (.predicate (.var ⟨"u", "b"⟩) .lessThan (.var ⟨"t", "a"⟩))
    (.predicate (.var ⟨"t", "c"⟩) .lessThan (.var ⟨"u", "b"⟩))

/-- The column has two placeholders, and two others once the formula is written again.
The one in between stands for nothing. -/
theorem placeholders_line_up_of_repetition :
    (∀ more : List Call,
      let ps := after more (after [.formula insideOut, .fresh] (start "t" .standard))
      ps.get? "$2" = some (.var ⟨"u", "b"⟩) ∧ ps.get? "$3" = none) ∧
    (Call.run (.formula insideOut) (after [.formula insideOut, .fresh] (start "t" .standard))).1 =
      .ok "(($4) < (a)) AND ((c) < ($5))" ∧
    ∃ fragment parameters, insideOut.pushDown "t" .standard = .ok fragment ∧
      fragment.placeholders.compile = .ok parameters ∧
      parameters.bind (.ofBindings [(⟨"u", "b"⟩, .int 7)]) = .ok [.int 7, .int 7] ∧
      parameters.bind (.ofBindings []) = .error (.notFound "variable u.b") := by
  obtain ⟨hcalls, hpush⟩ := placeholders_line_up "t" .standard
  obtain ⟨-, -, hfound, htext, -⟩ := hcalls [.formula insideOut, .fresh]
  have hhanded : handedOut [.formula insideOut, .fresh] (start "t" .standard) =
      [("$1", some (.var ⟨"u", "b"⟩)), ("$2", some (.var ⟨"u", "b"⟩)), ("$3", none)] := by
    rw [handedOut_eq]
    rfl
  obtain ⟨fragment, parameters, hfragment, -, -, hcompile, hbind⟩ := hpush insideOut
  refine ⟨fun more => ⟨?_, ?_⟩, ?_, fragment, parameters, hfragment, hcompile, ?_, ?_⟩
  · exact hfound more ("$2", _) (by simp [hhanded])
  · exact hfound more ("$3", none) (by simp [hhanded])
  · rw [htext, hhanded]
    rfl
  · exact ((hbind _).1 _).mpr (.cons rfl (.cons rfl .nil))
  · exact ((hbind _).2 _).mpr ⟨[], _, _, rfl, by simp, rfl⟩

end StreamQuery
