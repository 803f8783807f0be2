import StreamQuery.Proofs.Formula.Equality
import StreamQuery.Proofs.Pushdown.Clause
import StreamQuery.Proofs.Pushdown.Numbering

/-!
# Reading SQL back

The text of a formula is taken apart by its outermost parentheses, and what
stands outside of them says what formula it is. Nothing depends on which
operator binds tighter. An operand is a placeholder of the table or else a
column of the alias.

Texts are read back against the placeholders of the whole fragment. The table
has grown since an operand was written, but the entry of the operand is still
there, under a number of its own, so every part of the text reads as what it was
written for (`read_written`), and formulas with the same fragment are the same
(`pushDown_injective`).
-/

namespace StreamQuery

/-- No token of the dialect can be mistaken for another one. -/
structure Dialect.Readable (dialect : Dialect) : Prop where
  tokens_ne : dialect.trueToken ≠ dialect.falseToken
  trueToken : Plain dialect.trueToken.toList
  falseToken : Plain dialect.falseToken.toList
  placeholderMark : Plain dialect.placeholderMark.toList

theorem Dialect.readable_standard : standard.Readable :=
  ⟨by decide, by decide, by decide, by decide⟩

/-- A column that is written by its name is not mistaken for a placeholder. Only
numbers as they are handed out count: a column `$01` is none of them. -/
def Expression.Readable (qualifier : String) (dialect : Dialect) (e : Expression) : Prop :=
  ∀ name : Name, e = .var name → name.source = some qualifier →
    Plain name.column.toList ∧ ∀ n, name.column ≠ dialect.placeholder n

def Formula.Readable (qualifier : String) (dialect : Dialect) (f : Formula) : Prop :=
  ∀ e ∈ f.operands, e.Readable qualifier dialect

-- ---------------------------------------------------------------------------
-- The reader
-- ---------------------------------------------------------------------------

namespace Placeholders

def readOperand (ps : Placeholders) (text : List Char) : Expression :=
  (ps.get? (String.ofList text)).getD (.var ⟨some ps.qualifier, String.ofList text⟩)

def readPredicate (ps : Placeholders) (left token right : List Char) : Option Formula :=
  (Relation.all.find? fun relation => (" " ++ relation.token ++ " ").toList = token).map
    fun relation => .predicate (ps.readOperand left) relation (ps.readOperand right)

def readConstant (ps : Placeholders) (token : List Char) : Option Formula :=
  if token = ps.dialect.trueToken.toList then some (.const true)
  else if token = ps.dialect.falseToken.toList then some (.const false)
  else none

def readClause (ps : Placeholders) :
    (clause : Clause) → (∀ operand ∈ clause.operands, Option Formula) → Option Formula
  | .plain token, _ => ps.readConstant token
  | .unary token operand, formula =>
    if token = "NOT ".toList then (formula operand List.mem_cons_self).map .not else none
  | .binary left token right, formula =>
    let l := formula left List.mem_cons_self
    let r := formula right (List.mem_cons_of_mem _ List.mem_cons_self)
    if token = " AND ".toList then return .and (← l) (← r)
    else if token = " OR ".toList then return .or (← l) (← r)
    else ps.readPredicate left token right

def read (ps : Placeholders) (text : List Char) : Option Formula :=
  match _ : clause? text with
  | none => none
  | some clause => ps.readClause clause fun operand _ => ps.read operand
termination_by text.length
decreasing_by exact length_operands ‹clause? text = _› ‹operand ∈ clause.operands›

end Placeholders

def SqlFragment.readBack (fragment : SqlFragment) : Option Formula :=
  fragment.placeholders.read fragment.sql.toList

namespace Placeholders

variable {ps final : Placeholders}

theorem read_eq (h : clause? text = some clause) :
    ps.read text = ps.readClause clause fun operand _ => ps.read operand := by
  rw [read]
  split <;> cases h.symm.trans ‹clause? text = _›
  rfl

theorem read_plain (h : clause? text = some (.plain token)) :
    ps.read text = ps.readConstant token :=
  read_eq h

theorem read_not (h : clause? text = some (.unary "NOT ".toList operand)) :
    ps.read text = (ps.read operand).map .not := by
  rw [read_eq h, readClause, if_pos rfl]

theorem read_and (h : clause? text = some (.binary left " AND ".toList right)) :
    ps.read text = (do return .and (← ps.read left) (← ps.read right)) := by
  rw [read_eq h, readClause, if_pos rfl]

theorem read_or (h : clause? text = some (.binary left " OR ".toList right)) :
    ps.read text = (do return .or (← ps.read left) (← ps.read right)) := by
  rw [read_eq h, readClause, if_neg (by decide), if_pos rfl]

theorem read_predicate {relation : Relation}
    (h : clause? text = some (.binary left (" " ++ relation.token ++ " ").toList right)) :
    ps.read text = some (.predicate (ps.readOperand left) relation (ps.readOperand right)) := by
  rw [read_eq h]
  -- No relation has the token of a connective or that of another relation.
  cases relation <;> rfl

theorem readConstant_boolToken (h : ps.dialect.Readable) (b : Bool) :
    ps.readConstant (ps.dialect.boolToken b).toList = some (.const b) := by
  cases b with
  | true => exact if_pos rfl
  | false =>
    have hne : ps.dialect.falseToken.toList ≠ ps.dialect.trueToken.toList :=
      fun heq => h.tokens_ne (String.toList_inj.mp heq).symm
    exact (if_neg hne).trans (if_pos rfl)

theorem readOperand_placeholder (hnumbered : ps.Numbered) (h : (placeholder, e) ∈ ps.entries) :
    ps.readOperand placeholder.toList = e := by
  rw [readOperand, String.ofList_toList, hnumbered.get?_of_mem h, Option.getD_some]

theorem readOperand_column (hnumbered : ps.Numbered) (hname : name.source = some ps.qualifier)
    (h : ∀ n, name.column ≠ ps.dialect.placeholder n) :
    ps.readOperand name.column.toList = .var name := by
  rw [readOperand, String.ofList_toList, hnumbered.get?_eq_none h, Option.getD_none, ← hname]

end Placeholders

-- ---------------------------------------------------------------------------
-- Written texts
-- ---------------------------------------------------------------------------

namespace Dialect

variable {dialect : Dialect}

theorem ne_placeholder (h : ¬dialect.placeholderMark.toList <+: column.toList) (n : Nat) :
    column ≠ dialect.placeholder n := by
  rintro rfl
  exact h (toList_placeholder dialect n ▸ List.prefix_append _ _)

theorem Readable.boolToken (h : dialect.Readable) (b : Bool) : Plain (dialect.boolToken b).toList := by
  cases b with
  | true => exact h.trueToken
  | false => exact h.falseToken

theorem Readable.placeholder (h : dialect.Readable) (n : Nat) :
    Plain (dialect.placeholder n).toList := by
  have hdigit : ∀ c ∈ Nat.toDigits 10 n, c.isDigit := fun c hc =>
    Nat.isDigit_of_mem_toDigits (by decide) (by decide) hc
  have hdigits : Plain (Nat.toDigits 10 n) :=
    ⟨fun hmem => absurd (hdigit _ hmem) (by decide), fun hmem => absurd (hdigit _ hmem) (by decide)⟩
  rw [toList_placeholder]
  exact h.placeholderMark.append hdigits

end Dialect

theorem Relation.plain_token (relation : Relation) : Plain (" " ++ relation.token ++ " ").toList := by
  cases relation <;> decide

open Placeholders

-- From here on, `final` is the table after all of the formula has been written.

variable {ps final : Placeholders} (hdialect : final.dialect.Readable) (hnumbered : final.Numbered)

namespace Expression

variable {e : Expression} (h : e.Readable final.qualifier final.dialect)
  (hgrows : Grows (e.toSql ps).2 final)

include hdialect h hgrows in
theorem plain_toSql : Plain (e.toSql ps).1.toList := by
  cases hcolumn : e.isColumnOf ps.qualifier with
  | false =>
    rw [toSql_foreign hcolumn] at hgrows ⊢
    exact Dialect.Readable.placeholder (hgrows.dialect ▸ hdialect) ps.counter
  | true =>
    obtain ⟨name, rfl, hname⟩ := isColumnOf_iff.mp hcolumn
    rw [toSql_column hname] at hgrows ⊢
    exact (h name rfl (hname.trans (congrArg _ hgrows.qualifier.symm))).1

include hnumbered h hgrows in
theorem readOperand_toSql : final.readOperand (e.toSql ps).1.toList = e := by
  cases hcolumn : e.isColumnOf ps.qualifier with
  | false =>
    rw [toSql_foreign hcolumn] at hgrows ⊢
    have hmem : ((ps.record e).1, e) ∈ (ps.record e).2.entries :=
      List.mem_append_right _ (List.mem_singleton_self _)
    exact readOperand_placeholder hnumbered (hgrows.entries.subset hmem)
  | true =>
    obtain ⟨name, rfl, hname⟩ := isColumnOf_iff.mp hcolumn
    rw [toSql_column hname] at hgrows ⊢
    have hsource := hname.trans (congrArg _ hgrows.qualifier.symm)
    exact readOperand_column hnumbered hsource (h name rfl hsource).2

end Expression

namespace Formula

/-- The text of a formula by its outermost parentheses. -/
def clause : Formula → Placeholders → Clause
  | .and left right, ps =>
    let l := left.written ps
    .binary l.1.toList " AND ".toList (right.written l.2).1.toList
  | .or left right, ps =>
    let l := left.written ps
    .binary l.1.toList " OR ".toList (right.written l.2).1.toList
  | .not inner, ps => .unary "NOT ".toList (inner.written ps).1.toList
  | .const b, ps => .plain (ps.dialect.boolToken b).toList
  | .predicate left relation right, ps =>
    let l := left.toSql ps
    .binary l.1.toList (" " ++ relation.token ++ " ").toList (right.toSql l.2).1.toList

theorem toList_written (f : Formula) (ps : Placeholders) :
    (f.written ps).1.toList = (f.clause ps).text := by
  cases f with
  | const b => rfl
  | _ => simp [written, clause, Clause.text, inParentheses]

variable {f : Formula} (h : f.Readable final.qualifier final.dialect)
  (hgrows : Grows (f.written ps).2 final)

include hdialect h hgrows in
theorem proper_clause : (f.clause ps).Proper := by
  induction f generalizing ps with
  | and left right ihl ihr | or left right ihl ihr =>
    obtain ⟨hl, hr⟩ := List.forall_mem_append.mp h
    have hright : Grows (right.written (left.written ps).2).2 final := hgrows
    have hleft := (right.grows_written _).trans hright
    refine ⟨?_, by decide, ?_⟩
    · rw [toList_written]
      exact (ihl hl hleft).closed
    · rw [toList_written]
      exact (ihr hr hright).closed
  | not inner ih =>
    refine ⟨by decide, ?_⟩
    rw [toList_written]
    exact (ih h hgrows).closed
  | const b => exact Dialect.Readable.boolToken (hgrows.dialect ▸ hdialect) b
  | predicate left relation right =>
    obtain ⟨hl, hrest⟩ := List.forall_mem_cons.mp h
    have hr := List.forall_mem_singleton.mp hrest
    have hright : Grows (right.toSql (left.toSql ps).2).2 final := hgrows
    have hleft := (right.grows_toSql _).trans hright
    exact ⟨(Expression.plain_toSql hdialect hl hleft).closed, relation.plain_token,
      (Expression.plain_toSql hdialect hr hright).closed⟩

include hdialect h hgrows in
theorem clause?_written : clause? (f.written ps).1.toList = some (f.clause ps) := by
  rw [toList_written]
  exact (proper_clause hdialect h hgrows).clause?_text

include hdialect hnumbered h hgrows in
theorem read_written : final.read (f.written ps).1.toList = some f := by
  induction f generalizing ps with
  | and left right ihl ihr =>
    obtain ⟨hl, hr⟩ := List.forall_mem_append.mp h
    have hright : Grows (right.written (left.written ps).2).2 final := hgrows
    have hleft := (right.grows_written _).trans hright
    rw [read_and (clause?_written hdialect h hgrows), ihl hl hleft, ihr hr hright]
    rfl
  | or left right ihl ihr =>
    obtain ⟨hl, hr⟩ := List.forall_mem_append.mp h
    have hright : Grows (right.written (left.written ps).2).2 final := hgrows
    have hleft := (right.grows_written _).trans hright
    rw [read_or (clause?_written hdialect h hgrows), ihl hl hleft, ihr hr hright]
    rfl
  | not inner ih =>
    rw [read_not (clause?_written hdialect h hgrows), ih h hgrows]
    rfl
  | const b =>
    have hb := readConstant_boolToken hdialect b
    rw [hgrows.dialect] at hb
    rw [read_plain (clause?_written hdialect h hgrows)]
    exact hb
  | predicate left relation right =>
    obtain ⟨hl, hrest⟩ := List.forall_mem_cons.mp h
    have hr := List.forall_mem_singleton.mp hrest
    have hright : Grows (right.toSql (left.toSql ps).2).2 final := hgrows
    have hleft := (right.grows_toSql _).trans hright
    rw [read_predicate (clause?_written hdialect h hgrows),
      Expression.readOperand_toSql hnumbered hl hleft, Expression.readOperand_toSql hnumbered hr hright]

end Formula

-- ---------------------------------------------------------------------------
-- Equal fragments
-- ---------------------------------------------------------------------------

namespace Placeholders

def normal (ps : Placeholders) : Placeholders :=
  { ps with entries := ps.entries.map (Prod.map id Expression.normal) }

theorem entries_beq_iff {first second : List (String × Expression)} : first == second ↔
    first.map (Prod.map id Expression.normal) = second.map (Prod.map id Expression.normal) := by
  induction first generalizing second with
  | nil => cases second <;> simp
  | cons entry rest ih =>
    cases second with
    | nil => simp
    | cons entry' rest' =>
      have hentry : entry == entry' ↔ entry.1 = entry'.1 ∧ entry.2.normal = entry'.2.normal := by
        change (entry.1 == entry'.1 && entry.2 == entry'.2) = true ↔ _
        rw [Bool.and_eq_true, beq_iff_eq, Expression.beq_iff]
      simp [List.cons_beq_cons, hentry, ih, Prod.ext_iff]

end Placeholders

theorem Expression.toSql_normal (e : Expression) (ps : Placeholders) :
    e.normal.toSql ps.normal = ((e.toSql ps).1, (e.toSql ps).2.normal) := by
  cases hcolumn : e.isColumnOf ps.qualifier with
  | false =>
    have hnormal : e.normal.isColumnOf ps.normal.qualifier = false := by cases e <;> exact hcolumn
    rw [toSql_foreign hcolumn, toSql_foreign hnormal]
    simp [record, fresh, Placeholders.normal]
  | true =>
    obtain ⟨name, rfl, hname⟩ := isColumnOf_iff.mp hcolumn
    rw [toSql_column hname]
    exact toSql_column hname

namespace Formula

variable {qualifier : String} {dialect : Dialect} {f g : Formula}

theorem written_normal (f : Formula) (ps : Placeholders) :
    f.normal.written ps.normal = ((f.written ps).1, (f.written ps).2.normal) := by
  induction f generalizing ps with
  | and left right ihl ihr | or left right ihl ihr => simp only [normal, written, ihl, ihr]
  | not inner ih => simp only [normal, written, ih]
  | const b => rfl
  | predicate left relation right => simp only [normal, written, Expression.toSql_normal]

theorem operands_normal (f : Formula) : f.normal.operands = f.operands.map Expression.normal := by
  induction f with
  | and left right ihl ihr | or left right ihl ihr =>
    simp only [normal, operands, ihl, ihr, List.map_append]
  | not inner ih => exact ih
  | const b => rfl
  | predicate left relation right => rfl

theorem Readable.normal (h : f.Readable qualifier dialect) : f.normal.Readable qualifier dialect := by
  intro e he name hname
  rw [operands_normal] at he
  obtain ⟨e', he', heq⟩ := List.mem_map.mp he
  exact h e' he' name (Expression.normal_eq_var.mp (heq.trans hname))

theorem read_start (hdialect : dialect.Readable) (h : f.Readable qualifier dialect) :
    (f.written (start qualifier dialect)).2.read (f.written (start qualifier dialect)).1.toList =
      some f := by
  have hgrows := f.grows_written (start qualifier dialect)
  refine read_written ?_ (hgrows.numbered (numbered_start qualifier dialect)) ?_ (.refl _)
  · rw [hgrows.dialect]
    exact hdialect
  · rw [hgrows.qualifier, hgrows.dialect]
    exact h

theorem written_injective (hdialect : dialect.Readable) (hf : f.Readable qualifier dialect)
    (hg : g.Readable qualifier dialect)
    (hsql : (f.written (start qualifier dialect)).1 = (g.written (start qualifier dialect)).1)
    (hentries : (f.written (start qualifier dialect)).2.entries =
      (g.written (start qualifier dialect)).2.entries) : f = g := by
  have htables := (f.grows_written _).eq_of_entries (g.grows_written _) hentries
  have hread := read_start hdialect hf
  rw [hsql, htables, read_start hdialect hg] at hread
  exact (Option.some.inj hread).symm

/-- Nothing is lost in SQL. The text and its placeholders can be read back, by
parentheses alone, and formulas with the same fragment are the same; with equal
entries, they are equal. -/
theorem pushDown_injective (hdialect : dialect.Readable) (hf : f.Readable qualifier dialect)
    (hg : g.Readable qualifier dialect) :
    ∃ first second : SqlFragment, f.pushDown qualifier dialect = .ok first ∧
      g.pushDown qualifier dialect = .ok second ∧
      first.readBack = some f ∧ second.readBack = some g ∧
      (first.sql = second.sql → first.placeholders.entries = second.placeholders.entries → f = g) ∧
      (first.sql = second.sql → first.placeholders.entries == second.placeholders.entries → f == g) := by
  refine ⟨_, _, f.pushDown_eq qualifier dialect, g.pushDown_eq qualifier dialect,
    read_start hdialect hf, read_start hdialect hg, written_injective hdialect hf hg, ?_⟩
  intro hsql hentries
  have hnormal := fun f : Formula => f.written_normal (start qualifier dialect)
  have hstart : (start qualifier dialect).normal = start qualifier dialect := rfl
  rw [hstart] at hnormal
  refine beq_iff.mpr (written_injective hdialect hf.normal hg.normal ?_ ?_)
  · rw [hnormal, hnormal]
    exact hsql
  · rw [hnormal, hnormal]
    exact entries_beq_iff.mp hentries

def orOfAnd : Formula :=
  .or (.and (.predicate (.var ⟨"t", "a"⟩) .equal (.const (.int 1))) (.const false)) (.const true)

def andOfOr : Formula :=
  .and (.predicate (.var ⟨"t", "a"⟩) .equal (.const (.int 1))) (.or (.const false) (.const true))

theorem pushDown_injective_on_nestings :
    ∃ first second, orOfAnd.pushDown "t" .standard = .ok first ∧
      andOfOr.pushDown "t" .standard = .ok second ∧
      first.readBack = some orOfAnd ∧ second.readBack = some andOfOr ∧
      first.placeholders.entries = second.placeholders.entries ∧ first.sql ≠ second.sql := by
  have hcolumn : (Expression.var ⟨"t", "a"⟩).Readable "t" .standard := by
    rintro name ⟨⟩ -
    exact ⟨by decide, Dialect.ne_placeholder (by decide)⟩
  have hconst : (Expression.const (.int 1)).Readable "t" .standard := fun _ h => by cases h
  have hreadable := List.forall_mem_cons.mpr ⟨hcolumn, List.forall_mem_singleton.mpr hconst⟩
  obtain ⟨first, second, hfirst, hsecond, hread, hread', hsame, -⟩ :=
    @pushDown_injective "t" .standard orOfAnd andOfOr Dialect.readable_standard hreadable hreadable
  have hentries : first.placeholders.entries = second.placeholders.entries := by
    rw [pushDown_eq] at hfirst hsecond
    cases hfirst
    cases hsecond
    rfl
  refine ⟨first, second, hfirst, hsecond, hread, hread', hentries, fun hsql => ?_⟩
  cases hsame hsql hentries

end Formula

end StreamQuery
