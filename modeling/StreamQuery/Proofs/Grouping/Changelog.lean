import Mathlib.Data.List.Forall2
import StreamQuery.Operator.Group
import StreamQuery.Proofs.Value.Equality

/-!
# Logs of changes

A reader of a stream with retractions keeps the rows that were not taken back:
the live rows (`liveAfter`). Rows are a change log of groups (`Changelog`) if
such a reader never holds two rows of one group and every retraction takes back
the row it holds, to make room for the next one.
-/

namespace StreamQuery

def liveStep (live : List Record) (row : Record) : List Record :=
  if row.isRetraction then live.eraseP row.sameRow else live ++ [row]

def liveAfter (live rows : List Record) : List Record := rows.foldl liveStep live

/-- The same rows, in any order and up to equality. -/
def SameRows (rows others : List Record) : Prop :=
  ∃ sorted, rows.Perm sorted ∧ List.Forall₂ (fun row other => row == other) sorted others

theorem liveAfter_append : liveAfter live (rows ++ more) = liveAfter (liveAfter live rows) more :=
  List.foldl_append

theorem liveAfter_insertion {current : Record} (h : current.isRetraction = false) :
    liveAfter live [current] = live ++ [current] := by
  simp [liveAfter, liveStep, h]

namespace Grouping

def groupOf (g : Grouping) (row : Record) : GroupKey := ⟨row.values.take g.key.length⟩

def OnePerGroup (g : Grouping) (live : List Record) : Prop :=
  live.Pairwise fun row other => ¬ g.groupOf row == g.groupOf other

/-- The retraction takes back the one live row of its group, and the rows after
it begin with the group's new row, a different one. -/
structure Replaces (g : Grouping) (live : List Record) (retraction : Record)
    (after : List Record) : Prop where
  standing : ∃ row, live.filter (fun row => g.groupOf row == g.groupOf retraction) = [row] ∧
    retraction.sameRow row
  successor : ∃ current rest, after = current :: rest ∧ current.isRetraction = false ∧
    g.groupOf current == g.groupOf retraction ∧ ¬ current.sameRow retraction

/-- What holds at every prefix of the rows of a change log, if the rows in
`live` are live at its beginning. -/
structure Changelog (g : Grouping) (live rows : List Record) : Prop where
  single : ∀ before after, rows = before ++ after → g.OnePerGroup (liveAfter live before)
  replaces : ∀ before row after, rows = before ++ row :: after → row.isRetraction →
    g.Replaces (liveAfter live before) row after

variable {g : Grouping} {live rows others : List Record} {row other : Record} {key : GroupKey}

theorem groupOf_beq_of_sameRow (h : row.sameRow other) : g.groupOf row == g.groupOf other := by
  rw [GroupKey.beq_iff, groupOf, groupOf, List.map_take, List.map_take, (Record.sameRow_iff.mp h).2]

-- ---------------------------------------------------------------------------
-- One row among the live ones
-- ---------------------------------------------------------------------------

theorem filter_eq_singleton (hp : live.Perm (row :: others)) (hrow : g.groupOf row == key)
    (hne : ∀ other ∈ others, ¬ g.groupOf other == key) :
    live.filter (fun row => g.groupOf row == key) = [row] := by
  have h := hp.filter fun row => g.groupOf row == key
  rw [List.filter_cons, if_pos hrow, List.filter_eq_nil_iff.mpr hne] at h
  exact List.perm_singleton.mp h

theorem OnePerGroup.eraseP_perm (h : g.OnePerGroup live) (hp : live.Perm (row :: others))
    (hrow : other.sameRow row) : (live.eraseP other.sameRow).Perm others := by
  have hdistinct : live.Pairwise fun a b => other.sameRow a → other.sameRow b → False :=
    h.imp fun hne ha hb => hne (BEq.trans (BEq.symm (groupOf_beq_of_sameRow ha))
      (groupOf_beq_of_sameRow hb))
  have herase := List.Perm.eraseP other.sameRow hdistinct hp
  rwa [List.eraseP_cons_of_pos hrow] at herase

-- ---------------------------------------------------------------------------
-- Longer logs
-- ---------------------------------------------------------------------------

namespace Changelog

theorem nil (h : g.OnePerGroup live) : g.Changelog live [] where
  single before after hrows := by
    obtain ⟨rfl, -⟩ := List.append_eq_nil_iff.mp hrows.symm
    exact h
  replaces before row after hrows := by simp at hrows

theorem cons (h : g.OnePerGroup live) (hr : row.isRetraction → g.Replaces live row rows)
    (hrows : g.Changelog (liveAfter live [row]) rows) : g.Changelog live (row :: rows) where
  single before after heq := by
    cases before with
    | nil => exact h
    | cons first before =>
      obtain ⟨rfl, rfl⟩ := List.cons_eq_cons.mp heq
      exact hrows.single before after rfl
  replaces before other after heq := by
    cases before with
    | nil =>
      obtain ⟨rfl, rfl⟩ := List.cons_eq_cons.mp heq
      exact hr
    | cons first before =>
      obtain ⟨rfl, rfl⟩ := List.cons_eq_cons.mp heq
      exact hrows.replaces before other after rfl

end Changelog

end Grouping

end StreamQuery
