import Mathlib.Data.List.Nodup
import StreamQuery.Proofs.Pushdown.Writing

/-!
# Numbers of placeholders

The numbers of the placeholders in a table ascend (`Placeholders.Numbered`), so
no two of them are the same and every one leads back to the expression that it
was handed out for (`get?_of_mem`). Handing out more keeps the numbering
(`Numbered.meet`), and writing a formula also keeps the entries that are there
(`grows_written`).
-/

namespace StreamQuery

namespace Dialect

variable {dialect : Dialect}

theorem toList_placeholder (dialect : Dialect) (n : Nat) :
    (dialect.placeholder n).toList = dialect.placeholderMark.toList ++ Nat.toDigits 10 n := by
  rw [placeholder, String.toList_append, Nat.toString_eq_repr, Nat.toList_repr]

theorem placeholder_inj : dialect.placeholder n = dialect.placeholder k ↔ n = k := by
  constructor
  · intro h
    have htexts := congrArg String.toList h
    rw [toList_placeholder, toList_placeholder] at htexts
    have hdigits := List.append_cancel_left htexts
    rw [← @Nat.ofDigitChars_ten_toDigits n, hdigits, Nat.ofDigitChars_ten_toDigits]
  · rintro rfl
    rfl

theorem handOut_placeholders : (dialect.handOut number demands).map Prod.fst =
    (List.range' number demands.length).map dialect.placeholder := by
  rw [handOut, List.map_map, ← List.zipIdx_map_snd number demands, List.map_map]
  rfl

theorem nodup_handOut : ((dialect.handOut number demands).map Prod.fst).Nodup := by
  rw [handOut_placeholders]
  exact (List.nodup_range' _).map fun _ _ h => placeholder_inj.mp h

end Dialect

namespace Placeholders

variable {ps after between other : Placeholders}

def Numbered (ps : Placeholders) : Prop :=
  ∃ numbers : List Nat, ps.entries.map Prod.fst = numbers.map ps.dialect.placeholder ∧
    numbers.Pairwise (· < ·) ∧ ∀ n ∈ numbers, n < ps.counter

theorem numbered_start (qualifier : String) (dialect : Dialect) : (start qualifier dialect).Numbered :=
  ⟨[], rfl, .nil, fun _ h => absurd h List.not_mem_nil⟩

theorem Numbered.fresh (h : ps.Numbered) : ps.fresh.2.Numbered := by
  obtain ⟨numbers, hnumbers, hsorted, hlt⟩ := h
  exact ⟨numbers, hnumbers, hsorted, fun n hn => Nat.lt_succ_of_lt (hlt n hn)⟩

theorem Numbered.record (h : ps.Numbered) (e : Expression) : (ps.record e).2.Numbered := by
  obtain ⟨numbers, hnumbers, hsorted, hlt⟩ := h
  refine ⟨numbers ++ [ps.counter], ?_, ?_, ?_⟩
  · rw [List.map_append, ← show ps.dialect = (ps.record e).2.dialect from rfl, ← hnumbers]
    exact List.map_append
  · refine List.pairwise_append.mpr ⟨hsorted, List.pairwise_singleton _ _, fun n hn k hk => ?_⟩
    cases List.mem_singleton.mp hk
    exact hlt n hn
  · intro n hn
    have hcounter : (ps.record e).2.counter = ps.counter + 1 := rfl
    rcases List.mem_append.mp hn with hn | hn
    · have := hlt n hn
      omega
    · cases List.mem_singleton.mp hn
      omega

theorem Numbered.meet (h : ps.Numbered) (demands : List (Option Expression)) :
    (ps.meet demands).Numbered := by
  induction demands generalizing ps with
  | nil => rwa [meet_nil]
  | cons demand rest ih =>
    rw [← List.singleton_append, meet_append]
    apply ih
    cases demand with
    | none =>
      have hfresh := h.fresh
      rwa [ps.fresh_eq] at hfresh
    | some e => exact h.record e

theorem Numbered.nodup (h : ps.Numbered) : (ps.entries.map Prod.fst).Nodup := by
  obtain ⟨numbers, hnumbers, hsorted, -⟩ := h
  rw [hnumbers]
  refine List.pairwise_map.mpr (hsorted.imp fun hlt heq => ?_)
  exact absurd (Dialect.placeholder_inj.mp heq) (Nat.ne_of_lt hlt)

theorem Numbered.get?_of_mem (h : ps.Numbered) (hmem : (placeholder, e) ∈ ps.entries) :
    ps.get? placeholder = some e := by
  obtain ⟨first, rest, hsplit⟩ := List.append_of_mem hmem
  have hnodup := h.nodup
  rw [hsplit, List.map_append, List.map_cons, List.nodup_middle, List.nodup_cons] at hnodup
  have hfirst : ∀ entry ∈ first, (!entry.1 == placeholder) = true := by
    intro entry hentry
    have hin : entry.1 ∈ first.map Prod.fst := List.mem_map_of_mem hentry
    have hne : entry.1 ≠ placeholder := fun heq => hnodup.1 (List.mem_append_left _ (heq ▸ hin))
    simp [hne]
  have hfind : ps.entries.find? (fun entry => entry.1 == placeholder) = some (placeholder, e) :=
    List.find?_eq_some_iff_append.mpr ⟨beq_self_eq_true _, first, rest, hsplit, hfirst⟩
  rw [get?, hfind, Option.map_some]

theorem get?_eq_none (h : ∀ e, (text, e) ∉ ps.entries) : ps.get? text = none := by
  have hfind : ps.entries.find? (fun entry => entry.1 == text) = none := by
    refine List.find?_eq_none.mpr fun entry hentry heq => ?_
    cases beq_iff_eq.mp heq
    exact h entry.2 hentry
  rw [get?, hfind, Option.map_none]

theorem Numbered.get?_eq_none (h : ps.Numbered) (hne : ∀ n, text ≠ ps.dialect.placeholder n) :
    ps.get? text = none := by
  obtain ⟨numbers, hnumbers, -⟩ := h
  apply Placeholders.get?_eq_none
  intro e he
  have hmem : text ∈ numbers.map ps.dialect.placeholder := hnumbers ▸ List.mem_map_of_mem he
  obtain ⟨n, -, hn⟩ := List.mem_map.mp hmem
  exact hne n hn.symm

/-- More expressions have got a placeholder, each the next number. -/
structure Grows (ps after : Placeholders) : Prop where
  qualifier : after.qualifier = ps.qualifier
  dialect : after.dialect = ps.dialect
  entries : ps.entries <+: after.entries
  counter : after.counter + ps.entries.length = ps.counter + after.entries.length
  numbered : ps.Numbered → after.Numbered

theorem Grows.refl (ps : Placeholders) : Grows ps ps :=
  ⟨rfl, rfl, List.prefix_refl _, rfl, id⟩

theorem Grows.trans (h : Grows ps between) (h' : Grows between after) : Grows ps after where
  qualifier := h'.qualifier.trans h.qualifier
  dialect := h'.dialect.trans h.dialect
  entries := h.entries.trans h'.entries
  counter := by
    have hc := h.counter
    have hc' := h'.counter
    omega
  numbered hn := h'.numbered (h.numbered hn)

theorem Grows.eq_of_entries (h : Grows ps after) (h' : Grows ps other)
    (hentries : after.entries = other.entries) : after = other := by
  obtain ⟨entries, counter, qualifier, dialect⟩ := after
  obtain ⟨entries', counter', qualifier', dialect'⟩ := other
  obtain rfl : entries = entries' := hentries
  obtain rfl : qualifier = qualifier' := h.qualifier.trans h'.qualifier.symm
  obtain rfl : dialect = dialect' := h.dialect.trans h'.dialect.symm
  obtain rfl : counter = counter' := Nat.add_right_cancel (h.counter.trans h'.counter.symm)
  rfl

theorem grows_meet (ps : Placeholders) (expressions : List Expression) :
    Grows ps (ps.meet (expressions.map some)) where
  qualifier := rfl
  dialect := rfl
  entries := List.prefix_append _ _
  counter := by
    simp only [meet, recorded_handOut, List.length_append, List.length_map, List.length_zipIdx]
    omega
  numbered hn := hn.meet _

end Placeholders

open Placeholders

theorem Expression.grows_toSql (e : Expression) (ps : Placeholders) : Grows ps (e.toSql ps).2 := by
  rw [e.toSql_meets]
  exact grows_meet ps _

theorem Formula.grows_written (f : Formula) (ps : Placeholders) : Grows ps (f.written ps).2 := by
  rw [f.written_meets]
  exact grows_meet ps _

end StreamQuery
