import StreamQuery.Proofs.Aggregate.Isolation
import StreamQuery.Proofs.Value.Encoding

/-!
# What the history of an aggregate leaves in a group

Of everything that an aggregate was ever offered, a group's value shows only
what was taken for the group itself: a fresh aggregate that is offered no more
than that reports the same (`get_fed`). The history of the whole and the part
of it that counts run side by side, and after every addition the fresh
aggregate still mirrors the one that serves all groups (`Mirrors.feed`).
-/

namespace StreamQuery

namespace Accumulator

variable {f : AggregateFunction} {acc whole part : Accumulator f} {key other : GroupKey} {v : Value}

theorem Mirrors.refl (acc : Accumulator f) (key : GroupKey) : Mirrors acc acc key :=
  ⟨rfl, fun _ h => h⟩

theorem Mirrors.add_of_refused (h : Mirrors whole part key) (hv : (whole.add other v).1 ≠ .ok ()) :
    Mirrors (whole.add other v).2 part key := by
  cases hc : whole.advance other v with
  | error e => exact h.add_of_error hc
  | ok cell => exact absurd (verdict_add.mpr ⟨cell, hc⟩) hv

/-- A refused value changes no report, although it may close the lock. -/
theorem get_add_of_refused (h : (acc.add other v).1 ≠ .ok ()) :
    (acc.add other v).2.get key = acc.get key :=
  ((Mirrors.refl acc key).add_of_refused h).get_eq

theorem get_add_of_other (hne : other.canonical ≠ key.canonical) :
    (acc.add other v).2.get key = acc.get key :=
  ((Mirrors.refl acc key).add_of_ne hne).get_eq

-- ---------------------------------------------------------------------------
-- Histories
-- ---------------------------------------------------------------------------

def taken (acc : Accumulator f) : List (GroupKey × Value) → List (GroupKey × Value)
  | [] => []
  | addition :: rest =>
    match acc.add addition.1 addition.2 with
    | (.ok (), after) => addition :: after.taken rest
    | (.error _, after) => after.taken rest

def takenFor (acc : Accumulator f) (key : GroupKey) (additions : List (GroupKey × Value)) :
    List (GroupKey × Value) :=
  (acc.taken additions).filter fun addition => addition.1 == key

theorem taken_of_ok (h : (acc.add key v).1 = .ok ()) (rest : List (GroupKey × Value)) :
    acc.taken ((key, v) :: rest) = (key, v) :: (acc.add key v).2.taken rest := by
  rw [taken]
  split
  · rename_i heq
    rw [heq]
  · rename_i heq
    rw [heq] at h
    cases h

theorem taken_of_refused (h : (acc.add key v).1 ≠ .ok ()) (rest : List (GroupKey × Value)) :
    acc.taken ((key, v) :: rest) = (acc.add key v).2.taken rest := by
  rw [taken]
  split
  · rename_i heq
    rw [heq] at h
    exact absurd rfl h
  · rename_i heq
    rw [heq]

theorem takenFor_self (h : (acc.add other v).1 = .ok ()) (heq : other == key)
    (rest : List (GroupKey × Value)) :
    acc.takenFor key ((other, v) :: rest) = (other, v) :: (acc.add other v).2.takenFor key rest := by
  rw [takenFor, taken_of_ok h]
  exact List.filter_cons_of_pos heq

theorem takenFor_other (h : ¬ other == key) (rest : List (GroupKey × Value)) :
    acc.takenFor key ((other, v) :: rest) = (acc.add other v).2.takenFor key rest := by
  by_cases hok : (acc.add other v).1 = .ok ()
  · rw [takenFor, taken_of_ok hok]
    exact List.filter_cons_of_neg h
  · rw [takenFor, taken_of_refused hok]
    rfl

theorem takenFor_refused (h : (acc.add other v).1 ≠ .ok ()) (rest : List (GroupKey × Value)) :
    acc.takenFor key ((other, v) :: rest) = (acc.add other v).2.takenFor key rest := by
  rw [takenFor, taken_of_refused h]
  rfl

/-- What is taken for a group would be taken by an aggregate that mirrors the
whole for this group, and leaves it mirroring the whole. -/
theorem Mirrors.feed (h : Mirrors whole part key) (hkey : key.Bounded)
    {additions : List (GroupKey × Value)} (hb : ∀ addition ∈ additions, addition.1.Bounded) :
    part.takenFor key (whole.takenFor key additions) = whole.takenFor key additions ∧
      Mirrors (whole.feed additions) (part.feed (whole.takenFor key additions)) key := by
  induction additions generalizing whole part with
  | nil => exact ⟨rfl, h⟩
  | cons addition rest ih =>
    obtain ⟨other, v⟩ := addition
    have hother : other.Bounded := hb (other, v) List.mem_cons_self
    have hrest : ∀ addition ∈ rest, addition.1.Bounded :=
      fun addition hmem => hb addition (List.mem_cons_of_mem _ hmem)
    by_cases heq : other == key
    · by_cases hok : (whole.add other v).1 = .ok ()
      · have hcanonical := GroupKey.canonical_eq_of_beq heq
        obtain ⟨hpart, hnext⟩ := h.add hcanonical hcanonical hok
        obtain ⟨htaken, hfed⟩ := ih hnext hrest
        rw [takenFor_self hok heq, takenFor_self hpart heq, htaken]
        exact ⟨rfl, hfed⟩
      · rw [takenFor_refused hok]
        exact ih (h.add_of_refused hok) hrest
    · have hne : other.canonical ≠ key.canonical :=
        fun hc => heq ((GroupKey.canonical_eq_iff hother hkey).mp hc)
      rw [takenFor_other heq]
      exact ih (h.add_of_ne hne) hrest

end Accumulator

-- ---------------------------------------------------------------------------
-- Reports
-- ---------------------------------------------------------------------------

namespace AggregateFunction

def fed (f : AggregateFunction) (additions : List (GroupKey × Value)) : Accumulator f :=
  Accumulator.start.feed additions

def takenFor (f : AggregateFunction) (additions : List (GroupKey × Value)) (key : GroupKey) :
    List (GroupKey × Value) :=
  (Accumulator.start : Accumulator f).takenFor key additions

/-- Whatever an aggregate was offered, for whichever groups, it reports of a
group what a fresh one reports that was offered only the values taken for this
group, in the same order, all of which it takes as well. So a refused value
changes the report of no group, and a value for one group changes that of no
other.

Premise: the lengths in the keys fit eight bytes. -/
theorem get_fed (f : AggregateFunction) (additions : List (GroupKey × Value)) (key : GroupKey)
    (hb : ∀ addition ∈ additions, addition.1.Bounded) (hkey : key.Bounded) :
    (f.fed additions).get key = (f.fed (f.takenFor additions key)).get key ∧
      f.takenFor (f.takenFor additions key) key = f.takenFor additions key ∧
      ∀ (other : GroupKey) (v : Value), other.Bounded →
        ((f.fed additions).add other v).1 ≠ .ok () ∨ ¬ other == key →
          ((f.fed additions).add other v).2.get key = (f.fed additions).get key := by
  obtain ⟨htaken, hfed⟩ := (Accumulator.Mirrors.start (f := f) key).feed hkey hb
  refine ⟨hfed.get_eq, htaken, fun other v hother hcase => ?_⟩
  rcases hcase with hrefused | hne
  · exact Accumulator.get_add_of_refused hrefused
  · exact Accumulator.get_add_of_other fun hc =>
      hne ((GroupKey.canonical_eq_iff hother hkey).mp hc)

/-- Additions to two groups, of which the sum refuses one that overflows and
one of another kind. -/
def refusals : List (GroupKey × Value) :=
  [(⟨[.int 1]⟩, .int Int64.maxValue), (⟨[.int 1]⟩, .int 1), (⟨[.int 2]⟩, .int 5),
    (⟨[.int 1]⟩, .string "x"), (⟨[.int 1]⟩, .int (-7))]

theorem get_fed_refusals :
    (∀ addition ∈ refusals, addition.1.Bounded) ∧ (⟨[.int 1]⟩ : GroupKey).Bounded ∧
    (sum.fed refusals).get ⟨[.int 1]⟩ = (sum.fed (sum.takenFor refusals ⟨[.int 1]⟩)).get ⟨[.int 1]⟩ ∧
    ((sum.fed refusals).add ⟨[.int 2]⟩ (.int 3)).2.get ⟨[.int 1]⟩ =
      (sum.fed refusals).get ⟨[.int 1]⟩ := by
  have hkey : (⟨[.int 1]⟩ : GroupKey).Bounded := by decide
  have hkeys : ∀ addition ∈ refusals, addition.1.Bounded := by decide
  obtain ⟨hget, -, hother⟩ := get_fed sum refusals ⟨[.int 1]⟩ hkeys hkey
  exact ⟨hkeys, hkey, hget, hother ⟨[.int 2]⟩ (.int 3) (by decide) (.inr (by decide))⟩

end AggregateFunction

end StreamQuery
