import Mathlib.Data.List.Induction
import StreamQuery.Proofs.Aggregate.Cells
import StreamQuery.Proofs.Aggregate.History

/-!
# What an aggregate accepts over a run

A verdict on a value depends on three things: the kind of the value, the kind
of the very first value that was offered, for whichever group, and for exact
sums the total of the value's own group (`verdicts_fed`). The cells stay true
to the values taken for their groups through the whole run (`reflects_fed`),
so the later failures of the single functions, an order that does not exist or
a kind they do not know, never come up.
-/

namespace StreamQuery

namespace Accumulator

variable {f : AggregateFunction} {acc : Accumulator f} {key other : GroupKey} {v : Value}
  {additions more : List (GroupKey × Value)}

def verdicts (acc : Accumulator f) : List (GroupKey × Value) → List (Except Error Unit)
  | [] => []
  | addition :: rest =>
    (acc.add addition.1 addition.2).1 :: (acc.add addition.1 addition.2).2.verdicts rest

theorem getElem?_verdicts (i : Nat) : (acc.verdicts additions)[i]? =
    additions[i]?.map fun addition =>
      ((acc.feed (additions.take i)).add addition.1 addition.2).1 := by
  induction additions generalizing acc i with
  | nil => simp [verdicts]
  | cons addition rest ih =>
    cases i with
    | zero => rfl
    | succ i => simpa [verdicts, feed] using ih i

theorem taken_append : acc.taken (additions ++ more) =
    acc.taken additions ++ (acc.feed additions).taken more := by
  induction additions generalizing acc with
  | nil => rfl
  | cons addition rest ih =>
    obtain ⟨other, v⟩ := addition
    by_cases hok : (acc.add other v).1 = .ok ()
    · rw [List.cons_append, taken_of_ok hok, taken_of_ok hok, ih]
      rfl
    · rw [List.cons_append, taken_of_refused hok, taken_of_refused hok, ih]
      rfl

theorem takenFor_append : acc.takenFor key (additions ++ more) =
    acc.takenFor key additions ++ (acc.feed additions).takenFor key more := by
  rw [takenFor, taken_append, List.filter_append]
  rfl

theorem takenFor_ne_nil : acc.takenFor key additions ≠ [] ↔
    ∃ (i : Nat) (offered : GroupKey) (v : Value), additions[i]? = some (offered, v) ∧
      (acc.verdicts additions)[i]? = some (.ok ()) ∧ offered == key := by
  induction additions generalizing acc with
  | nil => simp [takenFor, taken]
  | cons addition rest ih =>
    obtain ⟨other, v⟩ := addition
    rw [← Nat.or_exists_add_one]
    simp only [List.getElem?_cons_zero, List.getElem?_cons_succ, verdicts, ← ih]
    by_cases hok : (acc.add other v).1 = .ok ()
    · by_cases heq : other == key
      · simp [takenFor_self hok heq, hok, heq]
      · simp [takenFor_other heq, heq]
    · simp [takenFor_refused hok, hok]

theorem cells_feed_of_refused (h : ∀ verdict ∈ acc.verdicts additions, verdict ≠ .ok ()) :
    (acc.feed additions).cells = acc.cells := by
  induction additions generalizing acc with
  | nil => rfl
  | cons addition rest ih =>
    obtain ⟨other, v⟩ := addition
    have hrest : ((acc.add other v).2.feed rest).cells = (acc.add other v).2.cells :=
      ih fun verdict hmem => h verdict (.tail _ hmem)
    exact hrest.trans (cells_add_of_refused (h _ (.head _)))

end Accumulator

namespace AggregateFunction

variable {f : AggregateFunction} {additions before rest : List (GroupKey × Value)}
  {key other : GroupKey} {v : Value} {kind : ValueKind}

def verdicts (f : AggregateFunction) (additions : List (GroupKey × Value)) :
    List (Except Error Unit) :=
  (Accumulator.start : Accumulator f).verdicts additions

def firstValue (additions : List (GroupKey × Value)) : Option Value := additions.head?.map Prod.snd

def firstKind (additions : List (GroupKey × Value)) : Option ValueKind :=
  additions.head?.map fun addition => addition.2.kind

theorem firstKind_eq (additions : List (GroupKey × Value)) :
    firstKind additions = (firstValue additions).map Value.kind := by
  rw [firstValue, Option.map_map]
  rfl

/-- The values that a fresh aggregate takes for a group among these additions. -/
def valuesFor (f : AggregateFunction) (additions : List (GroupKey × Value)) (key : GroupKey) :
    List Value :=
  (f.takenFor additions key).map Prod.snd

-- ---------------------------------------------------------------------------
-- The lock
-- ---------------------------------------------------------------------------

theorem first_feed (hf : ¬ f.acceptedKinds.isEmpty) (acc : Accumulator f) :
    (acc.feed before).lock.first = acc.lock.first.or (firstValue before) := by
  induction before generalizing acc with
  | nil => exact (Option.or_none).symm
  | cons addition rest ih =>
    have hnext : (acc.add addition.1 addition.2).2.lock.first =
        some (acc.lock.first.getD addition.2) := by
      rw [Accumulator.lock_add, Accumulator.inspect_of_locks hf, KindLock.first_offered]
    refine (ih (acc.add addition.1 addition.2).2).trans ?_
    rw [hnext]
    cases acc.lock.first <;> rfl

theorem kind_fed (hf : ¬ f.acceptedKinds.isEmpty) :
    (f.fed before).lock.kind = firstKind before := by
  rw [KindLock.kind, fed, first_feed hf, firstKind_eq]
  rfl

/-- The lock lets a value through if it is of an accepted kind, that of the
first value of the run. -/
theorem inspect_fed (hf : ¬ f.acceptedKinds.isEmpty) (key : GroupKey)
    (rest : List (GroupKey × Value)) : ((f.fed before).inspect v).1 = .ok () ↔
      v.kind ∈ f.acceptedKinds ∧ firstKind (before ++ (key, v) :: rest) = some v.kind := by
  rw [Accumulator.inspect_ok hf, kind_fed hf]
  cases before with
  | nil => simp [firstKind]
  | cons addition before => simp [firstKind]

-- ---------------------------------------------------------------------------
-- The cells
-- ---------------------------------------------------------------------------

theorem Reflects.of_takes_all {values : List Value} {cell : Option f.Cell}
    (hf : f.acceptedKinds.isEmpty) (h : f.Reflects kind values cell) (other : ValueKind) :
    f.Reflects other values cell := by
  cases f with
  | count => cases cell <;> exact h
  | _ => simp [acceptedKinds] at hf

theorem fed_append_singleton :
    f.fed (before ++ [(key, v)]) = ((f.fed before).add key v).2 :=
  Accumulator.feed_append before [(key, v)]

theorem valuesFor_append_of_taken (hok : ((f.fed before).add other v).1 = .ok ())
    (heq : other == key) :
    f.valuesFor (before ++ [(other, v)]) key = f.valuesFor before key ++ [v] := by
  have hlast : (f.fed before).takenFor key [(other, v)] = [(other, v)] :=
    Accumulator.takenFor_self hok heq []
  rw [valuesFor, takenFor, Accumulator.takenFor_append, List.map_append]
  exact congrArg (_ ++ List.map Prod.snd ·) hlast

theorem valuesFor_append_of_not_taken
    (h : ((f.fed before).add other v).1 ≠ .ok () ∨ ¬ other == key) :
    f.valuesFor (before ++ [(other, v)]) key = f.valuesFor before key := by
  have hlast : (f.fed before).takenFor key [(other, v)] = [] := by
    rcases h with hrefused | hne
    · exact Accumulator.takenFor_refused hrefused []
    · exact Accumulator.takenFor_other hne []
  rw [valuesFor, takenFor, Accumulator.takenFor_append, List.map_append]
  exact (congrArg (_ ++ List.map Prod.snd ·) hlast).trans (List.append_nil _)

/-- An addition to a run goes into the cell of a group, or leaves the cell as it is. -/
theorem fed_step (f : AggregateFunction) (before : List (GroupKey × Value)) (v : Value)
    (hother : other.Bounded) (hkey : key.Bounded) :
    (∃ next, ((f.fed before).inspect v).1 = .ok () ∧
        f.step ((f.fed before).cells.get? key) v = .ok next ∧
        (f.fed (before ++ [(other, v)])).cells.get? key = some next ∧
        f.valuesFor (before ++ [(other, v)]) key = f.valuesFor before key ++ [v]) ∨
      (f.fed (before ++ [(other, v)])).cells.get? key = (f.fed before).cells.get? key ∧
        f.valuesFor (before ++ [(other, v)]) key = f.valuesFor before key := by
  rw [fed_append_singleton]
  by_cases hok : ((f.fed before).add other v).1 = .ok ()
  · obtain ⟨cell, hc⟩ := Accumulator.verdict_add.mp hok
    obtain ⟨hinspect, hstep⟩ := Accumulator.advance_ok.mp hc
    rw [Accumulator.cells_add_of_ok hc, GroupTable.get?_set]
    by_cases heq : other == key
    · have hcanonical := GroupKey.canonical_eq_of_beq heq
      rw [GroupTable.get?_congr hcanonical] at hstep
      rw [if_pos hcanonical]
      exact .inl ⟨cell, hinspect, hstep, rfl, valuesFor_append_of_taken hok heq⟩
    · have hne : other.canonical ≠ key.canonical :=
        fun hc => heq ((GroupKey.canonical_eq_iff hother hkey).mp hc)
      rw [if_neg hne]
      exact .inr ⟨rfl, valuesFor_append_of_not_taken (.inr heq)⟩
  · rw [Accumulator.cells_add_of_refused hok]
    exact .inr ⟨rfl, valuesFor_append_of_not_taken (.inl hok)⟩

theorem reflects_add (h : f.Reflects kind (f.valuesFor before key) ((f.fed before).cells.get? key))
    (hkind : firstKind (before ++ [(other, v)]) = some kind) (hother : other.Bounded)
    (hkey : key.Bounded) : f.Reflects kind (f.valuesFor (before ++ [(other, v)]) key)
      ((f.fed (before ++ [(other, v)])).cells.get? key) := by
  rcases fed_step f before v hother hkey with ⟨next, hinspect, hstep, hcell, hvalues⟩ |
    ⟨hcell, hvalues⟩
  · rw [hcell, hvalues]
    by_cases hf : f.acceptedKinds.isEmpty
    · exact ((h.of_takes_all hf v.kind).step hstep).of_takes_all hf kind
    · have hv : firstKind (before ++ [(other, v)]) = some v.kind :=
        ((inspect_fed hf _ []).mp hinspect).2
      rw [hkind, Option.some.injEq] at hv
      subst hv
      exact h.step hstep
  · rw [hcell, hvalues]
    exact h

/-- At any time of a run the cell of a group stands to the values taken for the
group as it should, all of which have the kind of the first value of the run. -/
theorem reflects_fed (hkind : ∀ first, firstKind before = some first → first = kind)
    (hb : ∀ addition ∈ before, addition.1.Bounded) (hkey : key.Bounded) :
    f.Reflects kind (f.valuesFor before key) ((f.fed before).cells.get? key) := by
  induction before using List.reverseRecOn with
  | nil =>
    rw [GroupTable.get?_of_isEmpty rfl]
    rfl
  | append_singleton before addition ih =>
    have hfirst : firstKind (before ++ [addition]) = some kind := by
      cases before <;> exact congrArg some (hkind _ rfl)
    have hbefore : ∀ first, firstKind before = some first → first = kind := by
      intro first h
      cases before with
      | nil => cases h
      | cons addition before => exact hkind first h
    exact reflects_add (ih hbefore fun addition hmem => hb addition (List.mem_append_left _ hmem))
      hfirst (hb addition (by simp)) hkey

theorem reflects_before (hfirst : firstKind (before ++ (other, v) :: rest) = some kind)
    (hb : ∀ addition ∈ before, addition.1.Bounded) (hkey : key.Bounded) :
    f.Reflects kind (f.valuesFor before key) ((f.fed before).cells.get? key) := by
  refine reflects_fed (fun first h => ?_) hb hkey
  cases before with
  | nil => cases h
  | cons addition before => exact Option.some.inj (h.symm.trans hfirst)

-- ---------------------------------------------------------------------------
-- Verdicts
-- ---------------------------------------------------------------------------

theorem exists_step_of_takes_all (hf : f.acceptedKinds.isEmpty) (cell : Option f.Cell) (v : Value) :
    ∃ next, f.step cell v = .ok next := by
  cases f with
  | count => exact ⟨_, rfl⟩
  | _ => simp [acceptedKinds] at hf

theorem add_fed_ok (hb : ∀ addition ∈ before, addition.1.Bounded) (hkey : key.Bounded)
    (rest : List (GroupKey × Value)) :
    ((f.fed before).add key v).1 = .ok () ↔ f.acceptedKinds = [] ∨
      (v.kind ∈ f.acceptedKinds ∧ firstKind (before ++ (key, v) :: rest) = some v.kind ∧
        f.Affords v.kind (Value.amounts (f.valuesFor before key) + v.amount)) := by
  rw [Accumulator.verdict_add]
  simp only [Accumulator.advance_ok, exists_and_left]
  by_cases hf : f.acceptedKinds.isEmpty
  · simp [Accumulator.inspect_of_takes_all hf, exists_step_of_takes_all hf,
      List.isEmpty_iff.mp hf]
  · have hnil : f.acceptedKinds ≠ [] := fun h => hf (List.isEmpty_iff.mpr h)
    rw [inspect_fed hf key rest, and_assoc]
    simp only [hnil, false_or]
    exact and_congr_right fun hv => and_congr_right fun hfirst =>
      step_ok hv (reflects_before hfirst hb hkey)

theorem take_append_cons_drop {i : Nat} (hi : additions[i]? = some (key, v)) :
    additions.take i ++ (key, v) :: additions.drop (i + 1) = additions := by
  obtain ⟨hlt, heq⟩ := List.getElem?_eq_some_iff.mp hi
  rw [← heq, ← List.drop_eq_getElem_cons hlt, List.take_append_drop]

theorem getElem?_verdicts_fed {i : Nat} (hi : additions[i]? = some (key, v)) :
    (f.verdicts additions)[i]? = some ((f.fed (additions.take i)).add key v).1 := by
  rw [verdicts, Accumulator.getElem?_verdicts, hi]
  rfl

theorem verdicts_ok {i : Nat} (hb : ∀ addition ∈ additions, addition.1.Bounded)
    (hi : additions[i]? = some (key, v)) :
    (f.verdicts additions)[i]? = some (.ok ()) ↔ f.acceptedKinds = [] ∨
      (v.kind ∈ f.acceptedKinds ∧ firstKind additions = some v.kind ∧
        f.Affords v.kind (Value.amounts (f.valuesFor (additions.take i) key) + v.amount)) := by
  have hkey : key.Bounded := hb (key, v) (List.mem_of_getElem? hi)
  have hbefore : ∀ addition ∈ additions.take i, addition.1.Bounded :=
    fun addition hmem => hb addition (List.mem_of_mem_take hmem)
  have h := add_fed_ok (f := f) (v := v) hbefore hkey (additions.drop (i + 1))
  rw [take_append_cons_drop hi] at h
  rw [← h, getElem?_verdicts_fed hi, Option.some.injEq]

/-- A first value of a kind that is not accepted spoils the aggregate for good. -/
theorem verdicts_of_first_refused (hb : ∀ addition ∈ additions, addition.1.Bounded)
    (hkind : firstKind additions = some kind) (hf : f.acceptedKinds ≠ [])
    (hrefused : kind ∉ f.acceptedKinds) : ∀ verdict ∈ f.verdicts additions, verdict ≠ .ok () := by
  rintro verdict hmem rfl
  obtain ⟨i, hi⟩ := List.mem_iff_getElem?.mp hmem
  have hadded := hi
  rw [verdicts, Accumulator.getElem?_verdicts, Option.map_eq_some_iff] at hadded
  obtain ⟨⟨key, v⟩, hadded, -⟩ := hadded
  rcases (verdicts_ok hb hadded).mp hi with h | ⟨hv, hfirst, -⟩
  · exact hf h
  · rw [hkind, Option.some.injEq] at hfirst
    exact hrefused (hfirst ▸ hv)

theorem exists_get_fed (hb : ∀ addition ∈ additions, addition.1.Bounded) (hkey : key.Bounded) :
    (∃ w, (f.fed additions).get key = .ok w) ↔ f.takenFor additions key ≠ [] := by
  have hkind : ∀ first, firstKind additions = some first →
      first = (firstKind additions).getD .null := fun first h => by rw [h, Option.getD_some]
  have hsome := (reflects_fed (f := f) hkind hb hkey).isSome
  rw [valuesFor, ne_eq, List.map_eq_nil_iff] at hsome
  rw [ne_eq, ← hsome, Option.isSome_iff_exists]
  simp only [Accumulator.get_ok]
  exact ⟨fun ⟨_, cell, hc, _⟩ => ⟨cell, hc⟩, fun ⟨cell, hc⟩ => ⟨_, cell, hc, rfl⟩⟩

/-- A call succeeds if the function takes every kind, or if the value is of an
accepted kind, that of the first value ever offered, and the group's new total
fits, where it has to be exact. So if the first value is of a kind that is not
accepted every call fails, and no group ever exists. A group has a value just
if one of the calls for it succeeded.

Premise: the lengths in the keys fit eight bytes. -/
theorem verdicts_fed (f : AggregateFunction) (additions : List (GroupKey × Value))
    (hb : ∀ addition ∈ additions, addition.1.Bounded) :
    (∀ (i : Nat) (key : GroupKey) (v : Value), additions[i]? = some (key, v) →
      ((f.verdicts additions)[i]? = some (.ok ()) ↔ f.acceptedKinds = [] ∨
        (v.kind ∈ f.acceptedKinds ∧ firstKind additions = some v.kind ∧
          f.Affords v.kind (Value.amounts (f.valuesFor (additions.take i) key) + v.amount)))) ∧
    (∀ kind, firstKind additions = some kind → f.acceptedKinds ≠ [] → kind ∉ f.acceptedKinds →
      (∀ verdict ∈ f.verdicts additions, verdict ≠ .ok ()) ∧ (f.fed additions).cells.isEmpty) ∧
    (∀ key : GroupKey, key.Bounded → ((∃ w, (f.fed additions).get key = .ok w) ↔
      ∃ (i : Nat) (offered : GroupKey) (v : Value), additions[i]? = some (offered, v) ∧
        (f.verdicts additions)[i]? = some (.ok ()) ∧ offered == key)) := by
  refine ⟨fun i key v hi => verdicts_ok hb hi, fun kind hkind hf hrefused => ?_,
    fun key hkey => (exists_get_fed hb hkey).trans Accumulator.takenFor_ne_nil⟩
  have hall := verdicts_of_first_refused hb hkind hf hrefused
  refine ⟨hall, ?_⟩
  rw [fed, Accumulator.cells_feed_of_refused hall]
  rfl

def overflowing : List (GroupKey × Value) :=
  [(⟨[.int 1]⟩, .int Int64.maxValue), (⟨[.int 1]⟩, .int 1)]

/-- The first value is taken and gives the group a total. The second one would
take the total out of range. -/
theorem verdicts_fed_overflowing :
    (∀ addition ∈ overflowing, addition.1.Bounded) ∧
    (sum.verdicts overflowing)[0]? = some (.ok ()) ∧
    (sum.verdicts overflowing)[1]? ≠ some (.ok ()) ∧
    ∃ w, (sum.fed overflowing).get ⟨[.int 1]⟩ = .ok w := by
  have hkeys : ∀ addition ∈ overflowing, addition.1.Bounded := by decide
  obtain ⟨hverdicts, -, hget⟩ := verdicts_fed sum overflowing hkeys
  have hfirst : (sum.verdicts overflowing)[0]? = some (.ok ()) :=
    (hverdicts 0 _ _ rfl).mpr (.inr ⟨by decide, rfl, by decide, by decide⟩)
  have hadded : ((sum.fed []).add ⟨[.int 1]⟩ (.int Int64.maxValue)).1 = .ok () :=
    Option.some.inj hfirst
  have hvalues : sum.valuesFor (overflowing.take 1) ⟨[.int 1]⟩ = [.int Int64.maxValue] :=
    valuesFor_append_of_taken hadded BEq.rfl
  refine ⟨hkeys, hfirst, fun hsecond => ?_,
    (hget _ (by decide)).mpr ⟨0, _, _, rfl, hfirst, by decide⟩⟩
  rcases (hverdicts 1 _ _ rfl).mp hsecond with h | ⟨-, -, h⟩
  · cases h
  · rw [hvalues] at h
    exact absurd h.2 (by decide)

end AggregateFunction

end StreamQuery
