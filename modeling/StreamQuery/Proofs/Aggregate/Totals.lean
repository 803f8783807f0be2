import StreamQuery.Proofs.Aggregate.Acceptance

/-!
# Exact totals

A sum of integers or durations is the exact sum of the values taken for its
group (`sum_is_exact`). A value of the right kind is refused only where the new
total has no form of its kind, and then nothing has happened: the aggregate is
the very one that it was before (`add_of_overflow`), so that whatever fits is
taken later on. Which values are taken is a matter of arithmetic on the values
of the group alone (`valuesFor_eq_kept`).
-/

namespace StreamQuery

def FitsInt64 (n : Int) : Prop := Int64.minValue.toInt ≤ n ∧ n ≤ Int64.maxValue.toInt

instance (n : Int) : Decidable (FitsInt64 n) := inferInstanceAs (Decidable (_ ∧ _))

/-- There is a value of the kind that counts for this much: an integer of 64 bits,
or a duration whose whole seconds, counted toward zero, fit 64 bits. -/
def ValueKind.Represents (kind : ValueKind) (total : Int) : Prop :=
  kind = .int ∧ FitsInt64 total ∨ kind = .duration ∧ FitsInt64 (total.tdiv nanosPerSecond)

instance (kind : ValueKind) (total : Int) : Decidable (kind.Represents total) :=
  inferInstanceAs (Decidable (_ ∨ _))

def ValueKind.IsExact (kind : ValueKind) : Prop := kind = .int ∨ kind = .duration

/-- What is left of a second does not count toward the range, on either side of zero. -/
theorem fitsSeconds_iff {nanos : Int} :
    FitsSeconds nanos ↔ FitsInt64 (nanos.tdiv nanosPerSecond) := by
  have hmin : Int64.minValue.toInt = -9223372036854775808 := by decide
  have hmax : Int64.maxValue.toInt = 9223372036854775807 := by decide
  have hsign : ((1000000000 : Nat) : Int).sign = 1 := by decide
  simp only [FitsSeconds, FitsInt64, nanosPerSecond, hmin, hmax, Int.tdiv_eq_ediv, hsign]
  omega

theorem affords_iff_represents {kind : ValueKind} (h : kind.IsExact) {total : Int} :
    AggregateFunction.sum.Affords kind total ↔ kind.Represents total := by
  rcases h with rfl | rfl
  · simp [ValueKind.Represents, AggregateFunction.Affords, FitsInt64]
  · simp [ValueKind.Represents, AggregateFunction.Affords, fitsSeconds_iff]

namespace Value

theorem eq_of_amount {a b : Value} (h : a.kind.IsExact) (hkind : a.kind = b.kind)
    (hamount : a.amount = b.amount) : a = b := by
  cases a with
  | int m =>
    cases b with
    | int n => exact congrArg int (Int64.toInt_inj.mp hamount)
    | _ => cases hkind
  | duration d =>
    cases b with
    | duration e =>
      cases d
      cases e
      cases hamount
      rfl
    | _ => cases hkind
  | _ => rcases h with h | h <;> cases h

theorem exists_render_of_exact {v : Value} (h : v.kind.IsExact) : ∃ text, v.render = some text := by
  cases v with
  | int n => exact ⟨_, rfl⟩
  | duration d => exact ⟨_, rfl⟩
  | _ => rcases h with h | h <;> cases h

end Value

/-- Numbers and durations have a text, so that an overflow can always be told. -/
theorem Total.overflow_eq {old v : Value} (hold : old.kind.IsExact) (hv : v.kind.IsExact) :
    ∃ total text, old.render = some total ∧ v.render = some text ∧
      overflow old v = .invalidArgument (some s!"sum overflow adding {text} to {total}") := by
  obtain ⟨total, htotal⟩ := Value.exists_render_of_exact hold
  obtain ⟨text, htext⟩ := Value.exists_render_of_exact hv
  refine ⟨total, text, htotal, htext, ?_⟩
  rw [overflow, htotal, htext]
  rfl

theorem Total.add_of_overflow {old v : Value} (hexact : v.kind.IsExact) (hkind : old.kind = v.kind)
    (h : ¬ AggregateFunction.sum.Affords v.kind (old.amount + v.amount)) :
    add old v = .error (overflow old v) := by
  have haccepted : v.kind ∈ AggregateFunction.sum.acceptedKinds := by
    rcases hexact with h | h <;> simp [h, AggregateFunction.acceptedKinds]
  rw [← add_ok hkind haccepted] at h
  cases old with
  | int m =>
    cases v with
    | int n =>
      cases ht : addInt64? m n with
      | none => simp [add, ht]
      | some t => exact absurd ⟨.int t, by simp [add, ht]⟩ h
    | _ => cases hkind
  | duration d =>
    cases v with
    | duration e =>
      cases ht : d.add? e with
      | none => simp [add, ht]
      | some t => exact absurd ⟨.duration t, by simp [add, ht]⟩ h
    | _ => cases hkind
  | _ => rw [← hkind] at hexact; rcases hexact with h | h <;> cases h

namespace Accumulator

variable {f : AggregateFunction} {acc : Accumulator f} {key : GroupKey} {v : Value}

theorem isSome_first_of_cell (hf : ¬ f.acceptedKinds.isEmpty)
    (h : acc.cells.get? key = some cell) : acc.lock.first.isSome := by
  rcases acc.locked with hempty | hall | hlocked
  · rw [GroupTable.get?_of_isEmpty hempty] at h
    cases h
  · exact absurd hall hf
  · exact hlocked

theorem add_of_error (hlocked : acc.lock.first.isSome) (h : acc.advance key v = .error e) :
    acc.add key v = (.error e, acc) := by
  have hlock : (acc.inspect v).2 = acc.lock := by
    obtain ⟨first, hfirst⟩ := Option.isSome_iff_exists.mp hlocked
    unfold inspect
    split
    · rfl
    · simp [KindLock.offer, KindLock.offered, hfirst]
  simp [add, h, hlock]

end Accumulator

namespace AggregateFunction

variable {additions before rest : List (GroupKey × Value)} {key other : GroupKey} {v w : Value}
  {kind : ValueKind}

theorem mem_acceptedKinds_of_exact (h : kind.IsExact) : kind ∈ sum.acceptedKinds := by
  rcases h with rfl | rfl <;> decide

-- ---------------------------------------------------------------------------
-- Reports
-- ---------------------------------------------------------------------------

/-- The total of a group is the value of its kind that counts for as much as the
values taken for the group do together. -/
theorem get_sum (hexact : kind.IsExact) (hkind : firstKind additions = some kind)
    (hb : ∀ addition ∈ additions, addition.1.Bounded) (hkey : key.Bounded) :
    (sum.fed additions).get key = .ok w ↔ sum.valuesFor additions key ≠ [] ∧
      w.kind = kind ∧ w.amount = Value.amounts (sum.valuesFor additions key) := by
  have hreflects : sum.Reflects kind (sum.valuesFor additions key)
      ((sum.fed additions).cells.get? key) :=
    reflects_fed (fun first h => Option.some.inj (h.symm.trans hkind)) hb hkey
  rw [Accumulator.get_ok]
  constructor
  · rintro ⟨total, hcell, rfl⟩
    rw [hcell] at hreflects
    exact hreflects
  · rintro ⟨hne, hwkind, hamount⟩
    obtain ⟨total, hcell⟩ := Option.isSome_iff_exists.mp (hreflects.isSome.mpr hne)
    rw [hcell] at hreflects
    obtain ⟨-, htkind, htamount⟩ := hreflects
    have htexact : (Value.kind total).IsExact := htkind ▸ hexact
    exact ⟨total, hcell,
      Value.eq_of_amount htexact (htkind.trans hwkind.symm) (htamount.trans hamount.symm)⟩

-- ---------------------------------------------------------------------------
-- Refusals
-- ---------------------------------------------------------------------------

/-- A value whose new total has no form is refused as an invalid argument for just this
reason, and the aggregate stays the very same. -/
theorem add_of_overflow (hexact : v.kind.IsExact)
    (hfirst : firstKind (before ++ (key, v) :: rest) = some v.kind)
    (hb : ∀ addition ∈ before, addition.1.Bounded) (hkey : key.Bounded)
    (h : ¬ v.kind.Represents (Value.amounts (sum.valuesFor before key) + v.amount)) :
    ∃ old total text, (sum.fed before).get key = .ok old ∧
      old.render = some total ∧ v.render = some text ∧
      (sum.fed before).add key v =
        (.error (.invalidArgument (some s!"sum overflow adding {text} to {total}")),
          sum.fed before) := by
  rw [← affords_iff_represents hexact] at h
  have hreflects := reflects_before (f := sum) hfirst hb hkey
  have hlocks : ¬ sum.acceptedKinds.isEmpty := by decide
  cases hcell : (sum.fed before).cells.get? key with
  | none =>
    -- A single value is never too much.
    rw [hcell] at hreflects
    rw [show sum.valuesFor before key = [] from hreflects, Value.amounts, Int.zero_add] at h
    exact absurd (affords_amount v) h
  | some old =>
    rw [hcell] at hreflects
    obtain ⟨-, hkind, hamount⟩ := hreflects
    rw [← hamount] at h
    have hinspect : ((sum.fed before).inspect v).1 = .ok () :=
      (inspect_fed hlocks key rest).mpr ⟨mem_acceptedKinds_of_exact hexact, hfirst⟩
    have hadvance : (sum.fed before).advance key v = .error (Total.overflow old v) := by
      rw [Accumulator.advance, hinspect, ok_bind, hcell]
      exact Total.add_of_overflow hexact hkind h
    obtain ⟨total, text, htotal, htext, hoverflow⟩ := Total.overflow_eq (hkind ▸ hexact) hexact
    rw [hoverflow] at hadvance
    exact ⟨old, total, text, Accumulator.get_ok.mpr ⟨old, hcell, rfl⟩, htotal, htext,
      Accumulator.add_of_error (Accumulator.isSome_first_of_cell hlocks hcell) hadvance⟩

-- ---------------------------------------------------------------------------
-- Values that are taken
-- ---------------------------------------------------------------------------

/-- What is taken of a group's values once `v` is offered: `v` as well, if it is of
the kind and the total stays one that the kind represents. -/
def keep (kind : ValueKind) (taken : List Value) (v : Value) : List Value :=
  if v.kind = kind ∧ kind.Represents (Value.amounts taken + v.amount) then taken ++ [v] else taken

def kept (kind : ValueKind) (offered : List Value) : List Value := offered.foldl (keep kind) []

/-- The values offered for a group, taken or not. -/
def offeredFor (additions : List (GroupKey × Value)) (key : GroupKey) : List Value :=
  (additions.filter fun addition => addition.1 == key).map Prod.snd

theorem kept_append_singleton (kind : ValueKind) (offered : List Value) (v : Value) :
    kept kind (offered ++ [v]) = keep kind (kept kind offered) v := by
  simp [kept]

theorem add_sum_ok (hexact : kind.IsExact)
    (hfirst : firstKind (before ++ (key, v) :: rest) = some kind)
    (hb : ∀ addition ∈ before, addition.1.Bounded) (hkey : key.Bounded) :
    ((sum.fed before).add key v).1 = .ok () ↔ v.kind = kind ∧
      kind.Represents (Value.amounts (sum.valuesFor before key) + v.amount) := by
  have hnil : sum.acceptedKinds ≠ [] := by decide
  rw [add_fed_ok hb hkey rest, hfirst, Option.some.injEq]
  constructor
  · rintro (h | ⟨-, rfl, h⟩)
    · exact absurd h hnil
    · exact ⟨rfl, (affords_iff_represents hexact).mp h⟩
  · rintro ⟨rfl, h⟩
    exact .inr ⟨mem_acceptedKinds_of_exact hexact, rfl, (affords_iff_represents hexact).mpr h⟩

theorem valuesFor_congr (h : other == key) :
    sum.valuesFor before other = sum.valuesFor before key := by
  simp only [valuesFor, takenFor, Accumulator.takenFor, BEq.congr_right h]

/-- Which values are taken for a group depends on nothing but the values that were
offered for it. -/
theorem valuesFor_eq_kept (hexact : kind.IsExact)
    (hkind : ∀ first, firstKind additions = some first → first = kind)
    (hb : ∀ addition ∈ additions, addition.1.Bounded) :
    sum.valuesFor additions key = kept kind (offeredFor additions key) := by
  induction additions using List.reverseRecOn with
  | nil => rfl
  | append_singleton before addition ih =>
    obtain ⟨other, v⟩ := addition
    have hbefore : ∀ addition ∈ before, addition.1.Bounded :=
      fun addition hmem => hb addition (List.mem_append_left _ hmem)
    have hother : other.Bounded := hb (other, v) (by simp)
    have hfirst : firstKind (before ++ [(other, v)]) = some kind := by
      cases before <;> exact congrArg some (hkind _ rfl)
    have hvalues := ih (fun first h => by
      cases before with
      | nil => cases h
      | cons addition before => exact hkind first h) hbefore
    by_cases heq : other == key
    · have hoffered : offeredFor (before ++ [(other, v)]) key = offeredFor before key ++ [v] := by
        simp [offeredFor, heq]
      have hok := add_sum_ok hexact hfirst hbefore hother
      rw [valuesFor_congr heq, hvalues] at hok
      rw [hoffered, kept_append_singleton, keep]
      split
      · rename_i h
        rw [valuesFor_append_of_taken (hok.mpr h) heq, hvalues]
      · rename_i h
        rw [valuesFor_append_of_not_taken (.inl fun hadded => h (hok.mp hadded)), hvalues]
    · have hoffered : offeredFor (before ++ [(other, v)]) key = offeredFor before key := by
        simp [offeredFor, heq]
      rw [hoffered, valuesFor_append_of_not_taken (.inr heq), hvalues]

-- ---------------------------------------------------------------------------
-- Runs
-- ---------------------------------------------------------------------------

/-- Once a sum is locked onto integers or durations, the total of every group is the
exact sum of the values taken for it; these are the values of the kind that kept
the total of their group, when they came, within what the kind represents. A value
of the kind is refused in no other case. It is refused as an invalid argument, in a
message that shows the value and the total that do not go together. This leaves the
aggregate the very same, with all its groups, so that later on it takes what it would
have taken anyway.

Premise: the lengths in the keys fit eight bytes. -/
theorem sum_is_exact (kind : ValueKind) (hexact : kind.IsExact)
    (additions : List (GroupKey × Value)) (hb : ∀ addition ∈ additions, addition.1.Bounded)
    (hlocked : (sum.fed additions).lock.kind = some kind) :
    (∀ (key : GroupKey) (w : Value), key.Bounded →
      ((sum.fed additions).get key = .ok w ↔ sum.valuesFor additions key ≠ [] ∧ w.kind = kind ∧
        w.amount = Value.amounts (sum.valuesFor additions key))) ∧
    (∀ key : GroupKey, sum.valuesFor additions key = kept kind (offeredFor additions key)) ∧
    ∀ (i : Nat) (key : GroupKey) (v : Value), additions[i]? = some (key, v) → v.kind = kind →
      ((sum.verdicts additions)[i]? = some (.ok ()) ↔
        kind.Represents (Value.amounts (sum.valuesFor (additions.take i) key) + v.amount)) ∧
      (¬ kind.Represents (Value.amounts (sum.valuesFor (additions.take i) key) + v.amount) →
        ∃ old total text, (sum.fed (additions.take i)).get key = .ok old ∧
          old.render = some total ∧ v.render = some text ∧
          (sum.verdicts additions)[i]? =
            some (.error (.invalidArgument (some s!"sum overflow adding {text} to {total}"))) ∧
          sum.fed (additions.take (i + 1)) = sum.fed (additions.take i)) := by
  have hlocks : ¬ sum.acceptedKinds.isEmpty := by decide
  rw [kind_fed hlocks] at hlocked
  refine ⟨fun key w hkey => get_sum hexact hlocked hb hkey, fun key =>
    valuesFor_eq_kept hexact (fun first h => Option.some.inj (h.symm.trans hlocked)) hb, ?_⟩
  rintro i key v hi rfl
  have hfirst : firstKind (additions.take i ++ (key, v) :: additions.drop (i + 1)) = some v.kind := by
    rw [take_append_cons_drop hi, hlocked]
  have hkey : key.Bounded := hb (key, v) (List.mem_of_getElem? hi)
  have hbefore : ∀ addition ∈ additions.take i, addition.1.Bounded :=
    fun addition hmem => hb addition (List.mem_of_mem_take hmem)
  rw [getElem?_verdicts_fed hi, Option.some.injEq]
  constructor
  · rw [add_sum_ok hexact hfirst hbefore hkey]
    exact and_iff_right rfl
  · intro hoverflow
    obtain ⟨old, total, text, hget, htotal, htext, hadd⟩ :=
      add_of_overflow hexact hfirst hbefore hkey hoverflow
    have hnext : sum.fed (additions.take (i + 1)) = ((sum.fed (additions.take i)).add key v).2 := by
      rw [List.take_add_one, hi]
      exact fed_append_singleton
    exact ⟨old, total, text, hget, htotal, htext, by rw [hadd], by rw [hnext, hadd]⟩

def longest : Duration := ⟨9223372036854775807999999999, by decide⟩

def nanosecond : Duration := ⟨1, by decide⟩

def minusNanosecond : Duration := ⟨-1, by decide⟩

def aroundLongest : List (GroupKey × Value) :=
  [(⟨[.int 1]⟩, .duration longest), (⟨[.int 1]⟩, .duration nanosecond),
    (⟨[.int 2]⟩, .duration nanosecond), (⟨[.int 1]⟩, .duration minusNanosecond)]

theorem sum_is_exact_around_longest :
    ValueKind.duration.IsExact ∧ (∀ addition ∈ aroundLongest, addition.1.Bounded) ∧
    (sum.fed aroundLongest).lock.kind = some .duration ∧
    (sum.fed aroundLongest).get ⟨[.int 1]⟩ =
      .ok (.duration ⟨9223372036854775807999999998, by decide⟩) ∧
    (sum.verdicts aroundLongest)[1]? =
      some (.error (.invalidArgument (some
        "sum overflow adding 1ns to 106751991167300d15h30m7s999ms999µs999ns"))) ∧
    (sum.verdicts aroundLongest)[3]? = some (.ok ()) := by
  have hexact : ValueKind.duration.IsExact := .inr rfl
  have hkey : (⟨[.int 1]⟩ : GroupKey).Bounded := by decide
  have hkeys : ∀ addition ∈ aroundLongest, addition.1.Bounded := by decide
  have hlocked : (sum.fed aroundLongest).lock.kind = some .duration := kind_fed (by decide)
  obtain ⟨hget, hkept, hcalls⟩ := sum_is_exact .duration hexact aroundLongest hkeys hlocked
  have hvalues : ∀ n, sum.valuesFor (aroundLongest.take n) ⟨[.int 1]⟩ =
      kept .duration (offeredFor (aroundLongest.take n) ⟨[.int 1]⟩) := fun n => by
    refine valuesFor_eq_kept hexact (fun first h => ?_) fun addition hmem =>
      hkeys addition (List.mem_of_mem_take hmem)
    cases n <;> cases h
    rfl
  have hfirst : sum.valuesFor (aroundLongest.take 1) ⟨[.int 1]⟩ = [.duration longest] :=
    (hvalues 1).trans rfl
  have hthird : sum.valuesFor (aroundLongest.take 3) ⟨[.int 1]⟩ = [.duration longest] :=
    (hvalues 3).trans rfl
  obtain ⟨-, hrefused⟩ := hcalls 1 ⟨[.int 1]⟩ (.duration nanosecond) rfl rfl
  obtain ⟨old, total, text, hold, htotal, htext, hverdict, -⟩ := hrefused (by rw [hfirst]; decide)
  obtain ⟨htaken, -⟩ := hcalls 3 ⟨[.int 1]⟩ (.duration minusNanosecond) rfl rfl
  refine ⟨hexact, hkeys, hlocked, (hget _ _ hkey).mpr ?_, ?_, htaken.mpr ?_⟩
  · rw [hkept]
    exact ⟨by decide, rfl, by decide⟩
  · have hlongest : (sum.fed (aroundLongest.take 1)).get ⟨[.int 1]⟩ = .ok (.duration longest) := by
      refine (get_sum hexact rfl (by decide) hkey).mpr ?_
      rw [hfirst]
      exact ⟨by decide, rfl, rfl⟩
    rw [hlongest, Except.ok.injEq] at hold
    subst hold
    obtain rfl : "106751991167300d15h30m7s999ms999µs999ns" = total := Option.some.inj htotal
    obtain rfl : "1ns" = text := Option.some.inj htext
    exact hverdict
  · rw [hthird]
    decide

end AggregateFunction

end StreamQuery
