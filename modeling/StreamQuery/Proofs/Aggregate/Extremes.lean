import StreamQuery.Proofs.Aggregate.Acceptance
import StreamQuery.Proofs.Aggregate.Summary

/-!
# Which value an extreme is

A greatest or a least value is the first of the values taken for its group that
no other beats, in the very form in which it was offered (`reports_extreme`).
What it is to beat depends on the kind. Most kinds go by their order. Floats go
by numeric order, in which a NaN neither beats nor is beaten, so that a NaN stays
if it came first and does not count otherwise. Of the truth values one
dominates.

The cell of a group is made from its values one after the other (`cellOf`), so
each kind needs an invariant of one step. The two orders share it: all that it
takes is that to beat is a weak order on the values in question
(`WeakOrder.firstUnbeaten_displaced`).
-/

namespace StreamQuery

-- ---------------------------------------------------------------------------
-- Cells from values
-- ---------------------------------------------------------------------------

namespace AggregateFunction

variable {f : AggregateFunction} {additions : List (GroupKey × Value)} {key : GroupKey}
  {values : List Value} {v : Value}

def cellOf (f : AggregateFunction) (values : List Value) : Except Error (Option f.Cell) :=
  values.foldlM (fun cell v => some <$> f.step cell v) none

theorem cellOf_append_singleton (values : List Value) (v : Value) :
    f.cellOf (values ++ [v]) = f.cellOf values >>= fun cell => some <$> f.step cell v := by
  rw [cellOf, List.foldlM_append]
  simp only [List.foldlM_cons, List.foldlM_nil, bind_pure]
  rfl

/-- The cell of a group shows the values taken for the group and nothing else. -/
theorem cellOf_valuesFor (hb : ∀ addition ∈ additions, addition.1.Bounded) (hkey : key.Bounded) :
    f.cellOf (f.valuesFor additions key) = .ok ((f.fed additions).cells.get? key) := by
  induction additions using List.reverseRecOn with
  | nil =>
    rw [GroupTable.get?_of_isEmpty rfl]
    rfl
  | append_singleton before addition ih =>
    have hbefore := ih fun addition hmem => hb addition (List.mem_append_left _ hmem)
    rcases fed_step f before addition.2 (hb addition (by simp)) hkey with
      ⟨next, -, hstep, hcell, hvalues⟩ | ⟨hcell, hvalues⟩
    · rw [hcell, hvalues, cellOf_append_singleton, hbefore, ok_bind, hstep]
      rfl
    · rw [hcell, hvalues, hbefore]

theorem kind_of_mem_valuesFor (hf : f.acceptedKinds ≠ [])
    (hb : ∀ addition ∈ additions, addition.1.Bounded) (hkey : key.Bounded)
    (hv : v ∈ f.valuesFor additions key) :
    v.kind ∈ f.acceptedKinds ∧ firstKind additions = some v.kind := by
  have hlocks : ¬ f.acceptedKinds.isEmpty := fun h => hf (List.isEmpty_iff.mp h)
  induction additions using List.reverseRecOn with
  | nil => simp [valuesFor, takenFor, Accumulator.takenFor, Accumulator.taken] at hv
  | append_singleton before addition ih =>
    have hfirst : ∀ kind, firstKind before = some kind →
        firstKind (before ++ [addition]) = some kind := fun kind h => by
      cases before with
      | nil => cases h
      | cons addition before => exact h
    have hbefore : v ∈ f.valuesFor before key → v.kind ∈ f.acceptedKinds ∧
        firstKind (before ++ [addition]) = some v.kind := fun hmem => by
      obtain ⟨haccepted, h⟩ :=
        ih (fun addition hmem => hb addition (List.mem_append_left _ hmem)) hmem
      exact ⟨haccepted, hfirst _ h⟩
    rcases fed_step f before addition.2 (hb addition (by simp)) hkey with
      ⟨-, hinspect, -, -, hvalues⟩ | ⟨-, hvalues⟩
    · rw [hvalues] at hv
      rcases List.mem_append.mp hv with hv | hv
      · exact hbefore hv
      · cases List.mem_singleton.mp hv
        exact (inspect_fed hlocks addition.1 []).mp hinspect
    · exact hbefore (hvalues ▸ hv)

end AggregateFunction

namespace Direction

variable {direction : Direction} {seen rest : List Value} {first current v : Value}
  {kind : ValueKind}

-- ---------------------------------------------------------------------------
-- Unbeaten values
-- ---------------------------------------------------------------------------

def unbeaten (eligible : Value → Bool) (beats : Value → Value → Bool) (values : List Value)
    (w : Value) : Bool :=
  eligible w && values.all fun v => !beats v w

/-- The first of the values that may be chosen and that no other beats. -/
def firstUnbeaten (eligible : Value → Bool) (beats : Value → Value → Bool)
    (values : List Value) : Option Value :=
  values.find? (unbeaten eligible beats values)

/-- To beat is a weak order on these values: where one of them beats another, a
third is beaten by the one or beats the other. -/
structure WeakOrder (on : Value → Prop) (beats : Value → Value → Bool) : Prop where
  irrefl : ∀ a, ¬ beats a a
  trans : ∀ a b c, beats a b → beats b c → beats a c
  split : ∀ a b c, on a → on b → on c → beats a c → beats a b ∨ beats b c

section
variable {eligible : Value → Bool} {beats : Value → Value → Bool} {on : Value → Prop}

theorem unbeaten_iff : unbeaten eligible beats seen v ↔ eligible v ∧ ∀ w ∈ seen, ¬ beats w v := by
  simp [unbeaten]

theorem firstUnbeaten_kept (h : firstUnbeaten eligible beats seen = some current)
    (hv : ¬ beats v current) : firstUnbeaten eligible beats (seen ++ [v]) = some current := by
  obtain ⟨hcurrent, before, after, hsplit, hbefore⟩ := List.find?_eq_some_iff_append.mp h
  refine List.find?_eq_some_iff_append.mpr ⟨?_, before, after ++ [v], by simp [hsplit], ?_⟩
  · rw [unbeaten_iff] at hcurrent ⊢
    refine ⟨hcurrent.1, fun w hw => ?_⟩
    rcases List.mem_append.mp hw with hw | hw
    · exact hcurrent.2 w hw
    · cases List.mem_singleton.mp hw
      exact hv
  · intro w hw
    have hbeaten := hbefore w hw
    rw [Bool.not_eq_true', ← Bool.not_eq_true, unbeaten_iff] at hbeaten ⊢
    exact fun h => hbeaten ⟨h.1, fun x hx => h.2 x (List.mem_append_left _ hx)⟩

theorem WeakOrder.firstUnbeaten_displaced (horder : WeakOrder on beats)
    (h : firstUnbeaten eligible beats seen = some current) (hcurrent : on current)
    (hseen : ∀ w ∈ seen, eligible w → on w) (hon : on v) (heligible : eligible v)
    (hv : beats v current) : firstUnbeaten eligible beats (seen ++ [v]) = some v := by
  obtain ⟨-, hunbeaten⟩ := unbeaten_iff.mp (List.find?_some h)
  refine List.find?_eq_some_iff_append.mpr ⟨?_, seen, [], rfl, fun w hw => ?_⟩
  · refine unbeaten_iff.mpr ⟨heligible, fun w hw hbeats => ?_⟩
    rcases List.mem_append.mp hw with hw | hw
    · exact hunbeaten w hw (horder.trans w v current hbeats hv)
    · cases List.mem_singleton.mp hw
      exact horder.irrefl v hbeats
  · rw [Bool.not_eq_true', ← Bool.not_eq_true, unbeaten_iff]
    rintro ⟨hw', hall⟩
    rcases horder.split v w current hon (hseen w hw hw') hcurrent hv with hbeats | hbeats
    · exact hall v (by simp) hbeats
    · exact hunbeaten w hw hbeats

end

-- ---------------------------------------------------------------------------
-- The order of a kind
-- ---------------------------------------------------------------------------

/-- Whether `v` is above `w` in the order of values, or below it if the least is wanted. -/
def beats (direction : Direction) (v w : Value) : Bool :=
  match direction, v.compare w with
  | .greatest, .ok .gt | .least, .ok .lt => true
  | _, _ => false

/-- Whether `v` is the greater number of the two, or the lesser one if the least is wanted. -/
def beatsNumber (direction : Direction) (v w : Value) : Bool :=
  match direction, v, w with
  | .greatest, .float x, .float y => x.numericOrder y == some .gt
  | .least, .float x, .float y => x.numericOrder y == some .lt
  | _, _, _ => false

def isNumber : Value → Bool
  | .float x => !x.isNaN
  | _ => false

/-- The kinds whose extremes go by the order of values. -/
def orderedKinds : List ValueKind := [.int, .string, .time, .duration]

theorem mem_acceptedKinds_of_ordered (h : kind ∈ orderedKinds) :
    kind ∈ AggregateFunction.max.acceptedKinds := by
  revert h
  cases kind <;> decide

theorem beats_iff : direction.beats v current ↔ v.compare current = .ok direction.winning := by
  unfold beats
  cases direction <;> cases v.compare current with
  | error e => simp
  | ok order => cases order <;> simp [winning]

theorem weakOrder_beats (direction : Direction) (hkind : kind ∈ orderedKinds) :
    WeakOrder (fun v => v.kind = kind) direction.beats where
  irrefl a h := by
    rw [beats_iff, Value.compare_eq_iff.mpr BEq.rfl] at h
    exact direction.winning_ne_eq (Except.ok.inj h).symm
  trans a b c hab hbc := by
    rw [beats_iff] at hab hbc ⊢
    exact compare_winning_trans hab hbc
  split a b c ha hb hc hac := by
    simp only [beats_iff] at hac ⊢
    have hkinds : b.kind = c.kind := hb.trans hc.symm
    have haccepted : b.kind ∈ AggregateFunction.max.acceptedKinds :=
      hb ▸ mem_acceptedKinds_of_ordered hkind
    obtain ⟨order, hbc⟩ := Value.exists_compare hkinds haccepted
    by_cases hwins : order = direction.winning
    · exact .inr (hwins ▸ hbc)
    · left
      by_cases heq : order = .eq
      · rw [Value.compare_congr BEq.rfl (Value.compare_eq_iff.mp (heq ▸ hbc))]
        exact hac
      · have hswap : order.swap = direction.winning := by
          cases direction <;> cases order <;> simp_all [winning]
        exact compare_winning_trans hac (hswap ▸ Value.compare_swap.mp hbc)

theorem isNumber_iff : isNumber v ↔ ∃ x, v = .float x ∧ x.isNaN = false := by
  cases v <;> simp [isNumber]

theorem isNumber_of_beatsNumber (h : direction.beatsNumber v current) :
    isNumber v ∧ isNumber current := by
  unfold beatsNumber at h
  split at h
  · simp_all [Double.numericOrder, isNumber]
  · simp_all [Double.numericOrder, isNumber]
  · cases h

theorem beatsNumber_eq (x y : Double) : direction.beatsNumber (.float x) (.float y) =
    (x.numericOrder y == some direction.winning) := by
  cases direction <;> rfl

theorem beatsNumber_float {x y : Double} (hx : x.isNaN = false) (hy : y.isNaN = false) :
    direction.beatsNumber (.float x) (.float y) ↔ compare x.rank y.rank = direction.winning := by
  simp [beatsNumber_eq, Double.numericOrder, hx, hy]

theorem compare_rank_eq_winning {m n : Int} : compare m n = direction.winning ↔
    direction = .greatest ∧ n < m ∨ direction = .least ∧ m < n := by
  cases direction <;> simp [winning, Int.compare_eq_gt, Int.compare_eq_lt]

theorem weakOrder_beatsNumber (direction : Direction) :
    WeakOrder (fun v => isNumber v) direction.beatsNumber where
  irrefl a h := by
    obtain ⟨x, rfl, hx⟩ := isNumber_iff.mp (isNumber_of_beatsNumber h).1
    rw [beatsNumber_float hx hx, compare_rank_eq_winning] at h
    omega
  trans a b c hab hbc := by
    obtain ⟨x, rfl, hx⟩ := isNumber_iff.mp (isNumber_of_beatsNumber hab).1
    obtain ⟨y, rfl, hy⟩ := isNumber_iff.mp (isNumber_of_beatsNumber hab).2
    obtain ⟨z, rfl, hz⟩ := isNumber_iff.mp (isNumber_of_beatsNumber hbc).2
    rw [beatsNumber_float hx hy, compare_rank_eq_winning] at hab
    rw [beatsNumber_float hy hz, compare_rank_eq_winning] at hbc
    rw [beatsNumber_float hx hz, compare_rank_eq_winning]
    cases direction <;> simp_all <;> omega
  split a b c ha hb hc hac := by
    obtain ⟨x, rfl, hx⟩ := isNumber_iff.mp ha
    obtain ⟨y, rfl, hy⟩ := isNumber_iff.mp hb
    obtain ⟨z, rfl, hz⟩ := isNumber_iff.mp hc
    rw [beatsNumber_float hx hz, compare_rank_eq_winning] at hac
    rw [beatsNumber_float hx hy, beatsNumber_float hy hz, compare_rank_eq_winning,
      compare_rank_eq_winning]
    cases direction <;> simp_all <;> omega

-- ---------------------------------------------------------------------------
-- Extremes of several values
-- ---------------------------------------------------------------------------

/-- What holds of the first value alone and is kept by every further one holds of
the extreme of all. -/
theorem foldlM_extreme {P : List Value → Value → Prop} (hfirst : P [first] first)
    (hstep : ∀ seen current v next, v ∈ rest → P seen current →
      direction.extreme current v = .ok next → P (seen ++ [v]) next)
    (h : rest.foldlM direction.extreme first = .ok current) : P (first :: rest) current := by
  induction rest using List.reverseRecOn generalizing current with
  | nil =>
    cases h
    exact hfirst
  | append_singleton rest v ih =>
    rw [List.foldlM_append] at h
    obtain ⟨previous, hprevious, h⟩ := bind_ok.mp h
    simp only [List.foldlM_cons, List.foldlM_nil, bind_pure] at h
    have hkeep := ih (fun seen current w next hw => hstep seen current w next (by simp [hw])) hprevious
    exact hstep (first :: rest) previous v current (by simp) hkeep h

theorem extreme_of_displaces {b : Bool} (h : direction.displaces v current = .ok b) :
    direction.extreme current v = .ok (if b then v else current) := by
  rw [extreme, h]
  rfl

theorem displaces_ordered (hkind : kind ∈ orderedKinds) (hv : v.kind = kind)
    (hcurrent : current.kind = kind) :
    direction.displaces v current = .ok (direction.beats v current) := by
  obtain ⟨order, horder⟩ := Value.exists_compare (hv.trans hcurrent.symm)
    (hv ▸ mem_acceptedKinds_of_ordered hkind)
  have hbeats : direction.beats v current = (order == direction.winning) := by
    rw [Bool.eq_iff_iff, beats_iff, horder, Except.ok.injEq, beq_iff_eq]
  rw [hbeats]
  subst hv
  cases v with
  | int _ | string _ | time _ | duration _ =>
    unfold displaces
    rw [horder]
    rfl
  | _ => simp [Value.kind, orderedKinds] at hkind

theorem displaces_float (x y : Double) : direction.displaces (.float y) (.float x) =
    .ok (direction.beatsNumber (.float y) (.float x)) := by
  rw [beatsNumber_eq, displaces]

theorem extreme_of_ordered (hkind : kind ∈ orderedKinds)
    (hvalues : ∀ v ∈ first :: rest, v.kind = kind)
    (h : rest.foldlM direction.extreme first = .ok current) :
    firstUnbeaten (fun _ => true) direction.beats (first :: rest) = some current := by
  have horder := weakOrder_beats direction hkind
  refine (foldlM_extreme (P := fun seen current => (∀ v ∈ seen, v.kind = kind) ∧
    firstUnbeaten (fun _ => true) direction.beats seen = some current) ⟨?_, ?_⟩ ?_ h).2
  · simpa using hvalues first (by simp)
  · simpa [firstUnbeaten, unbeaten] using horder.irrefl first
  · rintro seen current v next hv ⟨hseen, hcurrent⟩ hnext
    have hvkind : v.kind = kind := hvalues v (by simp [hv])
    have hckind : current.kind = kind := hseen current (List.mem_of_find?_eq_some hcurrent)
    rw [extreme_of_displaces (displaces_ordered hkind hvkind hckind), Except.ok.injEq] at hnext
    subst hnext
    refine ⟨fun w hw => ?_, ?_⟩
    · rcases List.mem_append.mp hw with hw | hw
      · exact hseen w hw
      · cases List.mem_singleton.mp hw
        exact hvkind
    · split
      · rename_i hbeats
        exact horder.firstUnbeaten_displaced hcurrent hckind (fun w hw _ => hseen w hw) hvkind rfl
          hbeats
      · rename_i hbeats
        exact firstUnbeaten_kept hcurrent hbeats

/-- A NaN that came first stays, whatever follows. -/
theorem extreme_of_nan {x : Double} (hx : x.isNaN) (hvalues : ∀ v ∈ rest, v.kind = .float)
    (h : rest.foldlM direction.extreme (.float x) = .ok current) : current = .float x := by
  refine foldlM_extreme (P := fun _ current => current = .float x) rfl ?_ h
  rintro seen _ v next hv rfl hnext
  have hvkind := hvalues v hv
  cases v with
  | float y =>
    have hloses : ¬ direction.beatsNumber (.float y) (.float x) := by
      simp [beatsNumber_eq, Double.numericOrder, hx]
    rw [extreme_of_displaces (displaces_float x y), if_neg hloses] at hnext
    exact (Except.ok.inj hnext).symm
  | _ => cases hvkind

theorem extreme_of_number (hfirst : isNumber first) (hvalues : ∀ v ∈ rest, v.kind = .float)
    (h : rest.foldlM direction.extreme first = .ok current) :
    firstUnbeaten isNumber direction.beatsNumber (first :: rest) = some current := by
  have horder := weakOrder_beatsNumber direction
  refine foldlM_extreme (P := fun seen current =>
    firstUnbeaten isNumber direction.beatsNumber seen = some current) ?_ ?_ h
  · simpa [firstUnbeaten, unbeaten, hfirst] using horder.irrefl first
  · rintro seen current v next hv hcurrent hnext
    have hnumber : isNumber current := (unbeaten_iff.mp (List.find?_some hcurrent)).1
    obtain ⟨x, rfl, -⟩ := isNumber_iff.mp hnumber
    have hvkind := hvalues v hv
    cases v with
    | float y =>
      rw [extreme_of_displaces (displaces_float x y), Except.ok.injEq] at hnext
      subst hnext
      split
      · rename_i hbeats
        have hv : isNumber (.float y) := (isNumber_of_beatsNumber hbeats).1
        exact horder.firstUnbeaten_displaced hcurrent hnumber (fun w _ hw => hw) hv hv hbeats
      · rename_i hbeats
        exact firstUnbeaten_kept hcurrent hbeats
    | _ => cases hvkind

theorem extreme_of_bool (hvalues : ∀ v ∈ first :: rest, v.kind = .bool)
    (h : rest.foldlM direction.extreme first = .ok current) :
    current = .bool direction.dominant ↔ .bool direction.dominant ∈ first :: rest := by
  refine foldlM_extreme (P := fun seen current =>
    current = .bool direction.dominant ↔ .bool direction.dominant ∈ seen) ?_ ?_ h
  · rw [List.mem_singleton, eq_comm]
  · rintro seen current v next hv hcurrent hnext
    have hvkind : v.kind = .bool := hvalues v (by simp [hv])
    cases v with
    | bool b =>
      rw [extreme_of_displaces (b := b == direction.dominant) (by cases current <;> rfl),
        Except.ok.injEq] at hnext
      subst hnext
      rw [List.mem_append, List.mem_singleton, ← hcurrent]
      by_cases hb : b = direction.dominant
      · simp [hb]
      · simp [hb, eq_comm (a := direction.dominant)]
    | _ => cases hvkind

theorem extreme_mem (h : rest.foldlM direction.extreme first = .ok current) :
    current ∈ first :: rest := by
  refine foldlM_extreme (P := fun seen current => current ∈ seen) (List.mem_singleton_self _) ?_ h
  intro seen current v next _ hcurrent hnext
  rcases extreme_ok hnext with rfl | rfl
  · exact List.mem_append_right _ (List.mem_singleton_self _)
  · exact List.mem_append_left _ hcurrent

-- ---------------------------------------------------------------------------
-- Reports
-- ---------------------------------------------------------------------------

def function : Direction → AggregateFunction
  | .greatest => .max
  | .least => .min

theorem acceptedKinds_function_ne_nil (direction : Direction) :
    direction.function.acceptedKinds ≠ [] := by
  cases direction <;> simp [function, AggregateFunction.acceptedKinds]

theorem mem_kinds_of_accepted (h : kind ∈ direction.function.acceptedKinds) :
    kind ∈ .bool :: .float :: orderedKinds := by
  revert h
  cases direction <;> cases kind <;> decide

theorem affords_function (direction : Direction) (kind : ValueKind) (total : Int) :
    direction.function.Affords kind total := by
  cases direction <;> trivial

/-- Values of one accepted kind are all taken: they never fail to compare. -/
theorem valuesFor_of_one_kind {additions : List (GroupKey × Value)} {key : GroupKey}
    (hkind : kind ∈ direction.function.acceptedKinds)
    (hall : ∀ addition ∈ additions, addition.2.kind = kind)
    (hb : ∀ addition ∈ additions, addition.1.Bounded) :
    direction.function.valuesFor additions key =
      (additions.filter fun addition => addition.1 == key).map Prod.snd := by
  induction additions using List.reverseRecOn with
  | nil => rfl
  | append_singleton before addition ih =>
    obtain ⟨other, v⟩ := addition
    have hbefore : ∀ addition ∈ before, addition.1.Bounded :=
      fun addition hmem => hb addition (List.mem_append_left _ hmem)
    have hv : v.kind = kind := hall (other, v) (by simp)
    have hfirst : AggregateFunction.firstKind (before ++ (other, v) :: []) = some v.kind := by
      cases before with
      | nil => rfl
      | cons addition before =>
        exact congrArg some ((hall addition (by simp)).trans hv.symm)
    have htaken : ((direction.function.fed before).add other v).1 = .ok () :=
      (AggregateFunction.add_fed_ok hbefore (hb (other, v) (by simp)) []).mpr
        (.inr ⟨hv ▸ hkind, hfirst, direction.affords_function _ _⟩)
    have hvalues := ih (fun addition hmem => hall addition (List.mem_append_left _ hmem)) hbefore
    rw [List.filter_append, List.map_append, ← hvalues]
    by_cases heq : other == key
    · rw [AggregateFunction.valuesFor_append_of_taken htaken heq]
      simp [heq]
    · rw [AggregateFunction.valuesFor_append_of_not_taken (.inr heq)]
      simp [heq]

theorem foldlM_step (choose : Value → Value → Except Error Value) (first : Value)
    (rest : List Value) :
    rest.foldlM (fun (cell : Option Value) v =>
        some <$> cell.elim (.ok v) fun current => choose current v) (some first) =
      some <$> rest.foldlM choose first := by
  induction rest generalizing first with
  | nil => rfl
  | cons v rest ih =>
    rw [List.foldlM_cons, List.foldlM_cons, Option.elim_some]
    cases choose first v with
    | error e => rfl
    | ok next => exact ih next

theorem get_eq_of_cellOf {acc : Accumulator direction.function} {key : GroupKey}
    (h : direction.function.cellOf (first :: rest) = .ok (acc.cells.get? key)) :
    ∃ v, rest.foldlM direction.extreme first = .ok v ∧ acc.get key = .ok v := by
  cases direction with
  | greatest =>
    obtain ⟨v, hv, hcell⟩ := map_ok.mp ((foldlM_step greatest.extreme first rest).symm.trans h)
    exact ⟨v, hv, Accumulator.get_ok.mpr ⟨v, hcell, rfl⟩⟩
  | least =>
    obtain ⟨v, hv, hcell⟩ := map_ok.mp ((foldlM_step least.extreme first rest).symm.trans h)
    exact ⟨v, hv, Accumulator.get_ok.mpr ⟨v, hcell, rfl⟩⟩

/-- A greatest or a least value is one of the values taken for its group, in the
form in which it was offered. Of integers, texts, times and durations it is the
first that no other is above, for a greatest value, or below, for a least one. The
greatest truth value is true if that is among the values, the least one is false if
that is. A float is a NaN if that came first, and otherwise the first number that no
other number is above, or below, so that of two zeros the earlier one stays.

Premise: the lengths in the keys fit eight bytes. -/
theorem reports_extreme (direction : Direction) (additions : List (GroupKey × Value))
    (key : GroupKey) (hb : ∀ addition ∈ additions, addition.1.Bounded) (hkey : key.Bounded)
    (hvalues : direction.function.valuesFor additions key = first :: rest) :
    ∃ kind v, (direction.function.fed additions).get key = .ok v ∧ v ∈ first :: rest ∧
      (∀ w ∈ first :: rest, w.kind = kind) ∧ kind ∈ .bool :: .float :: orderedKinds ∧
      (kind ∈ orderedKinds →
        firstUnbeaten (fun _ => true) direction.beats (first :: rest) = some v) ∧
      (kind = .bool → match direction with
        | .greatest => v = .bool true ↔ .bool true ∈ first :: rest
        | .least => v = .bool false ↔ .bool false ∈ first :: rest) ∧
      (kind = .float → (¬ isNumber first → v = first) ∧
        (isNumber first →
          firstUnbeaten isNumber direction.beatsNumber (first :: rest) = some v)) := by
  have hcell := AggregateFunction.cellOf_valuesFor (f := direction.function) hb hkey
  rw [hvalues] at hcell
  obtain ⟨v, hv, hget⟩ := get_eq_of_cellOf hcell
  have haccepted : ∀ w ∈ first :: rest, w.kind ∈ direction.function.acceptedKinds ∧
      AggregateFunction.firstKind additions = some w.kind := fun w hw =>
    AggregateFunction.kind_of_mem_valuesFor (acceptedKinds_function_ne_nil direction) hb hkey
      (hvalues ▸ hw)
  have hkind : ∀ w ∈ first :: rest, w.kind = first.kind := fun w hw =>
    Option.some.inj ((haccepted w hw).2.symm.trans (haccepted first List.mem_cons_self).2)
  refine ⟨first.kind, v, hget, extreme_mem hv, hkind,
    mem_kinds_of_accepted (haccepted first List.mem_cons_self).1,
    fun hordered => extreme_of_ordered hordered hkind hv,
    fun hbool => ?_, fun hfloat => ?_⟩
  · have hdominant := extreme_of_bool (fun w hw => (hkind w hw).trans hbool) hv
    cases direction <;> exact hdominant
  have hrest : ∀ w ∈ rest, w.kind = .float := fun w hw =>
    (hkind w (List.mem_cons_of_mem _ hw)).trans hfloat
  refine ⟨fun hnan => ?_, fun hnumber => extreme_of_number hnumber hrest hv⟩
  cases first with
  | float x => exact extreme_of_nan (by simpa [isNumber] using hnan) hrest hv
  | _ => cases hfloat

def signedZeros : List (GroupKey × Value) :=
  [(⟨[.int 1]⟩, .float (Double.neg .zero)), (⟨[.int 1]⟩, .float .zero),
    (⟨[.int 2]⟩, .float (.ofNat 1)), (⟨[.int 1]⟩, .float .nan)]

def dipping : List (GroupKey × Value) :=
  [(⟨[.int 1]⟩, .int 2), (⟨[.int 1]⟩, .int 1), (⟨[.int 2]⟩, .int 0), (⟨[.int 1]⟩, .int 3)]

/-- Of the zeros the negative one is the greatest and keeps its sign. Of the numbers 1 is
the least. -/
theorem reports_extreme_of_zeros_and_integers :
    ((∀ addition ∈ signedZeros, addition.1.Bounded) ∧ (⟨[.int 1]⟩ : GroupKey).Bounded ∧
      greatest.function.valuesFor signedZeros ⟨[.int 1]⟩ =
        [.float (Double.neg .zero), .float .zero, .float .nan] ∧
      (AggregateFunction.max.fed signedZeros).get ⟨[.int 1]⟩ =
        .ok (.float (Double.neg .zero))) ∧
    (∀ addition ∈ dipping, addition.1.Bounded) ∧
      least.function.valuesFor dipping ⟨[.int 1]⟩ = [.int 2, .int 1, .int 3] ∧
      (AggregateFunction.min.fed dipping).get ⟨[.int 1]⟩ = .ok (.int 1) := by
  have hkey : (⟨[.int 1]⟩ : GroupKey).Bounded := by decide
  have hzeros : ∀ addition ∈ signedZeros, addition.1.Bounded := by decide
  have hdipping : ∀ addition ∈ dipping, addition.1.Bounded := by decide
  have hfloats : ∀ addition ∈ signedZeros, addition.2.kind = .float := by
    simp [signedZeros, Value.kind]
  have hints : ∀ addition ∈ dipping, addition.2.kind = .int := by simp [dipping, Value.kind]
  have htaken : greatest.function.valuesFor signedZeros ⟨[.int 1]⟩ =
      [.float (Double.neg .zero), .float .zero, .float .nan] :=
    valuesFor_of_one_kind (by decide) hfloats hzeros
  have htaken' : least.function.valuesFor dipping ⟨[.int 1]⟩ = [.int 2, .int 1, .int 3] :=
    valuesFor_of_one_kind (by decide) hints hdipping
  obtain ⟨kind, v, hgreatest, -, hkind, -, -, -, hfloat⟩ :=
    reports_extreme greatest signedZeros ⟨[.int 1]⟩ hzeros hkey htaken
  have hzero : some (.float (Double.neg .zero)) = some v :=
    (hfloat (hkind _ (.head _)).symm).2 (by decide)
  obtain ⟨kind', w, hleast, -, hkind', -, hordered, -⟩ :=
    reports_extreme least dipping ⟨[.int 1]⟩ hdipping hkey htaken'
  have hone : some (.int 1) = some w :=
    hordered ((hkind' _ (.head _)).symm ▸ by decide)
  exact ⟨⟨hzeros, hkey, htaken, Option.some.inj hzero ▸ hgreatest⟩,
    hdipping, htaken', Option.some.inj hone ▸ hleast⟩

end Direction

end StreamQuery
