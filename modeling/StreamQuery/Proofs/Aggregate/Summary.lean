import StreamQuery.Proofs.Aggregate.Cells
import StreamQuery.Proofs.Aggregate.Isolation
import StreamQuery.Proofs.Value.Comparison

/-!
# Aggregates do not depend on the order of their values

Counts, exact totals and extremes say something about the values of a group
that does not mention their order (`AggregateFunction.Describes`): how many
there are, what they amount to, which one no other beats. Every value that an
aggregate takes for a group leaves the cell of the group such a description
(`Summarizes.add`), and what goes to other groups does not matter
(`Summarizes.add_of_ne`). So aggregates that took the same values, in whatever
orders (`Summarizes.perm`), report equal values (`Summarizes.report_beq`). Means
are left out, and so are floats, whose sums depend on the order.
-/

namespace StreamQuery

-- ---------------------------------------------------------------------------
-- Extremes
-- ---------------------------------------------------------------------------

namespace Direction

variable {direction : Direction} {a b c current v next : Value} {values others : List Value}

theorem winning_ne_eq (direction : Direction) : direction.winning ≠ .eq := by
  cases direction <;> decide

theorem compare_winning_trans (hab : a.compare b = .ok direction.winning)
    (hbc : b.compare c = .ok direction.winning) : a.compare c = .ok direction.winning := by
  cases direction with
  | greatest =>
    rw [winning, Value.compare_swap] at hab hbc ⊢
    exact Value.compare_lt_trans c b a hbc hab
  | least => exact Value.compare_lt_trans a b c hab hbc

/-- Truth values are not compared, but the dominant one is the winning one. -/
theorem displaces_true (hkind : current.kind = v.kind) (hfloat : v.kind ≠ .float)
    (h : direction.displaces v current = .ok true) :
    v.compare current = .ok direction.winning ∨ v == current := by
  unfold displaces at h
  split at h
  · rename_i b
    cases current with
    | bool held =>
      cases direction <;> cases b <;> cases held <;> first
        | exact .inl rfl
        | exact .inr rfl
        | exact absurd h (by decide)
    | _ => cases hkind
  · exact absurd rfl hfloat
  · obtain ⟨order, horder, h⟩ := bind_ok.mp h
    rw [pure_ok, beq_iff_eq] at h
    exact .inl (h ▸ horder)

theorem displaces_false (hfloat : v.kind ≠ .float) (h : direction.displaces v current = .ok false) :
    v.compare current ≠ .ok direction.winning := by
  unfold displaces at h
  split at h
  · rename_i b
    cases current with
    | bool held =>
      cases direction <;> cases b <;> cases held <;> first
        | exact absurd h (by decide)
        | decide
    | _ => simp [Value.compare]
  · exact absurd rfl hfloat
  · obtain ⟨order, horder, h⟩ := bind_ok.mp h
    rw [pure_ok, beq_eq_false_iff_ne] at h
    rw [horder]
    exact fun heq => h (Except.ok.inj heq)

/-- The value is one of these, and none of them beats it. -/
structure Leads (direction : Direction) (values : List Value) (v : Value) : Prop where
  mem : v ∈ values
  unbeaten : ∀ w ∈ values, w.compare v ≠ .ok direction.winning

namespace Leads

theorem singleton (direction : Direction) (v : Value) : direction.Leads [v] v where
  mem := List.mem_singleton_self v
  unbeaten w hw heq := by
    cases List.mem_singleton.mp hw
    rw [Value.compare_eq_iff.mpr BEq.rfl] at heq
    exact direction.winning_ne_eq (Except.ok.inj heq).symm

theorem extreme (h : direction.Leads values current) (hkind : current.kind = v.kind)
    (hfloat : v.kind ≠ .float) (hs : direction.extreme current v = .ok next) :
    direction.Leads (values ++ [v]) next := by
  obtain ⟨displaced, hd, hnext⟩ := bind_ok.mp hs
  cases displaced with
  | false =>
    cases hnext
    refine ⟨List.mem_append_left _ h.mem, fun w hw => ?_⟩
    rcases List.mem_append.mp hw with hw | hw
    · exact h.unbeaten w hw
    · cases List.mem_singleton.mp hw
      exact displaces_false hfloat hd
  | true =>
    cases hnext
    refine ⟨List.mem_append_right _ (List.mem_singleton_self v), fun w hw heq => ?_⟩
    rcases List.mem_append.mp hw with hw | hw
    · -- What beat the new extreme would have beaten the old one.
      refine h.unbeaten w hw ?_
      rcases displaces_true hkind hfloat hd with hv | hv
      · exact compare_winning_trans heq hv
      · rw [← heq]
        exact Value.compare_congr BEq.rfl (BEq.symm hv)
    · exact (singleton direction v).unbeaten w hw heq

theorem perm (h : direction.Leads values v) (hperm : values.Perm others) :
    direction.Leads others v where
  mem := hperm.mem_iff.mp h.mem
  unbeaten w hw := h.unbeaten w (hperm.mem_iff.mpr hw)

theorem beq (h : direction.Leads values a) (h' : direction.Leads values b)
    (hkind : a.kind = b.kind) (ha : a.kind ∈ AggregateFunction.max.acceptedKinds) : a == b := by
  obtain ⟨order, horder⟩ := Value.exists_compare hkind ha
  have hab : order ≠ direction.winning := fun heq => h'.unbeaten a h.mem (heq ▸ horder)
  have hba : order.swap ≠ direction.winning := fun heq =>
    h.unbeaten b h'.mem (heq ▸ Value.compare_swap.mp horder)
  have heq : order = .eq := by
    cases direction <;> cases order <;> simp [winning] at hab hba ⊢
  exact Value.compare_eq_iff.mp (heq ▸ horder)

end Leads

end Direction

-- ---------------------------------------------------------------------------
-- Totals
-- ---------------------------------------------------------------------------

namespace Value

variable {a b : Value}

theorem amounts_eq_of_perm {values others : List Value} (h : values.Perm others) :
    amounts values = amounts others := by
  induction h with
  | nil => rfl
  | cons v _ ih => rw [amounts, amounts, ih]
  | swap v w values =>
    simp only [amounts]
    omega
  | trans _ _ ih ih' => exact ih.trans ih'

theorem beq_of_amount (hkind : a.kind = b.kind) (ha : a.kind ∈ AggregateFunction.sum.acceptedKinds)
    (hfloat : a.kind ≠ .float) (h : a.amount = b.amount) : a == b := by
  rw [← compare_eq_iff]
  cases a with
  | int n =>
    cases b with
    | int m => exact congrArg Except.ok (Std.compare_eq_iff_eq.mpr h)
    | _ => cases hkind
  | duration d =>
    cases b with
    | duration e => exact congrArg Except.ok (Std.compare_eq_iff_eq.mpr h)
    | _ => cases hkind
  | float x => exact absurd rfl hfloat
  | _ => simp [kind, AggregateFunction.acceptedKinds] at ha

end Value

-- ---------------------------------------------------------------------------
-- Cells
-- ---------------------------------------------------------------------------

namespace AggregateFunction

variable {f : AggregateFunction} {values others : List Value} {kind : ValueKind} {v w : Value}
  {cell next : f.Cell}

/-- What a cell says of the values it was made from, in whatever order. -/
def Describes : (f : AggregateFunction) → List Value → f.Cell → Prop
  | .avg, _, _ => True
  | .count, values, n => n = values.length
  | .max, values, v => Direction.greatest.Leads values v
  | .min, values, v => Direction.least.Leads values v
  | .sum, values, total => total.amount = Value.amounts values ∧ ∃ v ∈ values, total.kind = v.kind

/-- Values that come out the same in any order: those of one kind that the
function takes, without the floats, or all if it takes every kind. -/
def Orderless (f : AggregateFunction) (values : List Value) : Prop :=
  f.acceptedKinds = [] ∨
    ∀ v ∈ values, v.kind ∈ f.acceptedKinds ∧ v.kind ≠ .float ∧ ∀ w ∈ values, w.kind = v.kind

theorem Describes.first (f : AggregateFunction) {next : f.Cell} (h : f.step none v = .ok next) :
    f.Describes [v] next := by
  cases f with
  | avg => trivial
  | count =>
    cases h
    rfl
  | max | min =>
    cases h
    exact .singleton _ v
  | sum =>
    obtain ⟨-, rfl⟩ := Total.first_ok.mp h
    exact ⟨(Int.add_zero _).symm, _, List.mem_singleton_self _, rfl⟩

theorem Describes.step (h : f.Describes values cell) (hvalues : f.Orderless (values ++ [v]))
    (hs : f.step (some cell) v = .ok next) : f.Describes (values ++ [v]) next := by
  cases f with
  | avg => trivial
  | count =>
    cases h
    cases hs
    simp [Describes]
  | max | min =>
    have hkinds := hvalues.resolve_left (by simp [acceptedKinds])
    obtain ⟨-, hfloat, hv⟩ := hkinds v (by simp)
    exact h.extreme (hv _ (List.mem_append_left _ h.mem)) hfloat hs
  | sum =>
    obtain ⟨hkind, hamount⟩ := Total.amount_add hs
    refine ⟨?_, v, by simp, hkind⟩
    rw [hamount, h.1, Value.amounts_append_singleton]

theorem Describes.perm (h : f.Describes values cell) (hperm : values.Perm others) :
    f.Describes others cell := by
  cases f with
  | avg => trivial
  | count => exact h.trans hperm.length_eq
  | max | min => exact Direction.Leads.perm h hperm
  | sum =>
    obtain ⟨hamount, v, hv, hkind⟩ := h
    exact ⟨hamount.trans (Value.amounts_eq_of_perm hperm), v, hperm.mem_iff.mp hv, hkind⟩

theorem Describes.report_beq {twin : f.Cell} (h : f.Describes values cell)
    (h' : f.Describes values twin) (hf : f ≠ .avg) (hvalues : f.Orderless values)
    (locked locked' : Option ValueKind) : f.report cell locked == f.report twin locked' := by
  cases f with
  | avg => exact absurd rfl hf
  | count =>
    cases h
    cases h'
    exact BEq.rfl
  | max | min =>
    have hkinds := hvalues.resolve_left (by simp [acceptedKinds])
    obtain ⟨haccepted, -, htwin⟩ := hkinds _ h.mem
    exact h.beq h' (htwin _ h'.mem).symm haccepted
  | sum =>
    have hkinds := hvalues.resolve_left (by simp [acceptedKinds])
    obtain ⟨hamount, v, hv, hcell⟩ := h
    obtain ⟨hamount', w, hw, htwin⟩ := h'
    obtain ⟨haccepted, hfloat, hone⟩ := hkinds v hv
    rw [hone w hw] at htwin
    rw [← hcell] at haccepted hfloat htwin
    exact Value.beq_of_amount htwin.symm haccepted hfloat (hamount.trans hamount'.symm)

end AggregateFunction

-- ---------------------------------------------------------------------------
-- Aggregates
-- ---------------------------------------------------------------------------

namespace Accumulator

variable {f : AggregateFunction} {acc twin : Accumulator f} {key other : GroupKey}
  {values others : List Value} {v w w' : Value}

/-- An aggregate that makes use of its lock has it closed for the kind of these
values, which are no floats. -/
structure Settled (acc : Accumulator f) (values : List Value) : Prop where
  kinds : f.acceptedKinds = [] ∨
    ∀ v ∈ values, v.kind ∈ f.acceptedKinds ∧ acc.lock.kind = some v.kind
  exact : ∀ v ∈ values, v.kind ≠ .float

namespace Settled

theorem orderless (h : acc.Settled values) : f.Orderless values := by
  refine h.kinds.imp_right fun hkinds v hv => ?_
  obtain ⟨haccepted, hlock⟩ := hkinds v hv
  exact ⟨haccepted, h.exact v hv, fun w hw =>
    Option.some.inj ((hkinds w hw).2.symm.trans hlock)⟩

theorem add (h : acc.Settled values) (other : GroupKey) (v : Value) :
    (acc.add other v).2.Settled values where
  kinds := by
    refine h.kinds.imp_right fun hkinds w hw => ?_
    obtain ⟨haccepted, hlock⟩ := hkinds w hw
    exact ⟨haccepted, by rw [lock_add, kind_inspect hlock]⟩
  exact := h.exact

theorem add_taken (h : acc.Settled values) (hfloat : v.kind ≠ .float)
    (hok : (acc.add other v).1 = .ok ()) : (acc.add other v).2.Settled (values ++ [v]) where
  kinds := by
    obtain ⟨next, hadvance⟩ := verdict_add.mp hok
    have hinspect := (advance_ok.mp hadvance).1
    refine or_iff_not_imp_left.mpr fun hall w hw => ?_
    rcases List.mem_append.mp hw with hw | hw
    · exact (h.add other v).kinds.resolve_left hall w hw
    · cases List.mem_singleton.mp hw
      have hf : ¬ f.acceptedKinds.isEmpty := fun hempty => hall (List.isEmpty_iff.mp hempty)
      exact ⟨((inspect_ok hf).mp hinspect).1, by rw [lock_add, kind_of_inspect_ok hf hinspect]⟩
  exact w hw := by
    rcases List.mem_append.mp hw with hw | hw
    · exact h.exact w hw
    · cases List.mem_singleton.mp hw
      exact hfloat

theorem perm (h : acc.Settled values) (hperm : values.Perm others) : acc.Settled others where
  kinds := h.kinds.imp_right fun hkinds v hv => hkinds v (hperm.mem_iff.mpr hv)
  exact v hv := h.exact v (hperm.mem_iff.mpr hv)

end Settled

/-- What an aggregate keeps for a group after it took these values for it. -/
structure Summarizes (acc : Accumulator f) (key : GroupKey) (values : List Value) : Prop where
  missing : acc.cells.get? key = none → values = []
  cell : ∀ cell, acc.cells.get? key = some cell → f.Describes values cell
  settled : acc.Settled values

namespace Summarizes

theorem start (key : GroupKey) : Summarizes (Accumulator.start : Accumulator f) key [] where
  missing _ := rfl
  cell cell h := by
    rw [GroupTable.get?_of_isEmpty rfl] at h
    cases h
  settled := ⟨.inr fun v hv => absurd hv List.not_mem_nil, fun v hv => absurd hv List.not_mem_nil⟩

theorem add_of_ne (h : acc.Summarizes key values) (hne : other.canonical ≠ key.canonical) :
    (acc.add other v).2.Summarizes key values where
  missing := by
    rw [cells_add_of_ne hne]
    exact h.missing
  cell := by
    rw [cells_add_of_ne hne]
    exact h.cell
  settled := h.settled.add other v

theorem add (h : acc.Summarizes key values) (heq : other.canonical = key.canonical)
    (hfloat : v.kind ≠ .float) (hok : (acc.add other v).1 = .ok ()) :
    (acc.add other v).2.Summarizes key (values ++ [v]) := by
  have hsettled := h.settled.add_taken hfloat hok
  obtain ⟨next, hadvance⟩ := verdict_add.mp hok
  obtain ⟨-, hstep⟩ := advance_ok.mp hadvance
  rw [GroupTable.get?_congr heq] at hstep
  have hget : (acc.add other v).2.cells.get? key = some next := by
    rw [cells_add_of_ok hadvance, GroupTable.get?_set, if_pos heq]
  have hnext : f.Describes (values ++ [v]) next := by
    cases hcell : acc.cells.get? key with
    | none =>
      rw [hcell] at hstep
      rw [h.missing hcell]
      exact .first f hstep
    | some cell =>
      rw [hcell] at hstep
      exact (h.cell cell hcell).step hsettled.orderless hstep
  refine ⟨fun hnone => ?_, fun cell hcell => ?_, hsettled⟩
  · rw [hget] at hnone
    cases hnone
  · rw [hget] at hcell
    cases hcell
    exact hnext

theorem perm (h : acc.Summarizes key values) (hperm : values.Perm others) :
    acc.Summarizes key others where
  missing hnone := by
    rw [h.missing hnone] at hperm
    exact hperm.nil_eq.symm
  cell cell hcell := (h.cell cell hcell).perm hperm
  settled := h.settled.perm hperm

theorem report_beq (h : acc.Summarizes key values) (h' : twin.Summarizes other values)
    (hf : f ≠ .avg) (hw : acc.get key = .ok w) (hw' : twin.get other = .ok w') : w == w' := by
  obtain ⟨cell, hcell, rfl⟩ := get_ok.mp hw
  obtain ⟨cell', hcell', rfl⟩ := get_ok.mp hw'
  exact (h.cell cell hcell).report_beq (h'.cell cell' hcell') hf h.settled.orderless _ _

end Summarizes

end Accumulator

theorem Aggregate.get_beq {aggregate twin : Aggregate} {values : List Value}
    (hfunction : aggregate.function = twin.function) (hf : aggregate.function ≠ .avg)
    (h : aggregate.accumulator.Summarizes key values)
    (h' : twin.accumulator.Summarizes other values) (hw : aggregate.get key = .ok w)
    (hw' : twin.get other = .ok w') : w == w' := by
  obtain ⟨f, acc⟩ := aggregate
  obtain ⟨_, accTwin⟩ := twin
  cases hfunction
  exact h.report_beq h' hf hw hw'

end StreamQuery
