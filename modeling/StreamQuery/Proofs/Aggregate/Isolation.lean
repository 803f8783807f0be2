import StreamQuery.Aggregate.State
import StreamQuery.Proofs.Grouping.Table
import StreamQuery.Proofs.Outcome

/-!
# Aggregates keep groups apart

Adding to one group leaves what every other group reports as it was
(`get_add_of_ne`), although all groups share one lock. The reason is that a
group has a cell only once the lock is closed, and a closed lock stays as it
is.

Seen from one group, an aggregate that serves many behaves like one that
serves this group alone. `Mirrors` relates the two, and every addition keeps
them related: one to the group itself goes to both (`Mirrors.add`), any other
only to the whole (`Mirrors.add_of_ne`). Related aggregates report the same
(`Mirrors.get_eq`).
-/

namespace StreamQuery

-- ---------------------------------------------------------------------------
-- Locks
-- ---------------------------------------------------------------------------

theorem KindLock.verdict_ok {lock : KindLock} :
    lock.verdict aggregate v accepted = .ok () ↔
      v.kind ∈ accepted ∧ ∀ kind, lock.kind = some kind → kind = v.kind := by
  unfold verdict kind
  cases lock.first with
  | none => by_cases h : v.kind ∈ accepted <;> simp [h]
  | some w =>
    by_cases h : v.kind ∈ accepted <;> by_cases hw : w.kind = v.kind <;> simp [h, hw]

theorem KindLock.first_offered (lock : KindLock) (v : Value) :
    (lock.offered v).first = some (lock.first.getD v) := by
  unfold offered
  cases h : lock.first <;> simp [h]

theorem KindLock.kind_offered (lock : KindLock) (v : Value) :
    (lock.offered v).kind = some (lock.kind.getD v.kind) := by
  unfold offered kind
  cases h : lock.first <;> simp [h]

namespace AggregateFunction

theorem report_of_takes_all {f : AggregateFunction} (h : f.acceptedKinds.isEmpty) (cell : f.Cell)
    (kind other : Option ValueKind) : f.report cell kind = f.report cell other := by
  cases f with
  | count => rfl
  | _ => simp [acceptedKinds] at h

end AggregateFunction

namespace Accumulator

variable {f : AggregateFunction} {acc whole part : Accumulator f} {key other own : GroupKey}
  {v : Value}

theorem inspect_of_takes_all (h : f.acceptedKinds.isEmpty) : acc.inspect v = (.ok (), acc.lock) := by
  simp [inspect, h]

theorem inspect_of_locks (h : ¬ f.acceptedKinds.isEmpty) : acc.inspect v =
    ((acc.lock.offered v).verdict f.name v f.acceptedKinds, acc.lock.offered v) := by
  simp [inspect, h, KindLock.offer]

theorem kind_inspect (h : acc.lock.kind = some kind) : (acc.inspect v).2.kind = some kind := by
  by_cases hf : f.acceptedKinds.isEmpty
  · rw [inspect_of_takes_all hf, h]
  · rw [inspect_of_locks hf, KindLock.kind_offered, h, Option.getD_some]

theorem inspect_ok (hf : ¬ f.acceptedKinds.isEmpty) : (acc.inspect v).1 = .ok () ↔
    v.kind ∈ f.acceptedKinds ∧ ∀ kind, acc.lock.kind = some kind → kind = v.kind := by
  rw [inspect_of_locks hf, KindLock.verdict_ok, KindLock.kind_offered]
  cases acc.lock.kind <;> simp

theorem kind_of_inspect_ok (hf : ¬ f.acceptedKinds.isEmpty) (h : (acc.inspect v).1 = .ok ()) :
    (acc.inspect v).2.kind = some v.kind := by
  have hk := ((inspect_ok hf).mp h).2
  rw [inspect_of_locks hf, KindLock.kind_offered]
  cases hkind : acc.lock.kind with
  | none => rfl
  | some kind => rw [Option.getD_some, hk kind hkind]

-- ---------------------------------------------------------------------------
-- One addition
-- ---------------------------------------------------------------------------

theorem advance_ok : acc.advance key v = .ok cell ↔
    (acc.inspect v).1 = .ok () ∧ f.step (acc.cells.get? key) v = .ok cell := by
  rw [advance, bind_ok]
  exact ⟨fun ⟨_, h⟩ => h, fun h => ⟨(), h⟩⟩

theorem verdict_add : (acc.add key v).1 = .ok () ↔ ∃ cell, acc.advance key v = .ok cell := by
  unfold add
  cases acc.advance key v <;> simp

theorem lock_add : (acc.add key v).2.lock = (acc.inspect v).2 := by
  unfold add
  split <;> rfl

theorem cells_add_of_ok (h : acc.advance key v = .ok cell) :
    (acc.add key v).2.cells = acc.cells.set key cell := by
  simp [add, h]

theorem cells_add_of_error (h : acc.advance key v = .error e) :
    (acc.add key v).2.cells = acc.cells := by
  simp [add, h]

theorem cells_add_of_refused (h : (acc.add key v).1 ≠ .ok ()) :
    (acc.add key v).2.cells = acc.cells := by
  cases hc : acc.advance key v with
  | error e => exact cells_add_of_error hc
  | ok cell => exact absurd (verdict_add.mpr ⟨cell, hc⟩) h

theorem cells_add_of_ne (hne : key.canonical ≠ other.canonical) :
    (acc.add key v).2.cells.get? other = acc.cells.get? other := by
  cases h : acc.advance key v with
  | error e => rw [cells_add_of_error h]
  | ok cell => rw [cells_add_of_ok h, GroupTable.get?_set, if_neg hne]

theorem report_inspect (h : acc.cells.get? other = some cell) :
    f.report cell (acc.inspect v).2.kind = f.report cell acc.lock.kind := by
  rcases acc.locked with hempty | hall | hlocked
  · rw [GroupTable.get?_of_isEmpty hempty] at h
    cases h
  · exact AggregateFunction.report_of_takes_all hall _ _ _
  · obtain ⟨w, hw⟩ := Option.isSome_iff_exists.mp hlocked
    have hkind : acc.lock.kind = some w.kind := by rw [KindLock.kind, hw, Option.map_some]
    rw [kind_inspect hkind, hkind]

-- ---------------------------------------------------------------------------
-- Reports
-- ---------------------------------------------------------------------------

theorem get_ok : acc.get key = .ok w ↔
    ∃ cell, acc.cells.get? key = some cell ∧ f.report cell acc.lock.kind = w := by
  unfold get
  cases acc.cells.get? key <;> simp

/-- Keys of the same bytes are one group. Only the failure to find it names
the key itself. -/
theorem get_congr (h : key.canonical = other.canonical) :
    acc.get key = .ok w ↔ acc.get other = .ok w := by
  rw [get_ok, get_ok, GroupTable.get?_congr h]

theorem get_add_of_ne (hne : key.canonical ≠ other.canonical) (h : acc.get other = .ok w) :
    (acc.add key v).2.get other = .ok w := by
  obtain ⟨cell, hc, hw⟩ := get_ok.mp h
  refine get_ok.mpr ⟨cell, by rw [cells_add_of_ne hne, hc], ?_⟩
  rw [lock_add, report_inspect hc, hw]

theorem get_add_self (h : (acc.add key v).1 = .ok ()) : ∃ w, (acc.add key v).2.get key = .ok w := by
  obtain ⟨cell, hc⟩ := verdict_add.mp h
  exact ⟨_, get_ok.mpr ⟨cell, by rw [cells_add_of_ok hc, GroupTable.get?_set, if_pos rfl], rfl⟩⟩

-- ---------------------------------------------------------------------------
-- One group alone
-- ---------------------------------------------------------------------------

def feed (acc : Accumulator f) (additions : List (GroupKey × Value)) : Accumulator f :=
  additions.foldl (fun acc addition => (acc.add addition.1 addition.2).2) acc

theorem feed_append (additions more : List (GroupKey × Value)) :
    acc.feed (additions ++ more) = (acc.feed additions).feed more :=
  List.foldl_append

/-- `part` has what `whole` has for the group of `key`, and is not locked onto
another kind. -/
structure Mirrors (whole part : Accumulator f) (key : GroupKey) : Prop where
  cell : whole.cells.get? key = part.cells.get? key
  kind : ∀ kind, part.lock.kind = some kind → whole.lock.kind = some kind

namespace Mirrors

theorem start (key : GroupKey) : Mirrors (Accumulator.start : Accumulator f) .start key :=
  ⟨rfl, fun _ h => h⟩

theorem get_eq (h : Mirrors whole part key) : whole.get key = part.get key := by
  unfold get
  rw [h.cell]
  cases hc : part.cells.get? key with
  | none => rfl
  | some cell =>
    refine congrArg Except.ok ?_
    rcases part.locked with hempty | hall | hlocked
    · rw [GroupTable.get?_of_isEmpty hempty] at hc
      cases hc
    · exact AggregateFunction.report_of_takes_all hall _ _ _
    · obtain ⟨w, hw⟩ := Option.isSome_iff_exists.mp hlocked
      have hkind : part.lock.kind = some w.kind := by rw [KindLock.kind, hw, Option.map_some]
      rw [hkind, h.kind _ hkind]

theorem add_of_ne (h : Mirrors whole part key) (hne : other.canonical ≠ key.canonical) :
    Mirrors (whole.add other v).2 part key where
  cell := by rw [cells_add_of_ne hne, h.cell]
  kind kind hk := by rw [lock_add, kind_inspect (h.kind kind hk)]

theorem add_of_error (h : Mirrors whole part key) (he : whole.advance other v = .error e) :
    Mirrors (whole.add other v).2 part key where
  cell := by rw [cells_add_of_error he, h.cell]
  kind kind hk := by rw [lock_add, kind_inspect (h.kind kind hk)]

theorem inspect_ok (h : Mirrors whole part key) (hv : (whole.inspect v).1 = .ok ()) :
    (part.inspect v).1 = .ok () := by
  by_cases hf : f.acceptedKinds.isEmpty
  · rw [inspect_of_takes_all hf]
  · rw [Accumulator.inspect_ok hf] at hv ⊢
    exact ⟨hv.1, fun kind hk => hv.2 kind (h.kind kind hk)⟩

theorem add (h : Mirrors whole part key) (heq : other.canonical = key.canonical)
    (hown : own.canonical = key.canonical) (hv : (whole.add other v).1 = .ok ()) :
    (part.add own v).1 = .ok () ∧ Mirrors (whole.add other v).2 (part.add own v).2 key := by
  obtain ⟨cell, hc⟩ := verdict_add.mp hv
  obtain ⟨hi, hs⟩ := advance_ok.mp hc
  have hi' := h.inspect_ok hi
  have hc' : part.advance own v = .ok cell := by
    rw [advance_ok, GroupTable.get?_congr hown, ← h.cell, ← GroupTable.get?_congr heq]
    exact ⟨hi', hs⟩
  refine ⟨verdict_add.mpr ⟨cell, hc'⟩, ?_, ?_⟩
  · rw [cells_add_of_ok hc, cells_add_of_ok hc', GroupTable.get?_set, GroupTable.get?_set,
      if_pos heq, if_pos hown]
  · intro kind hk
    rw [lock_add] at hk ⊢
    by_cases hf : f.acceptedKinds.isEmpty
    · rw [inspect_of_takes_all hf] at hk ⊢
      exact h.kind kind hk
    · rw [kind_of_inspect_ok hf hi'] at hk
      rw [kind_of_inspect_ok hf hi, hk]

end Mirrors

end Accumulator

end StreamQuery
