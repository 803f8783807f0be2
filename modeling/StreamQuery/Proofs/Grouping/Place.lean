import StreamQuery.Proofs.Grouping.Rows

/-!
# What concerns one group

Of all that the aggregates of a grouping keep, a record concerns the locks and the cells
of its own group: their places. What becomes of the places when the aggregates take their
inputs, or the first of them refuses, depends on nothing else (`addEach_place`), and
neither does the row of the group (`Stands.row`).
-/

namespace StreamQuery

/-- What an aggregate keeps as far as one group is concerned. -/
structure Place where
  function : AggregateFunction
  lock : KindLock
  cell : Option function.Cell

namespace Place

def start (f : AggregateFunction) : Place := ⟨f, .unlocked, none⟩

def counted (n : Nat) : Place := ⟨.count, .unlocked, some n⟩

def inspect (place : Place) (v : Value) : Except Error Unit × KindLock :=
  if place.function.acceptedKinds.isEmpty then (.ok (), place.lock)
  else place.lock.offer place.function.name v place.function.acceptedKinds

def advance (place : Place) (v : Value) : Except Error place.function.Cell := do
  (place.inspect v).1
  place.function.step place.cell v

def add (place : Place) (v : Value) : Except Error Unit × Place :=
  let lock := (place.inspect v).2
  match place.advance v with
  | .ok cell => (.ok (), ⟨place.function, lock, some cell⟩)
  | .error e => (.error e, ⟨place.function, lock, place.cell⟩)

def addEach : List Place → List Value → Except Error Unit × List Place
  | place :: places, v :: inputs =>
    match place.add v with
    | (.error e, added) => (.error e, added :: places)
    | (.ok (), added) =>
      let (outcome, others) := addEach places inputs
      (outcome, added :: others)
  | places, _ => (.ok (), places)

def get? (place : Place) : Option Value :=
  place.cell.map fun cell => place.function.report cell place.lock.kind

end Place

namespace Aggregate

def place (aggregate : Aggregate) (key : GroupKey) : Place :=
  ⟨aggregate.function, aggregate.accumulator.lock, aggregate.accumulator.cells.get? key⟩

theorem place_start (f : AggregateFunction) (key : GroupKey) :
    (Aggregate.start f).place key = .start f := by
  rw [place, start, Accumulator.start, GroupTable.get?_of_isEmpty rfl]
  rfl

theorem place_congr (h : key.canonical = other.canonical) (aggregate : Aggregate) :
    aggregate.place key = aggregate.place other := by
  rw [place, place, GroupTable.get?_congr h]

theorem get_place {aggregate : Aggregate} :
    aggregate.get key = .ok v ↔ (aggregate.place key).get? = some v := by
  rw [Aggregate.get, Accumulator.get_ok, Place.get?, Option.map_eq_some_iff]
  rfl

theorem place_add (aggregate : Aggregate) (key : GroupKey) (v : Value) :
    (aggregate.add key v).1 = ((aggregate.place key).add v).1 ∧
      (aggregate.add key v).2.place key = ((aggregate.place key).add v).2 := by
  obtain ⟨f, acc⟩ := aggregate
  have hinspect : ((Aggregate.mk f acc).place key).inspect v = acc.inspect v := rfl
  cases h : acc.advance key v with
  | ok cell =>
    have hadvance : ((Aggregate.mk f acc).place key).advance v = .ok cell := h
    simp only [Aggregate.add, Accumulator.add, h, Place.add, hadvance, hinspect]
    simp [place, GroupTable.get?_set]
  | error e =>
    have hadvance : ((Aggregate.mk f acc).place key).advance v = .error e := h
    simp only [Aggregate.add, Accumulator.add, h, Place.add, hadvance, hinspect]
    simp [place]

end Aggregate

namespace Grouping

variable {g : Grouping} {scope : Scope} {groups : Groups} {record : Record} {key other : GroupKey}
  {places after : List Place} {keys : List GroupKey} {inputs : List Value}

theorem addEach_place (key : GroupKey) (aggregates : List Aggregate) (inputs : List Value) :
    (addEach key aggregates inputs).1 =
        (Place.addEach (aggregates.map (·.place key)) inputs).1 ∧
      (addEach key aggregates inputs).2.map (·.place key) =
        (Place.addEach (aggregates.map (·.place key)) inputs).2 := by
  induction aggregates generalizing inputs with
  | nil => cases inputs <;> exact ⟨rfl, rfl⟩
  | cons aggregate aggregates ih =>
    cases inputs with
    | nil => exact ⟨rfl, rfl⟩
    | cons v inputs =>
      obtain ⟨hverdict, hadded⟩ := aggregate.place_add key v
      obtain ⟨houtcome, hothers⟩ := ih inputs
      rw [addEach, List.map_cons, Place.addEach]
      rcases hadd : aggregate.add key v with ⟨verdict, added⟩
      rcases hplace : (aggregate.place key).add v with ⟨verdict', added'⟩
      rw [hadd, hplace] at hverdict hadded
      subst hverdict hadded
      cases verdict with
      | error e => exact ⟨rfl, rfl⟩
      | ok taken => exact ⟨houtcome, congrArg (_ :: ·) hothers⟩

/-- The places of a group, and the keys under which the groups appeared. -/
structure Stands (groups : Groups) (key : GroupKey) (places : List Place) (keys : List GroupKey) :
    Prop where
  places : groups.aggregates.map (·.place key) = places
  keys : groups.seen.keys = keys

namespace Stands

theorem begin (g : Grouping) (key : GroupKey) :
    Stands g.begin key (g.functions.map Place.start) [] where
  places := by simp [Grouping.begin, Aggregate.place_start]
  keys := rfl

theorem congr (h : Stands groups key places keys) (heq : key.canonical = other.canonical) :
    Stands groups other places keys where
  places := by simpa only [Aggregate.place_congr heq] using h.places
  keys := h.keys

theorem contains (h : Stands groups key places keys) :
    groups.seen.contains key = keys.any fun k => k.canonical == key.canonical := by
  rw [Bool.eq_iff_iff, GroupTable.contains_iff, h.keys]
  simp

theorem row (h : Stands groups key places keys) (values : List Value)
    (hvalues : places.map Place.get? = values.map some) :
    g.row groups key = Record.ofLists g.output (key.values ++ values) := by
  have hreport : groups.aggregates.mapM (fun aggregate => aggregate.get key) = .ok values := by
    rw [← h.places, List.map_map, ← List.forall₂_eq_eq_eq, List.forall₂_map_left_iff,
      List.forall₂_map_right_iff] at hvalues
    exact mapM_ok.mpr (hvalues.imp fun _ _ hv => Aggregate.get_place.mpr hv)
  rw [Grouping.row, hreport, ok_bind]

theorem previousRow (h : Stands groups key places keys) (values : List Value)
    (hvalues : places.map Place.get? = values.map some) : g.previousRow groups key =
      if keys.any fun k => k.canonical == key.canonical then
        some <$> Record.ofLists g.output (key.values ++ values)
      else .ok none := by
  rw [Grouping.previousRow, h.contains, h.row values hvalues]

theorem previousRow_begin (g : Grouping) (key : GroupKey) :
    g.previousRow g.begin key = .ok none := by
  rw [Grouping.previousRow, (begin g key).contains]
  rfl

theorem absorb (h : Stands groups key places keys)
    (hadd : Place.addEach places inputs = (.ok (), after)) :
    ∃ absorbed, Grouping.absorb groups key inputs = .ok absorbed ∧ Stands absorbed key after
      (if keys.any fun k => k.canonical == key.canonical then keys else keys ++ [key]) := by
  obtain ⟨hverdict, hplaces⟩ := addEach_place key groups.aggregates inputs
  rw [h.places, hadd] at hverdict hplaces
  refine ⟨⟨(addEach key groups.aggregates inputs).2, groups.seen.upsert key () id⟩, ?_, hplaces, ?_⟩
  · rw [Grouping.absorb, addAll_eq, hverdict]
    rfl
  · rw [GroupTable.keys_upsert, h.contains, h.keys]

theorem takeIn (h : Stands groups key places keys) (hinsert : record.isRetraction = false)
    (he : g.evaluate scope record = .ok (key, inputs))
    (hadd : Place.addEach places inputs = (.ok (), after)) :
    ∃ absorbed, g.takeIn scope groups record = .ok (key, absorbed) ∧ Stands absorbed key after
      (if keys.any fun k => k.canonical == key.canonical then keys else keys ++ [key]) := by
  obtain ⟨absorbed, habsorb, hstands⟩ := h.absorb hadd
  exact ⟨absorbed, takeIn_ok.mpr ⟨hinsert, inputs, he, habsorb⟩, hstands⟩

theorem accept (h : Stands groups key places keys) (values : List Value)
    (hupdates : g.emission = .updates) (hinsert : record.isRetraction = false)
    (he : g.evaluate scope record = .ok (key, inputs))
    (hprevious : g.previousRow groups key = .ok previous)
    (hadd : Place.addEach places inputs = (.ok (), after))
    (hvalues : after.map Place.get? = values.map some)
    (hcurrent : Record.ofLists g.output (key.values ++ values) = .ok current) :
    ∃ absorbed, g.accept scope groups record = .ok (changes previous current, absorbed) ∧
      Stands absorbed key after
        (if keys.any fun k => k.canonical == key.canonical then keys else keys ++ [key]) := by
  obtain ⟨absorbed, habsorb, hstands⟩ := h.absorb hadd
  refine ⟨absorbed, ?_, hstands⟩
  rw [Grouping.accept, hinsert, he, hupdates]
  simp only [Bool.false_eq_true, ↓reduceIte, ok_bind, hprevious, habsorb, hstands.row values hvalues,
    hcurrent]
  rfl

end Stands

def countRow (x : Double) (n : Int64) : Record :=
  ⟨[(⟨none, "x"⟩, .float x), (⟨none, "n"⟩, .int n)], false⟩

theorem takeAll_zeros : ∃ groups, countByX.takeAll .empty zeros countByX.begin = .ok groups ∧
    groups.seen.keys.mapM (countByX.row groups) = .ok [countRow (Double.neg .zero) 2] := by
  have hzeros : (⟨[.float .zero]⟩ : GroupKey).canonical =
      (⟨[.float (Double.neg .zero)]⟩ : GroupKey).canonical := by decide
  obtain ⟨between, hfirst, hbetween⟩ : ∃ between,
      countByX.takeIn .empty countByX.begin ⟨[(⟨none, "x"⟩, .float (Double.neg .zero))], false⟩ =
        .ok (⟨[.float (Double.neg .zero)]⟩, between) ∧
      Stands between ⟨[.float (Double.neg .zero)]⟩ [.counted 1] [⟨[.float (Double.neg .zero)]⟩] :=
    (Stands.begin countByX _).takeIn rfl rfl rfl
  obtain ⟨groups, hsecond, hgroups⟩ : ∃ groups,
      countByX.takeIn .empty between ⟨[(⟨none, "x"⟩, .float .zero)], false⟩ =
        .ok (⟨[.float .zero]⟩, groups) ∧
      Stands groups ⟨[.float .zero]⟩ [.counted 2] [⟨[.float (Double.neg .zero)]⟩] :=
    (hbetween.congr hzeros.symm).takeIn rfl rfl rfl
  refine ⟨groups, bind_ok.mpr ⟨_, hfirst, bind_ok.mpr ⟨_, hsecond, rfl⟩⟩, ?_⟩
  rw [hgroups.keys, List.mapM_cons, (hgroups.congr hzeros).row [.int 2] rfl]
  rfl

end Grouping

end StreamQuery
