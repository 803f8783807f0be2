import StreamQuery.Stream

/-!
# Runs of a stream

A run asks a stream for one item after the other. The outside world may differ
each time: `collect` takes the signals of every moment. Items in front of a
stream come first, whatever happens outside (`collect_prepend`).
-/

namespace StreamQuery

mutual

/-- All items, if the first one is asked for at the first moment, and so on. -/
def RecordStream.collect (moments : Nat → Signals) : RecordStream → List Item
  | .mk pull => (pull (moments 0)).collect moments
termination_by structural stream => stream

def Pull.collect (moments : Nat → Signals) : Pull → List Item
  | .done => []
  | .yield item rest => item :: rest.collect fun k => moments (k + 1)
termination_by structural pull => pull

end

def later (n : Nat) (moments : Nat → Signals) : Nat → Signals := fun k => moments (k + n)

theorem later_later (n k : Nat) (moments : Nat → Signals) :
    later k (later n moments) = later (n + k) moments :=
  funext fun j => congrArg moments (by omega)

namespace RecordStream

theorem ofItems_nil : ofItems [] = empty := rfl

theorem ofItems_cons (item : Item) (rest : List Item) :
    ofItems (item :: rest) = cons item (ofItems rest) := rfl

theorem collect_next (stream : RecordStream) (moments : Nat → Signals) :
    stream.collect moments = (stream.next (moments 0)).collect moments := by
  cases stream
  rfl

@[simp] theorem collect_empty (moments : Nat → Signals) : empty.collect moments = [] := rfl

@[simp] theorem collect_cons (item : Item) (rest : RecordStream) (moments : Nat → Signals) :
    (cons item rest).collect moments = item :: rest.collect (later 1 moments) := rfl

theorem collect_prepend (items : List Item) (rest : RecordStream) (moments : Nat → Signals) :
    (prepend items rest).collect moments = items ++ rest.collect (later items.length moments) := by
  induction items generalizing moments with
  | nil => rfl
  | cons item items ih =>
    have hlater : later items.length (later 1 moments) = later (items.length + 1) moments := rfl
    rw [prepend, List.foldr_cons, collect_cons]
    exact congrArg (item :: ·) ((ih _).trans (by rw [hlater]; rfl))

theorem collect_ofItems (items : List Item) (moments : Nat → Signals) :
    (ofItems items).collect moments = items := by
  rw [ofItems, collect_prepend, collect_empty, List.append_nil]

end RecordStream

-- ---------------------------------------------------------------------------
-- Changed and dropped items
-- ---------------------------------------------------------------------------

/-- When a stream asks its source: as soon as it is asked itself, and from then
on at the same moment again or at a later one. -/
structure Paced (asked : Nat → Nat) : Prop where
  first : asked 0 = 0
  forward : ∀ n, asked n ≤ asked (n + 1)

def again (asked : Nat → Nat) : Nat → Nat
  | 0 => 0
  | n + 1 => asked n

def onward (asked : Nat → Nat) : Nat → Nat
  | 0 => 0
  | n + 1 => asked n + 1

theorem Paced.again {asked : Nat → Nat} (h : Paced asked) : Paced (again asked) where
  first := rfl
  forward
    | 0 => Nat.zero_le _
    | n + 1 => h.forward n

theorem Paced.onward {asked : Nat → Nat} (h : Paced asked) : Paced (onward asked) where
  first := rfl
  forward
    | 0 => Nat.zero_le _
    | n + 1 => Nat.succ_le_succ (h.forward n)

mutual

/-- Items that are dropped take no moment of their own, so that the source may be
asked several times at one moment. -/
theorem RecordStream.collect_filterMap (f : Item → Option Item) : (stream : RecordStream) →
    (moments : Nat → Signals) → ∃ asked, Paced asked ∧
      (stream.filterMap f).collect moments = (stream.collect (moments ∘ asked)).filterMap f
  | .mk pull, moments => by
    obtain ⟨asked, hpaced, heq⟩ := Pull.collect_filterMap f (pull (moments 0)) moments
    refine ⟨asked, hpaced, ?_⟩
    rw [RecordStream.collect, Function.comp_apply, hpaced.first]
    exact heq
termination_by structural stream => stream

theorem Pull.collect_filterMap (f : Item → Option Item) : (pull : Pull) →
    (moments : Nat → Signals) → ∃ asked, Paced asked ∧
      (pull.filterMap f (moments 0)).collect moments = (pull.collect (moments ∘ asked)).filterMap f
  | .done, moments => ⟨id, ⟨rfl, fun n => Nat.le_succ n⟩, rfl⟩
  | .yield item rest, moments => by
    rw [Pull.filterMap]
    cases hf : f item with
    | none =>
      -- The answer comes from the rest, at the moment that is already there.
      obtain ⟨asked, hpaced, heq⟩ := RecordStream.collect_filterMap f rest moments
      refine ⟨again asked, hpaced.again, ?_⟩
      rw [Pull.collect, List.filterMap_cons_none hf]
      exact (RecordStream.collect_next _ _).symm.trans heq
    | some out =>
      obtain ⟨asked, hpaced, heq⟩ := RecordStream.collect_filterMap f rest (later 1 moments)
      refine ⟨onward asked, hpaced.onward, ?_⟩
      rw [Pull.collect, Pull.collect, List.filterMap_cons_some hf]
      exact congrArg (out :: ·) heq
termination_by structural pull => pull

end

mutual

theorem RecordStream.collect_map (f : Item → Item) : (stream : RecordStream) →
    (moments : Nat → Signals) →
      (stream.filterMap fun item => some (f item)).collect moments = (stream.collect moments).map f
  | .mk pull, moments => Pull.collect_map f (pull (moments 0)) moments
termination_by structural stream => stream

theorem Pull.collect_map (f : Item → Item) : (pull : Pull) → (moments : Nat → Signals) →
    (pull.filterMap (fun item => some (f item)) (moments 0)).collect moments =
      (pull.collect moments).map f
  | .done, _ => rfl
  | .yield item rest, moments => congrArg (f item :: ·) (rest.collect_map f (later 1 moments))
termination_by structural pull => pull

end

mutual

theorem RecordStream.filterMap_some : (stream : RecordStream) → stream.filterMap some = stream
  | .mk pull =>
    congrArg RecordStream.mk (funext fun signals => Pull.filterMap_some signals (pull signals))
termination_by structural stream => stream

theorem Pull.filterMap_some (signals : Signals) : (pull : Pull) → pull.filterMap some signals = pull
  | .done => rfl
  | .yield item rest => congrArg (Pull.yield item) rest.filterMap_some
termination_by structural pull => pull

end

theorem RecordStream.next_filterMap (f : Item → Option Item) (stream : RecordStream)
    (signals : Signals) :
    (stream.filterMap f).next signals = (stream.next signals).filterMap f signals := by
  cases stream
  rfl

mutual

/-- Going over a stream twice is to go over it once with both changes. What the first
one drops the second one never sees, at whatever moment it is asked for. -/
theorem RecordStream.filterMap_filterMap (f g : Item → Option Item) : (stream : RecordStream) →
    (stream.filterMap f).filterMap g = stream.filterMap fun item => (f item).bind g
  | .mk pull =>
    congrArg RecordStream.mk
      (funext fun signals => Pull.filterMap_filterMap f g signals (pull signals))
termination_by structural stream => stream

theorem Pull.filterMap_filterMap (f g : Item → Option Item) (signals : Signals) : (pull : Pull) →
    (pull.filterMap f signals).filterMap g signals =
      pull.filterMap (fun item => (f item).bind g) signals
  | .done => rfl
  | .yield item rest => by
    have ih := RecordStream.filterMap_filterMap f g rest
    rw [Pull.filterMap, Pull.filterMap]
    cases hf : f item with
    | none =>
      simp only [Option.bind_none]
      rw [← RecordStream.next_filterMap, ih]
    | some between =>
      simp only [Option.bind_some]
      rw [Pull.filterMap, ih]
termination_by structural pull => pull

end

end StreamQuery
