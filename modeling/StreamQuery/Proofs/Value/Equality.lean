import StreamQuery.Grouping.Key
import StreamQuery.Record

/-!
# Equality of values

Two values are equal exactly when their normal forms are the same
(`Value.beq_iff`): every float stands for its representative, every time for
its instant at the offset next to UTC. So `==` is an equivalence on values, and with it on group
keys and records, although it identifies values that differ in representation.
-/

namespace StreamQuery

-- ---------------------------------------------------------------------------
-- Times, durations and floats
-- ---------------------------------------------------------------------------

namespace Timestamp

/-- The offset closest to UTC at which the calendar has a date for an instant. -/
def nearestOffset (nanos : Int) : Int :=
  if nanos < firstSecond * nanosPerSecond then
    -((nanos - firstSecond * nanosPerSecond) / nanosPerSecond)
  else if nanos < (lastSecond + 1) * nanosPerSecond then 0
  else -((nanos - (lastSecond + 1) * nanosPerSecond) / nanosPerSecond) - 1

theorem nearestOffset_range (t : Timestamp) :
    (-93599 ≤ nearestOffset t.nanos ∧ nearestOffset t.nanos ≤ 93599) ∧
      WithinCalendar (t.nanos + nearestOffset t.nanos * nanosPerSecond) := by
  have hoffset := t.offset_range
  have hlocal := t.local_range
  unfold WithinCalendar firstSecond lastSecond nanosPerSecond at hlocal
  unfold nearestOffset WithinCalendar firstSecond lastSecond nanosPerSecond
  split
  · omega
  · split <;> omega

def normal (t : Timestamp) : Timestamp :=
  ⟨t.nanos, nearestOffset t.nanos, t.nearestOffset_range.1, t.nearestOffset_range.2⟩

theorem normal_eq_iff {t u : Timestamp} : t.normal = u.normal ↔ t.nanos = u.nanos := by
  constructor
  · exact congrArg Timestamp.nanos
  · intro h
    simp [normal, h]

end Timestamp

theorem Duration.eq_iff {d e : Duration} : d = e ↔ d.nanos = e.nanos := by
  cases d
  cases e
  simp

theorem Double.normalize_normalize (x : Double) : x.normalize.normalize = x.normalize := by
  unfold normalize
  split
  · rfl
  · split
    · rfl
    · simp_all

-- ---------------------------------------------------------------------------
-- Normal forms
-- ---------------------------------------------------------------------------

namespace Value

mutual

def normal : Value → Value
  | .float x => .float x.normalize
  | .time t => .time t.normal
  | .tuple items => .tuple (normalItems items)
  | .object fields => .object (normalFields fields)
  | v => v
termination_by structural v => v

def normalItems : List Value → List Value
  | [] => []
  | v :: rest => normal v :: normalItems rest
termination_by structural items => items

def normalFields : List (String × Value) → List (String × Value)
  | [] => []
  | (name, v) :: rest => (name, normal v) :: normalFields rest
termination_by structural fields => fields

end

mutual

theorem normal_normal : (v : Value) → v.normal.normal = v.normal
  | .null | .int _ | .string _ | .bool _ | .time _ | .duration _ => rfl
  | .float x => congrArg Value.float x.normalize_normalize
  | .tuple items => congrArg Value.tuple (normalItems_normalItems items)
  | .object fields => congrArg Value.object (normalFields_normalFields fields)
termination_by structural v => v

theorem normalItems_normalItems : (items : List Value) →
    normalItems (normalItems items) = normalItems items
  | [] => rfl
  | v :: rest => by
    rw [normalItems, normalItems, normal_normal v, normalItems_normalItems rest]
termination_by structural items => items

theorem normalFields_normalFields : (fields : List (String × Value)) →
    normalFields (normalFields fields) = normalFields fields
  | [] => rfl
  | (name, v) :: rest => by
    rw [normalFields, normalFields, normal_normal v, normalFields_normalFields rest]
termination_by structural fields => fields

end

mutual

theorem beq_iff : (a b : Value) → (beq a b = true ↔ a.normal = b.normal)
  | .null, b | .int _, b | .string _, b | .bool _, b => by
    cases b <;> simp [beq, normal]
  | .float x, b => by cases b <;> simp [beq, normal]
  | .time t, b => by cases b <;> simp [beq, normal, Timestamp.normal_eq_iff]
  | .duration d, b => by cases b <;> simp [beq, normal, Duration.eq_iff]
  | .tuple as, b => by
    cases b with
    | tuple bs => simpa [beq, normal] using beqItems_iff as bs
    | _ => simp [beq, normal]
  | .object as, b => by
    cases b with
    | object bs => simpa [beq, normal] using beqFields_iff as bs
    | _ => simp [beq, normal]
termination_by structural a => a

theorem beqItems_iff : (as bs : List Value) →
    (beqItems as bs = true ↔ normalItems as = normalItems bs)
  | [], bs => by cases bs <;> simp [beqItems, normalItems]
  | a :: as, bs => by
    cases bs with
    | nil => simp [beqItems, normalItems]
    | cons b bs => simp [beqItems, normalItems, beq_iff a b, beqItems_iff as bs]
termination_by structural as => as

theorem beqFields_iff : (as bs : List (String × Value)) →
    (beqFields as bs = true ↔ normalFields as = normalFields bs)
  | [], bs => by cases bs <;> simp [beqFields, normalFields]
  | (m, a) :: as, bs => by
    cases bs with
    | nil => simp [beqFields, normalFields]
    | cons field bs =>
      simp [beqFields, normalFields, beq_iff a field.2, beqFields_iff as bs, and_assoc]
termination_by structural as => as

end

theorem beq_def (a b : Value) : (a == b) = a.beq b := rfl

theorem eq_iff_normal {a b : Value} : a == b ↔ a.normal = b.normal := beq_iff a b

theorem normal_beq (a b : Value) : (a.normal == b.normal) = (a == b) := by
  rw [Bool.eq_iff_iff, eq_iff_normal, eq_iff_normal, normal_normal, normal_normal]

instance : EquivBEq Value where
  rfl := eq_iff_normal.mpr rfl
  symm h := eq_iff_normal.mpr (eq_iff_normal.mp h).symm
  trans h k := eq_iff_normal.mpr ((eq_iff_normal.mp h).trans (eq_iff_normal.mp k))

theorem normalItems_eq_map (items : List Value) : normalItems items = items.map normal := by
  induction items with
  | nil => rfl
  | cons v rest ih => simp [normalItems, ih]

theorem length_normalItems (items : List Value) : (normalItems items).length = items.length := by
  rw [normalItems_eq_map, List.length_map]

theorem length_normalFields (fields : List (String × Value)) :
    (normalFields fields).length = fields.length := by
  induction fields with
  | nil => rfl
  | cons f rest ih => simp [normalFields, ih]

theorem items_beq_iff {as bs : List Value} : as == bs ↔ as.map normal = bs.map normal := by
  induction as generalizing bs with
  | nil => cases bs <;> simp
  | cons a as ih => cases bs <;> simp [ih, eq_iff_normal]

end Value

-- ---------------------------------------------------------------------------
-- Keys and records
-- ---------------------------------------------------------------------------

theorem GroupKey.beq_iff {j k : GroupKey} :
    j == k ↔ j.values.map Value.normal = k.values.map Value.normal := by
  rw [← Value.normalItems_eq_map, ← Value.normalItems_eq_map]
  exact Value.beqItems_iff j.values k.values

instance : EquivBEq GroupKey where
  rfl := GroupKey.beq_iff.mpr rfl
  symm h := GroupKey.beq_iff.mpr (GroupKey.beq_iff.mp h).symm
  trans h k := GroupKey.beq_iff.mpr ((GroupKey.beq_iff.mp h).trans (GroupKey.beq_iff.mp k))

namespace Record

/-- Equality of names and values, whatever the two records are marked as. -/
def sameRow (a b : Record) : Bool := a.names == b.names && a.values == b.values

theorem sameRow_iff {a b : Record} : a.sameRow b ↔
    a.names = b.names ∧ a.values.map Value.normal = b.values.map Value.normal := by
  rw [sameRow, Bool.and_eq_true, beq_iff_eq, Value.items_beq_iff]

theorem beq_iff {a b : Record} : a == b ↔ a.sameRow b ∧ a.isRetraction = b.isRetraction := by
  have h : (a == b) = (a.sameRow b && a.isRetraction == b.isRetraction) := rfl
  rw [h, Bool.and_eq_true, beq_iff_eq]

theorem sameRow_symm {a b : Record} (h : a.sameRow b) : b.sameRow a :=
  sameRow_iff.mpr ⟨(sameRow_iff.mp h).1.symm, (sameRow_iff.mp h).2.symm⟩

theorem sameRow_trans {a b c : Record} (h : a.sameRow b) (k : b.sameRow c) : a.sameRow c := by
  rw [sameRow_iff] at h k ⊢
  exact ⟨h.1.trans k.1, h.2.trans k.2⟩

instance : EquivBEq Record where
  rfl := beq_iff.mpr ⟨sameRow_iff.mpr ⟨rfl, rfl⟩, rfl⟩
  symm h := beq_iff.mpr ⟨sameRow_symm (beq_iff.mp h).1, (beq_iff.mp h).2.symm⟩
  trans h k := beq_iff.mpr
    ⟨sameRow_trans (beq_iff.mp h).1 (beq_iff.mp k).1, (beq_iff.mp h).2.trans (beq_iff.mp k).2⟩

end Record

end StreamQuery
