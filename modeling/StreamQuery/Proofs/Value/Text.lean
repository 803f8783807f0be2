import StreamQuery.Grouping.Key

/-!
# Which values have a text

Only a time can lack a written form: one before the year 0 on its own clock, or
one whose offset has seconds or is a day or more. A value has a text unless such
a time occurs in it, at whatever depth (`Value.render_eq_none`).
-/

namespace StreamQuery

-- ---------------------------------------------------------------------------
-- Years
-- ---------------------------------------------------------------------------

namespace CivilDate

def firstDay : Int := -719528
def lastDay : Int := 2932896

/-- Years run from March here, so the last 60 days of an era are in January or
February, and in the year after its 400th. -/
theorem yearOfEra_bounds {n : Nat} (h : n < 146097) :
    let year := (n - n / 1460 + n / 36524 - n / 146096) / 365
    let month := (5 * (n - (365 * year + year / 4 - year / 100)) + 2) / 153
    year ≤ 399 ∧ month ≤ 11 ∧ (year = 399 ∧ 10 ≤ month ↔ 146037 ≤ n) := by
  intro year month
  omega

theorem year_ofDay_bounds (number : Int) :
    let era := (number + 719468) / 146097
    400 * era ≤ (ofDay number).year ∧ (ofDay number).year ≤ 400 * era + 400 ∧
      ((ofDay number).year = 400 * era + 400 ↔ 146037 ≤ (number + 719468) % 146097) := by
  have hday : ((number + 719468) % 146097).toNat < 146097 := by omega
  obtain ⟨hyear, hmonth, hlast⟩ := yearOfEra_bounds hday
  simp only [ofDay]
  generalize hn : ((number + 719468) % 146097).toNat = day at hday hyear hmonth hlast ⊢
  generalize (day - day / 1460 + day / 36524 - day / 146096) / 365 = year at hyear hmonth hlast ⊢
  generalize (5 * (day - (365 * year + year / 4 - year / 100)) + 2) / 153 = month at hmonth hlast ⊢
  split <;> split at * <;> omega

theorem year_ofDay_neg {number : Int} : (ofDay number).year < 0 ↔ number < firstDay := by
  have h := year_ofDay_bounds number
  simp only at h
  unfold firstDay
  omega

theorem year_ofDay_le {number : Int} (hn : number ≤ lastDay) : (ofDay number).year ≤ 9999 := by
  have h := year_ofDay_bounds number
  simp only at h
  unfold lastDay at hn
  omega

end CivilDate

-- ---------------------------------------------------------------------------
-- Times
-- ---------------------------------------------------------------------------

namespace Timestamp

/-- The clock of the timestamp is not before the year 0, and ahead of UTC or
behind it by whole minutes, less than a day. -/
structure Writable (t : Timestamp) : Prop where
  year : CivilDate.firstDay * 86400 * nanosPerSecond ≤ t.localNanos
  day : t.offset.natAbs < 86400
  minutes : t.offset % 60 = 0

theorem offsetText_eq_none {offset : Int} :
    offsetText offset = none ↔ ¬ (offset.natAbs < 86400 ∧ offset % 60 = 0) := by
  unfold offsetText
  simp only
  split
  · simp_all
  · split <;> simp <;> omega

theorem render_eq_none {t : Timestamp} : t.render = none ↔ ¬ t.Writable := by
  have hlocal := t.local_range.2
  have hyear : (CivilDate.ofDay (t.localNanos / nanosPerSecond / 86400)).year < 0 ↔
      ¬ CivilDate.firstDay * 86400 * nanosPerSecond ≤ t.localNanos := by
    rw [CivilDate.year_ofDay_neg, CivilDate.firstDay, nanosPerSecond]
    omega
  have hle : (CivilDate.ofDay (t.localNanos / nanosPerSecond / 86400)).year ≤ 9999 := by
    refine CivilDate.year_ofDay_le ?_
    rw [localNanos]
    rw [lastSecond, nanosPerSecond] at hlocal
    rw [CivilDate.lastDay, nanosPerSecond]
    omega
  have hwritable : t.Writable ↔ CivilDate.firstDay * 86400 * nanosPerSecond ≤ t.localNanos ∧
      t.offset.natAbs < 86400 ∧ t.offset % 60 = 0 :=
    ⟨fun h => ⟨h.year, h.day, h.minutes⟩, fun ⟨hy, hd, hm⟩ => ⟨hy, hd, hm⟩⟩
  simp only [render, hyear, hwritable, Int.not_lt.mpr hle, or_false]
  by_cases hy : CivilDate.firstDay * 86400 * nanosPerSecond ≤ t.localNanos
  · rw [if_neg (not_not_intro hy)]
    simp only [hy, true_and, ← offsetText_eq_none]
    cases offsetText t.offset <;> simp
  · simp [hy]

end Timestamp

-- ---------------------------------------------------------------------------
-- Values
-- ---------------------------------------------------------------------------

namespace Value

mutual

def Writable : Value → Prop
  | .time t => t.Writable
  | .tuple items => WritableItems items
  | .object fields => WritableFields fields
  | _ => True
termination_by structural v => v

def WritableItems : List Value → Prop
  | [] => True
  | v :: rest => Writable v ∧ WritableItems rest
termination_by structural items => items

def WritableFields : List (String × Value) → Prop
  | [] => True
  | (_, v) :: rest => Writable v ∧ WritableFields rest
termination_by structural fields => fields

end

mutual

theorem render_eq_none : (v : Value) → (v.render = none ↔ ¬ v.Writable)
  | .null | .int _ | .float _ | .string _ | .bool _ | .duration _ => by simp [render, Writable]
  | .time t => Timestamp.render_eq_none
  | .tuple items => by simpa [render, Writable] using renderItems_eq_none items
  | .object fields => by simpa [render, Writable] using renderFields_eq_none fields
termination_by structural v => v

theorem renderItems_eq_none : (items : List Value) →
    (renderItems items = none ↔ ¬ WritableItems items)
  | [] => by simp [renderItems, WritableItems]
  | v :: rest => by
    have hv := render_eq_none v
    have hrest := renderItems_eq_none rest
    rw [renderItems, WritableItems, Classical.not_and_iff_not_or_not, ← hv, ← hrest]
    cases v.render <;> cases renderItems rest <;> simp
termination_by structural items => items

theorem renderFields_eq_none : (fields : List (String × Value)) →
    (renderFields fields = none ↔ ¬ WritableFields fields)
  | [] => by simp [renderFields, WritableFields]
  | (name, v) :: rest => by
    have hv := render_eq_none v
    have hrest := renderFields_eq_none rest
    rw [renderFields, WritableFields, Classical.not_and_iff_not_or_not, ← hv, ← hrest]
    cases v.render <;> cases renderFields rest <;> simp
termination_by structural fields => fields

end

instance (v : Value) : Decidable v.Writable :=
  decidable_of_iff (v.render ≠ none) ((not_congr v.render_eq_none).trans Classical.not_not)

end Value

end StreamQuery
