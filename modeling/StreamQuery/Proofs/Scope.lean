import Mathlib.Data.List.Find
import Mathlib.Data.List.Pairwise
import StreamQuery.Scope

/-!
# Names in scopes

`Frame.Gives` says which value a frame gives for a name, and `Scope.Gives`
which frame of a scope a name reads: the innermost that binds it. Looking a
name up gives that value, and fails only for a name that no frame binds
(`get_eq_ok`, `get_eq_error`).

A record in front of a scope hides the names that address one of its columns
and no others (`get_withRecord_of_none`). Such a name reads the column that the
record itself would give, unless an earlier column, also addressed, stands in
front of the one with exactly that name (`get_withRecord_of_binds`). With
qualified columns, or with columns that do not address each other, that cannot
be.
-/

namespace StreamQuery

/-- The name addresses a column of the frame. -/
def Frame.Binds (frame : Frame) (name : Name) : Prop := ∃ column ∈ frame, name.addresses column.1

instance (frame : Frame) (name : Name) : Decidable (frame.Binds name) :=
  inferInstanceAs (Decidable (∃ column ∈ frame, name.addresses column.1))

/-- The value of the first column of exactly this name, or where there is none
the value of the first column that the name addresses. -/
inductive Frame.Gives (name : Name) (v : Value) : Frame → Prop where
  | exact (before after : Frame) (hfirst : ∀ column ∈ before, column.1 ≠ name) :
      Gives name v (before ++ (name, v) :: after)
  | addressed (before after : Frame) {other : Name} (haddr : name.addresses other)
      (hfirst : ∀ column ∈ before, ¬ name.addresses column.1)
      (hnone : ∀ column ∈ before ++ (other, v) :: after, column.1 ≠ name) :
      Gives name v (before ++ (other, v) :: after)

/-- The value that the innermost frame gives that binds the name. -/
inductive Scope.Gives (name : Name) (v : Value) : Scope → Prop where
  | innermost (inner outer : List Frame) {frame : Frame}
      (hinner : ∀ frame ∈ inner, ¬ frame.Binds name) (h : Frame.Gives name v frame) :
      Gives name v ⟨inner ++ frame :: outer⟩

variable {frame : Frame} {scope : Scope} {record : Record} {name : Name} {v : Value} {e : Error}

-- ---------------------------------------------------------------------------
-- Addressing
-- ---------------------------------------------------------------------------

theorem Name.addresses_iff {name other : Name} (hn : name.isQualified) (ho : other.isQualified) :
    name.addresses other ↔ name = other := by
  obtain ⟨source, hs⟩ := Option.isSome_iff_exists.mp hn
  obtain ⟨source', hs'⟩ := Option.isSome_iff_exists.mp ho
  cases name
  cases other
  cases hs
  cases hs'
  simp [addresses, and_comm]

theorem Name.addresses_self (name : Name) : name.addresses name := by
  unfold addresses
  cases name.source <;> simp

theorem Name.addresses_comm (name other : Name) : name.addresses other = other.addresses name := by
  rw [addresses, addresses, BEq.comm (a := name.column)]
  cases name.source <;> cases other.source <;> simp [BEq.comm]

-- ---------------------------------------------------------------------------
-- One frame
-- ---------------------------------------------------------------------------

namespace Frame

theorem lookup_eq (frame : Frame) (name : Name) : frame.lookup name =
    ((frame.find? fun column => column.1 == name).or
      (frame.find? fun column => name.addresses column.1)).map Prod.snd := by
  unfold lookup
  cases frame.find? fun column => column.1 == name <;> rfl

theorem lookup_eq_some : frame.lookup name = some v ↔ Gives name v frame := by
  simp only [lookup_eq, Option.map_eq_some_iff, Option.or_eq_some_iff,
    List.find?_eq_some_iff_append, List.find?_eq_none, Bool.not_eq_true', Bool.eq_false_iff,
    beq_iff_eq, ne_eq]
  constructor
  · rintro ⟨⟨other, v⟩, ⟨rfl, before, after, rfl, hfirst⟩ |
      ⟨hnone, haddr, before, after, rfl, hfirst⟩, rfl⟩
    · exact .exact before after hfirst
    · exact .addressed before after haddr hfirst hnone
  · intro h
    cases h with
    | exact before after hfirst => exact ⟨_, .inl ⟨rfl, before, after, rfl, hfirst⟩, rfl⟩
    | addressed before after haddr hfirst hnone =>
      exact ⟨_, .inr ⟨hnone, haddr, before, after, rfl, hfirst⟩, rfl⟩

theorem lookup_eq_none : frame.lookup name = none ↔ ¬ frame.Binds name := by
  simp only [lookup_eq, Option.map_eq_none_iff, Option.or_eq_none_iff, List.find?_eq_none,
    Binds, not_exists, not_and]
  refine ⟨And.right, fun h => ⟨fun column hc heq => h column hc ?_, h⟩⟩
  rw [beq_iff_eq.mp heq]
  exact name.addresses_self

theorem lookup_eq_get? (h : name ∈ record.names →
      ∀ other ∈ record.names, name.addresses other → other = name) :
    lookup record.columns name = record.get? name := by
  rw [lookup_eq, Record.get?]
  by_cases hmem : name ∈ record.names
  · have hsame : ∀ column ∈ record.columns, (column.1 == name) = name.addresses column.1 := by
      intro column hc
      rw [Bool.eq_iff_iff, beq_iff_eq]
      constructor
      · intro heq
        rw [heq]
        exact name.addresses_self
      · exact h hmem column.1 (List.mem_map_of_mem hc)
    rw [List.find?_congr hsame, Option.or_self]
  · have hnone : record.columns.find? (fun column => column.1 == name) = none := by
      refine List.find?_eq_none.mpr fun column hc heq => hmem ?_
      exact beq_iff_eq.mp heq ▸ List.mem_map_of_mem hc
    rw [hnone, Option.none_or]

end Frame

-- ---------------------------------------------------------------------------
-- The frames of a scope
-- ---------------------------------------------------------------------------

namespace Scope

theorem resolve_eq (name : Name) (frames : List Frame) : resolve name frames =
    (frames.findSome? fun frame => frame.lookup name).elim
      (.error (.notFound s!"variable {name.render}")) .ok := by
  induction frames with
  | nil => rfl
  | cons frame outer ih =>
    rw [resolve, List.findSome?_cons]
    cases frame.lookup name with
    | some v => rfl
    | none => exact ih

theorem get_eq_ok : scope.get name = .ok v ↔ Gives name v scope := by
  have hfound : scope.get name = .ok v ↔
      scope.frames.findSome? (fun frame => frame.lookup name) = some v := by
    rw [get, resolve_eq]
    cases scope.frames.findSome? fun frame => frame.lookup name <;> simp
  rw [hfound, List.findSome?_eq_some_iff]
  constructor
  · rintro ⟨inner, frame, outer, hframes, h, hinner⟩
    obtain ⟨frames⟩ := scope
    cases hframes
    exact .innermost inner outer (fun frame hf => Frame.lookup_eq_none.mp (hinner frame hf))
      (Frame.lookup_eq_some.mp h)
  · rintro ⟨inner, outer, hinner, h⟩
    exact ⟨_, _, _, rfl, Frame.lookup_eq_some.mpr h,
      fun frame hf => Frame.lookup_eq_none.mpr (hinner frame hf)⟩

theorem get_eq_error : scope.get name = .error e ↔
    e = .notFound s!"variable {name.render}" ∧ ∀ frame ∈ scope.frames, ¬ frame.Binds name := by
  simp only [← Frame.lookup_eq_none, ← List.findSome?_eq_none_iff]
  rw [get, resolve_eq]
  cases scope.frames.findSome? fun frame => frame.lookup name <;> simp [eq_comm]

theorem mem_of_get (h : scope.get name = .ok v) :
    ∃ frame ∈ scope.frames, ∃ other, (other, v) ∈ frame := by
  obtain ⟨inner, outer, -, hframe⟩ := get_eq_ok.mp h
  refine ⟨_, List.mem_append_right inner List.mem_cons_self, ?_⟩
  cases hframe with
  | exact before after => exact ⟨name, by simp⟩
  | @addressed before after other => exact ⟨other, by simp⟩

-- ---------------------------------------------------------------------------
-- A record in front
-- ---------------------------------------------------------------------------

theorem get_withRecord_of_some (h : Frame.lookup record.columns name = some v) :
    (scope.withRecord record).get name = .ok v := by
  simp [get, withRecord, resolve, h]

theorem get_withRecord_of_none (h : ¬ Frame.Binds record.columns name) :
    (scope.withRecord record).get name = scope.get name := by
  simp [get, withRecord, resolve, Frame.lookup_eq_none.mpr h]

theorem get_withRecord_of_binds (h : Frame.Binds record.columns name)
    (hexact : name ∈ record.names →
      ∀ other ∈ record.names, name.addresses other → other = name) :
    ∃ v, record.get? name = some v ∧ (scope.withRecord record).get name = .ok v := by
  obtain ⟨column, hfind⟩ := Option.isSome_iff_exists.mp (List.find?_isSome.mpr h)
  have hget : record.get? name = some column.2 := by rw [Record.get?, hfind, Option.map_some]
  exact ⟨column.2, hget, get_withRecord_of_some (by rw [Frame.lookup_eq_get? hexact, hget])⟩

theorem get_withRecord_of_mem (hq : ∀ name ∈ record.names, name.isQualified)
    (h : name ∈ record.names) :
    ∃ v, record.get? name = some v ∧ (scope.withRecord record).get name = .ok v := by
  obtain ⟨column, hc, rfl⟩ := List.mem_map.mp h
  exact get_withRecord_of_binds ⟨column, hc, column.1.addresses_self⟩ fun _ other ho haddr =>
    ((Name.addresses_iff (hq _ h) (hq other ho)).mp haddr).symm

theorem get_withRecord_of_pairwise
    (hapart : record.names.Pairwise fun name other => ¬ name.addresses other)
    (h : Frame.Binds record.columns name) :
    ∃ v, record.get? name = some v ∧ (scope.withRecord record).get name = .ok v := by
  have : Std.Symm fun name other : Name => ¬ name.addresses other :=
    ⟨fun name other h => by rwa [Name.addresses_comm]⟩
  refine get_withRecord_of_binds h fun hmem other ho haddr => ?_
  by_contra hne
  exact hapart.forall hmem ho (Ne.symm hne) haddr

/-- The columns that come first here are not the same: the scope reads the
column of exactly this name, the record the first that is addressed. -/
example :
    let record : Record := ⟨[(⟨some "t", "a"⟩, .int 1), (⟨none, "a"⟩, .int 2)], false⟩
    ((empty.withRecord record).get ⟨none, "a"⟩, record.get? ⟨none, "a"⟩) =
      (.ok (.int 2), some (.int 1)) := rfl

end Scope

/-- Looking a name up in a scope fails with one failure and exactly when no
frame binds the name. Otherwise it gives the value of the innermost frame that
binds it, there of the first column with exactly that name if there is one and
else of the first that the name addresses. So a record in front of a scope
changes what a name reads only if the name addresses one of its columns; if
these columns do not address each other, the scope then reads what the record
gives. -/
theorem names_resolve_inside_out :
    (∀ (scope : Scope) (name : Name) (e : Error), scope.get name = .error e ↔
      e = .notFound s!"variable {name.render}" ∧
        ∀ frame ∈ scope.frames, ¬ frame.Binds name) ∧
    (∀ (scope : Scope) (name : Name) (v : Value), scope.get name = .ok v ↔
      Scope.Gives name v scope) ∧
    (∀ (scope : Scope) (record : Record) (name : Name),
      (scope.withRecord record).get name ≠ scope.get name →
        Frame.Binds record.columns name) ∧
    (∀ (scope : Scope) (record : Record) (name : Name),
      record.names.Pairwise (fun field other => ¬ field.addresses other) →
      Frame.Binds record.columns name →
        ∃ v, record.get? name = some v ∧ (scope.withRecord record).get name = .ok v) := by
  refine ⟨fun scope name e => Scope.get_eq_error, fun scope name v => Scope.get_eq_ok,
    fun scope record name hchanged => ?_,
    fun scope record name => Scope.get_withRecord_of_pairwise⟩
  by_contra hunbound
  exact hchanged (Scope.get_withRecord_of_none hunbound)

def Scope.surroundings : Scope :=
  .ofBindings [(⟨some "t", "a"⟩, .int 1), (⟨none, "a"⟩, .int 2), (⟨some "p", "limit"⟩, .int 10)]

def Record.joined : Record := ⟨[(⟨some "t", "a"⟩, .int 3), (⟨some "u", "a"⟩, .int 4)], false⟩

theorem names_resolve_inside_out_of_joined :
    (Scope.surroundings.withRecord .joined).get ⟨none, "a"⟩ ≠
      Scope.surroundings.get ⟨none, "a"⟩ ∧
    Frame.Binds Record.joined.columns ⟨none, "a"⟩ ∧
    Record.joined.names.Pairwise (fun field other => ¬ field.addresses other) ∧
    (∃ v, Record.joined.get? ⟨none, "a"⟩ = some v ∧
      (Scope.surroundings.withRecord .joined).get ⟨none, "a"⟩ = .ok v) ∧
    Scope.surroundings.get ⟨none, "a"⟩ = .ok (.int 2) ∧
    (Scope.surroundings.withRecord .joined).get ⟨none, "limit"⟩ = .ok (.int 10) ∧
    (Scope.surroundings.withRecord .joined).get ⟨none, "b"⟩ =
      .error (.notFound "variable b") := by
  obtain ⟨herror, hok, hchanged, hrecord⟩ := names_resolve_inside_out
  have hbare : Scope.surroundings.get ⟨none, "a"⟩ = .ok (.int 2) :=
    (hok _ _ _).mpr (.innermost [] [] (by decide)
      (.exact [(⟨some "t", "a"⟩, .int 1)] [(⟨some "p", "limit"⟩, .int 10)] (by decide)))
  have hlimit : (Scope.surroundings.withRecord .joined).get ⟨none, "limit"⟩ = .ok (.int 10) :=
    (hok _ _ _).mpr (.innermost [Record.joined.columns] [] (by decide)
      (.addressed [(⟨some "t", "a"⟩, .int 1), (⟨none, "a"⟩, .int 2)] [] rfl (by decide) (by decide)))
  have hchange : (Scope.surroundings.withRecord .joined).get ⟨none, "a"⟩ ≠
      Scope.surroundings.get ⟨none, "a"⟩ := by
    have hinside : (Scope.surroundings.withRecord .joined).get ⟨none, "a"⟩ = .ok (.int 3) := rfl
    simp [hinside, hbare]
  have hbinds := hchanged .surroundings .joined _ hchange
  have hapart : Record.joined.names.Pairwise fun field other => ¬ field.addresses other := by
    decide
  exact ⟨hchange, hbinds, hapart, hrecord .surroundings .joined _ hapart hbinds, hbare, hlimit,
    (herror _ _ _).mpr ⟨rfl, by decide⟩⟩

end StreamQuery
