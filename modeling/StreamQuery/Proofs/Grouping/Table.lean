import StreamQuery.Grouping.Table

/-!
# What tables of groups hold

A look-up after a change is described by the canonical bytes of the two keys
alone: `get?_set` for stored values, `keys_upsert` for the order of the slots.
No two slots have keys of the same bytes (`keys_distinct`).
-/

namespace StreamQuery.GroupTable

variable {table : GroupTable α} {key other : GroupKey}

-- ---------------------------------------------------------------------------
-- Slots
-- ---------------------------------------------------------------------------

theorem slot?_eq_some_iff : table.slot? key = some place ↔
    ∃ entry, table.entries[place]? = some entry ∧ entry.1.canonical = key.canonical := by
  unfold slot?
  rw [table.indexed key.canonical place, Option.map_eq_some_iff]

theorem slot?_congr (h : key.canonical = other.canonical) : table.slot? key = table.slot? other := by
  unfold slot?
  rw [h]

theorem contains_congr (h : key.canonical = other.canonical) :
    table.contains key = table.contains other := by
  unfold contains
  rw [slot?_congr h]

theorem get?_congr (h : key.canonical = other.canonical) : table.get? key = table.get? other := by
  unfold get?
  rw [slot?_congr h]

theorem canonical_eq_of_slot? (h : table.slot? key = some place)
    (h' : table.slot? other = some place) : key.canonical = other.canonical := by
  obtain ⟨entry, he, hk⟩ := slot?_eq_some_iff.mp h
  obtain ⟨entry', he', hk'⟩ := slot?_eq_some_iff.mp h'
  rw [he] at he'
  cases he'
  exact hk.symm.trans hk'

theorem get?_of_slot? (h : table.slot? key = some place) :
    table.get? key = table.entries[place]?.map Prod.snd := by
  unfold get?
  rw [h]
  change (table.entries[place]? >>= fun entry => pure entry.2) = _
  cases table.entries[place]? <;> rfl

theorem get?_of_slot?_none (h : table.slot? key = none) : table.get? key = none := by
  simp [get?, h]

theorem isSome_get? : (table.get? key).isSome = table.contains key := by
  unfold contains
  cases h : table.slot? key with
  | none => simp [get?_of_slot?_none h]
  | some place =>
    obtain ⟨entry, he, -⟩ := slot?_eq_some_iff.mp h
    simp [get?_of_slot? h, he]

-- ---------------------------------------------------------------------------
-- Keys
-- ---------------------------------------------------------------------------

theorem getElem?_keys {place : Nat} : table.keys[place]? = table.entries[place]?.map Prod.fst := by
  simp [keys, toList]

theorem contains_iff : table.contains key ↔ ∃ k ∈ table.keys, k.canonical = key.canonical := by
  unfold contains
  rw [Option.isSome_iff_exists]
  constructor
  · rintro ⟨place, h⟩
    obtain ⟨entry, he, hk⟩ := slot?_eq_some_iff.mp h
    exact ⟨entry.1, List.mem_of_getElem? (getElem?_keys.trans (by rw [he]; rfl)), hk⟩
  · rintro ⟨k, hk, hc⟩
    obtain ⟨place, hp⟩ := List.mem_iff_getElem?.mp hk
    rw [getElem?_keys, Option.map_eq_some_iff] at hp
    obtain ⟨entry, he, rfl⟩ := hp
    exact ⟨place, slot?_eq_some_iff.mpr ⟨entry, he, hc⟩⟩

theorem keys_distinct : table.keys.Pairwise fun j k => j.canonical ≠ k.canonical := by
  rw [List.pairwise_iff_getElem]
  intro i j hi hj hlt heq
  have at_place : ∀ place (h : place < table.keys.length),
      table.slot? table.keys[place] = some place := by
    intro place h
    have hk : table.keys[place]? = table.entries[place]?.map Prod.fst := getElem?_keys
    rw [List.getElem?_eq_getElem h, eq_comm, Option.map_eq_some_iff] at hk
    obtain ⟨entry, he, hk⟩ := hk
    exact slot?_eq_some_iff.mpr ⟨entry, he, by rw [hk]⟩
  have h := (at_place i hi).symm.trans ((slot?_congr heq).trans (at_place j hj))
  cases h
  exact Nat.lt_irrefl _ hlt

theorem exists_keys_eq (h : table.contains key) : ∃ first stored rest,
    table.keys = first ++ stored :: rest ∧ stored.canonical = key.canonical ∧
      ∀ k ∈ first ++ rest, k.canonical ≠ key.canonical := by
  obtain ⟨stored, hmem, hc⟩ := contains_iff.mp h
  obtain ⟨first, rest, heq⟩ := List.append_of_mem hmem
  refine ⟨first, stored, rest, heq, hc, ?_⟩
  have hd : table.keys.Pairwise fun j k => j.canonical ≠ k.canonical := keys_distinct
  rw [heq, List.pairwise_middle Ne.symm, List.pairwise_cons] at hd
  intro k hk
  rw [← hc]
  exact (hd.1 k hk).symm

@[simp] theorem keys_empty : (empty : GroupTable α).keys = [] := rfl

@[simp] theorem contains_empty : (empty : GroupTable α).contains key = false := by
  simp [contains, slot?, empty]

theorem get?_of_isEmpty (h : table.isEmpty) : table.get? key = none := by
  have hentries : table.entries = #[] := Array.isEmpty_iff.mp h
  rw [← Option.not_isSome_iff_eq_none, isSome_get?, contains_iff]
  simp [keys, toList, hentries]

-- ---------------------------------------------------------------------------
-- Changes
-- ---------------------------------------------------------------------------

theorem keys_append (absent : ¬ table.contains key) :
    (table.append key a absent).keys = table.keys ++ [key] := by
  simp [keys, toList, append]

theorem keys_modify : (table.modify key f).keys = table.keys := by
  refine List.ext_getElem? fun place => ?_
  rw [getElem?_keys, getElem?_keys]
  unfold modify
  split
  · rw [Array.getElem?_modify]
    split
    · cases table.entries[place]? <;> simp [update]
    · rfl
  · rfl

theorem slot?_modify : (table.modify key f).slot? other = table.slot? other := by
  unfold modify
  split <;> rfl

theorem get?_append (absent : ¬ table.contains key) :
    (table.append key a absent).get? other =
      if key.canonical = other.canonical then some a else table.get? other := by
  have hslot : (table.append key a absent).slot? other =
      if key.canonical = other.canonical then some table.entries.size else table.slot? other := by
    simp [slot?, append, Std.HashMap.getElem?_insert]
  split
  · rename_i heq
    rw [if_pos heq] at hslot
    rw [get?_of_slot? hslot]
    simp [append]
  · rename_i hne
    rw [if_neg hne] at hslot
    cases hs : table.slot? other with
    | none => rw [get?_of_slot?_none (hslot.trans hs), get?_of_slot?_none hs]
    | some place =>
      obtain ⟨entry, he, -⟩ := slot?_eq_some_iff.mp hs
      have hlt := (Array.getElem?_eq_some_iff.mp he).1
      rw [get?_of_slot? (hslot.trans hs), get?_of_slot? hs]
      simp [append, Array.getElem?_push, Nat.ne_of_lt hlt]

theorem get?_modify : (table.modify key f).get? other =
    if key.canonical = other.canonical then (table.get? other).map f else table.get? other := by
  cases hs : table.slot? other with
  | none =>
    rw [get?_of_slot?_none (slot?_modify.trans hs), get?_of_slot?_none hs]
    simp
  | some place =>
    rw [get?_of_slot? (slot?_modify.trans hs), get?_of_slot? hs]
    by_cases heq : key.canonical = other.canonical
    · have hk : table.slot? key = some place := (slot?_congr heq).trans hs
      rw [if_pos heq]
      simp only [modify, hk, Array.getElem?_modify, ↓reduceIte]
      cases table.entries[place]? <;> simp [update]
    · rw [if_neg heq]
      unfold modify
      split
      · rename_i at_key hk
        have hne : at_key ≠ place := by
          rintro rfl
          exact heq (canonical_eq_of_slot? hk hs)
        simp [Array.getElem?_modify, hne]
      · rfl

theorem get?_set : (table.set key a).get? other =
    if key.canonical = other.canonical then some a else table.get? other := by
  unfold set
  split
  · rename_i present
    rw [get?_modify]
    split
    · rename_i heq
      have hs : (table.get? other).isSome := by rw [isSome_get?, ← contains_congr heq, present]
      obtain ⟨old, ho⟩ := Option.isSome_iff_exists.mp hs
      simp [ho]
    · rfl
  · exact get?_append _

theorem get?_upsert : (table.upsert key a f).get? key = some (f ((table.get? key).getD a)) := by
  unfold upsert
  split
  · rename_i present
    obtain ⟨old, ho⟩ := Option.isSome_iff_exists.mp (isSome_get?.trans present)
    rw [get?_modify, if_pos rfl, ho]
    rfl
  · rename_i absent
    rw [get?_append, if_pos rfl, get?_of_slot?_none (slot?_eq_none absent)]
    rfl

theorem set_eq_upsert : table.set key a = table.upsert key a fun _ => a := rfl

theorem keys_upsert : (table.upsert key a f).keys =
    if table.contains key then table.keys else table.keys ++ [key] := by
  unfold upsert
  split
  · exact keys_modify
  · exact keys_append _

theorem contains_upsert : (table.upsert key a f).contains other ↔
    key.canonical = other.canonical ∨ table.contains other := by
  rw [contains_iff, keys_upsert]
  split
  · rename_i present
    rw [← contains_iff]
    constructor
    · exact .inr
    · rintro (heq | h)
      · rwa [← contains_congr heq]
      · exact h
  · rw [contains_iff]
    constructor
    · rintro ⟨k, hk, hc⟩
      rcases List.mem_append.mp hk with hk | hk
      · exact .inr ⟨k, hk, hc⟩
      · cases List.mem_singleton.mp hk
        exact .inl hc
    · rintro (heq | ⟨k, hk, hc⟩)
      · exact ⟨key, by simp, heq⟩
      · exact ⟨k, by simp [hk], hc⟩

end StreamQuery.GroupTable
