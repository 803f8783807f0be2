import Mathlib.Data.List.Infix
import StreamQuery.Proofs.Grouping.Table
import StreamQuery.Proofs.Value.Encoding

/-!
# Tables as lists of associations

An association list looks a key up by `==` and puts a new one at its end. A
table of groups is one: the index in front of its entries leads every key to
the first entry with an equal key (`exists_toList_eq`), so looking a key up and
changing what it has are those of the list of entries (`get?_toList`,
`contains_toList`, `toList_modify`, `toList_upsert`).
-/

namespace StreamQuery

-- ---------------------------------------------------------------------------
-- First occurrences
-- ---------------------------------------------------------------------------

theorem eraseDups_append_singleton [BEq α] (xs : List α) (a : α) :
    (xs ++ [a]).eraseDups = if xs.eraseDups.any (a == ·) then xs.eraseDups else xs.eraseDups ++ [a] := by
  have h : ∀ seen : List α, List.eraseDupsBy.loop (· == ·) (xs ++ [a]) seen =
      if (List.eraseDupsBy.loop (· == ·) xs seen).any (a == ·) then
        List.eraseDupsBy.loop (· == ·) xs seen
      else List.eraseDupsBy.loop (· == ·) xs seen ++ [a] := by
    induction xs with
    | nil =>
      intro seen
      simp only [List.nil_append, List.eraseDupsBy.loop, List.any_reverse]
      cases seen.any (a == ·) <;> simp
    | cons x xs ih =>
      intro seen
      simp only [List.cons_append, List.eraseDupsBy.loop]
      obtain hx | hx := Bool.eq_false_or_eq_true (seen.any (x == ·)) <;> simp only [hx, ih]
  exact h []

theorem modify_append_cons (f : α → α) (first : List α) (a : α) (rest : List α) :
    (first ++ a :: rest).modify first.length f = first ++ f a :: rest := by
  induction first with
  | nil => rfl
  | cons b first ih => exact congrArg (b :: ·) ih

theorem eraseDups_isPrefix [BEq α] (xs ys : List α) : xs.eraseDups <+: (xs ++ ys).eraseDups := by
  induction ys generalizing xs with
  | nil => rw [List.append_nil]
  | cons y ys ih =>
    have hstep : xs.eraseDups <+: (xs ++ [y]).eraseDups := by
      rw [eraseDups_append_singleton]
      split
      · exact List.prefix_refl _
      · exact List.prefix_append _ _
    rw [List.append_cons]
    exact hstep.trans (ih (xs ++ [y]))

-- ---------------------------------------------------------------------------
-- Lists of associations
-- ---------------------------------------------------------------------------

namespace Association

variable {α : Type} {key : GroupKey} {entries first rest : List (GroupKey × α)}
  {entry : GroupKey × α}

def lookup (key : GroupKey) (entries : List (GroupKey × α)) : Option α :=
  (entries.find? fun entry => key == entry.1).map Prod.snd

def contains (key : GroupKey) (entries : List (GroupKey × α)) : Bool :=
  entries.any fun entry => key == entry.1

def modify (key : GroupKey) (f : α → α) : List (GroupKey × α) → List (GroupKey × α)
  | [] => []
  | (k, a) :: rest => if key == k then (k, f a) :: rest else (k, a) :: modify key f rest

def upsert (key : GroupKey) (a : α) (f : α → α) (entries : List (GroupKey × α)) :
    List (GroupKey × α) :=
  if contains key entries then modify key f entries else entries ++ [(key, f a)]

def set (key : GroupKey) (a : α) (entries : List (GroupKey × α)) : List (GroupKey × α) :=
  upsert key a (fun _ => a) entries

theorem modify_of_first (hfirst : ∀ other ∈ first, ¬ key == other.1) (hentry : key == entry.1)
    (f : α → α) :
    modify key f (first ++ entry :: rest) = first ++ (entry.1, f entry.2) :: rest := by
  induction first with
  | nil => exact if_pos hentry
  | cons other first ih =>
    have htail := ih fun other hmem => hfirst other (List.mem_cons_of_mem _ hmem)
    rw [List.cons_append, List.cons_append, modify, if_neg (hfirst other List.mem_cons_self), htail]

theorem modify_of_not_contains (h : ¬ contains key entries) (f : α → α) :
    modify key f entries = entries := by
  induction entries with
  | nil => rfl
  | cons entry rest ih =>
    rw [contains, List.any_cons, Bool.or_eq_true, not_or] at h
    rw [modify, if_neg h.1, ih h.2]

end Association

-- ---------------------------------------------------------------------------
-- Tables
-- ---------------------------------------------------------------------------

namespace GroupTable

variable {α : Type} {table : GroupTable α} {key : GroupKey}

def Bounded (table : GroupTable α) : Prop := ∀ k ∈ table.keys, k.Bounded

theorem bounded_entry (hb : table.Bounded) (h : entry ∈ table.toList) : entry.1.Bounded :=
  hb entry.1 (List.mem_map_of_mem h)

theorem canonical_eq_iff (hb : table.Bounded) (hkey : key.Bounded) (h : entry ∈ table.toList) :
    entry.1.canonical = key.canonical ↔ key == entry.1 := by
  rw [eq_comm, GroupKey.canonical_eq_iff hkey (bounded_entry hb h)]

theorem exists_toList_eq (hb : table.Bounded) (hkey : key.Bounded)
    (h : table.slot? key = some place) : ∃ first entry rest,
      table.toList = first ++ entry :: rest ∧ first.length = place ∧ key == entry.1 ∧
        ∀ other ∈ first, ¬ key == other.1 := by
  obtain ⟨entry, he, hc⟩ := slot?_eq_some_iff.mp h
  have hentry : table.toList[place]? = some entry := by rw [toList, Array.getElem?_toList, he]
  obtain ⟨hlt, rfl⟩ := List.getElem?_eq_some_iff.mp hentry
  have hsplit : table.toList =
      table.toList.take place ++ table.toList[place] :: table.toList.drop (place + 1) := by
    rw [← List.drop_eq_getElem_cons hlt, List.take_append_drop]
  refine ⟨_, _, _, hsplit, List.length_take_of_le hlt.le,
    (canonical_eq_iff hb hkey (List.getElem_mem hlt)).mp hc, ?_⟩
  intro other hother heq
  obtain ⟨earlier, hearlier, rfl⟩ := List.mem_take_iff_getElem.mp hother
  have hlt' : earlier < table.toList.length := by omega
  have hslot : table.slot? key = some earlier := by
    refine slot?_eq_some_iff.mpr ⟨table.toList[earlier], ?_, ?_⟩
    · rw [← Array.getElem?_toList]
      exact List.getElem?_eq_getElem hlt'
    · exact (canonical_eq_iff hb hkey (List.getElem_mem hlt')).mpr heq
  rw [h] at hslot
  cases hslot
  omega

theorem contains_toList (hb : table.Bounded) (hkey : key.Bounded) :
    table.contains key = Association.contains key table.toList := by
  rw [Bool.eq_iff_iff, contains_iff, Association.contains, List.any_eq_true]
  constructor
  · rintro ⟨k, hk, hc⟩
    obtain ⟨entry, hmem, rfl⟩ := List.mem_map.mp hk
    exact ⟨entry, hmem, (canonical_eq_iff hb hkey hmem).mp hc⟩
  · rintro ⟨entry, hmem, heq⟩
    exact ⟨entry.1, List.mem_map_of_mem hmem, (canonical_eq_iff hb hkey hmem).mpr heq⟩

theorem get?_toList (hb : table.Bounded) (hkey : key.Bounded) :
    table.get? key = Association.lookup key table.toList := by
  rw [Association.lookup]
  cases h : table.slot? key with
  | some place =>
    obtain ⟨first, entry, rest, hsplit, rfl, heq, hfirst⟩ := exists_toList_eq hb hkey h
    have hfind : table.toList.find? (fun entry => key == entry.1) = some entry :=
      List.find?_eq_some_iff_append.mpr
        ⟨heq, first, rest, hsplit, fun other hmem => by simp [hfirst other hmem]⟩
    rw [get?_of_slot? h, hfind, ← Array.getElem?_toList]
    change table.toList[first.length]?.map Prod.snd = _
    rw [hsplit, List.getElem?_append_right le_rfl, Nat.sub_self, List.getElem?_cons_zero]
  | none =>
    have habsent : ¬ table.contains key := by simp [contains, h]
    rw [contains_toList hb hkey, Association.contains, List.any_eq_true] at habsent
    have hfind : table.toList.find? (fun entry => key == entry.1) = none :=
      List.find?_eq_none.mpr fun entry hmem heq => habsent ⟨entry, hmem, heq⟩
    rw [get?_of_slot?_none h, hfind, Option.map_none]

theorem toList_modify (hb : table.Bounded) (hkey : key.Bounded) (f : α → α) :
    (table.modify key f).toList = Association.modify key f table.toList := by
  cases h : table.slot? key with
  | some place =>
    obtain ⟨first, entry, rest, hsplit, rfl, heq, hfirst⟩ := exists_toList_eq hb hkey h
    have hmodify : (table.modify key f).toList = table.toList.modify first.length (update f) := by
      simp only [modify, h, toList, Array.toList_modify]
    rw [hmodify, hsplit, Association.modify_of_first hfirst heq, modify_append_cons]
    rfl
  | none =>
    have habsent : ¬ table.contains key := by simp [contains, h]
    rw [contains_toList hb hkey] at habsent
    rw [Association.modify_of_not_contains habsent]
    simp only [modify, h]

theorem toList_append (absent : ¬ table.contains key) (a : α) :
    (table.append key a absent).toList = table.toList ++ [(key, a)] := by
  simp [toList, append]

theorem toList_upsert (hb : table.Bounded) (hkey : key.Bounded) (a : α) (f : α → α) :
    (table.upsert key a f).toList = Association.upsert key a f table.toList := by
  rw [Association.upsert, ← contains_toList hb hkey, upsert]
  split
  · exact toList_modify hb hkey f
  · exact toList_append _ (f a)

theorem toList_set (hb : table.Bounded) (hkey : key.Bounded) (a : α) :
    (table.set key a).toList = Association.set key a table.toList := by
  rw [set_eq_upsert]
  exact toList_upsert hb hkey a fun _ => a

theorem size_index (table : GroupTable α) : table.index.size = table.size := by
  have hnodup : (table.keys.map GroupKey.canonical).Nodup := List.pairwise_map.mpr keys_distinct
  have hmem : ∀ bytes, bytes ∈ table.index.keys ↔ bytes ∈ table.keys.map GroupKey.canonical := by
    intro bytes
    rw [Std.HashMap.mem_keys, Std.HashMap.mem_iff_isSome_getElem?, Option.isSome_iff_exists,
      List.mem_iff_getElem?]
    refine exists_congr fun place => ?_
    rw [table.indexed bytes place, List.getElem?_map, getElem?_keys, Option.map_map]
    rfl
  have hperm := (List.perm_ext_iff_of_nodup Std.HashMap.nodup_keys hnodup).mpr hmem
  rw [← Std.HashMap.length_keys, hperm.length_eq, List.length_map, keys, List.length_map]
  rfl

end GroupTable

end StreamQuery
