import StreamQuery.Proofs.Grouping.Association

/-!
# Sequences of calls on a table

However a table of groups is used, it answers as the association list of its
entries does (`requests_agree`). One request keeps the two in step
(`onTable_eq`) and so does any sequence of them (`answerAll_eq`). Of the
entries, requests only ever change the values; the keys are those that came
first, in the order in which they came (`keys_answerAll`).
-/

namespace StreamQuery

/-- What a table promises of its index: it has one place for every entry, the
one at which the entry is, and no two entries have equal keys. -/
structure GroupTable.Consistent (table : GroupTable α) : Prop where
  size : table.index.size = table.size
  places : ∀ (place : Nat) (entry : GroupKey × α), table.entries[place]? = some entry →
    table.index[entry.1.canonical]? = some place
  distinct : table.keys.Pairwise fun j k => ¬ j == k

theorem GroupTable.consistent (table : GroupTable α) : table.Consistent where
  size := table.size_index
  places _ entry h := slot?_eq_some_iff.mpr ⟨entry, h, rfl⟩
  distinct := keys_distinct.imp fun hne heq => hne (GroupKey.canonical_eq_of_beq heq)

-- ---------------------------------------------------------------------------
-- Requests
-- ---------------------------------------------------------------------------

/-- A call on a table. One that changes what a key has returns it afterwards,
but for `set`, which returns it as it was before. -/
inductive Request (α : Type) where
  | set (key : GroupKey) (a : α)
  | modify (key : GroupKey) (f : α → α)
  | upsert (key : GroupKey) (a : α) (f : α → α)
  | get (key : GroupKey)
  | contains (key : GroupKey)
  | entries
  | keys
  | values
  | size

inductive Answer (α : Type) where
  | value (a : Option α)
  | truth (b : Bool)
  | entries (entries : List (GroupKey × α))
  | keys (keys : List GroupKey)
  | values (values : List α)
  | size (n : Nat)

namespace Request

variable {α : Type} {request : Request α} {table : GroupTable α} {key : GroupKey}

def key? : Request α → Option GroupKey
  | .set key _ | .modify key _ | .upsert key _ _ | .get key | .contains key => some key
  | .entries | .keys | .values | .size => none

def creates? : Request α → Option GroupKey
  | .set key _ | .upsert key _ _ => some key
  | _ => none

def onTable : Request α → GroupTable α → Answer α × GroupTable α
  | .set key a, table =>
    let (previous, after) := table.exchange key a
    (.value previous, after)
  | .modify key f, table =>
    let after := table.modify key f
    (.value (after.get? key), after)
  | .upsert key a f, table =>
    let after := table.upsert key a f
    (.value (after.get? key), after)
  | .get key, table => (.value (table.get? key), table)
  | .contains key, table => (.truth (table.contains key), table)
  | .entries, table => (.entries table.toList, table)
  | .keys, table => (.keys table.keys, table)
  | .values, table => (.values table.values, table)
  | .size, table => (.size table.size, table)

def onList : Request α → List (GroupKey × α) → Answer α × List (GroupKey × α)
  | .set key a, list => (.value (Association.lookup key list), Association.set key a list)
  | .modify key f, list =>
    (.value ((Association.lookup key list).map f), Association.modify key f list)
  | .upsert key a f, list =>
    (.value (some (f ((Association.lookup key list).getD a))), Association.upsert key a f list)
  | .get key, list => (.value (Association.lookup key list), list)
  | .contains key, list => (.truth (Association.contains key list), list)
  | .entries, list => (.entries list, list)
  | .keys, list => (.keys (list.map Prod.fst), list)
  | .values, list => (.values (list.map Prod.snd), list)
  | .size, list => (.size list.length, list)

def Bounded (request : Request α) : Prop := ∀ key ∈ request.key?, key.Bounded

theorem onTable_eq (hb : table.Bounded) (hr : request.Bounded) :
    (request.onTable table).1 = (request.onList table.toList).1 ∧
      (request.onTable table).2.toList = (request.onList table.toList).2 := by
  cases request with
  | set key a =>
    have hkey : key.Bounded := hr key rfl
    refine ⟨?_, GroupTable.toList_set hb hkey a⟩
    exact congrArg Answer.value (GroupTable.get?_toList hb hkey)
  | modify key f =>
    have hkey : key.Bounded := hr key rfl
    refine ⟨congrArg Answer.value ?_, GroupTable.toList_modify hb hkey f⟩
    rw [GroupTable.get?_modify, if_pos rfl, GroupTable.get?_toList hb hkey]
  | upsert key a f =>
    have hkey : key.Bounded := hr key rfl
    refine ⟨congrArg Answer.value ?_, GroupTable.toList_upsert hb hkey a f⟩
    rw [GroupTable.get?_upsert, GroupTable.get?_toList hb hkey]
  | get key => exact ⟨congrArg Answer.value (GroupTable.get?_toList hb (hr key rfl)), rfl⟩
  | contains key => exact ⟨congrArg Answer.truth (GroupTable.contains_toList hb (hr key rfl)), rfl⟩
  | entries | keys | values | size => exact ⟨rfl, rfl⟩

theorem keys_onTable (request : Request α) (table : GroupTable α) :
    (request.onTable table).2.keys = match request.creates? with
      | some key => if table.contains key then table.keys else table.keys ++ [key]
      | none => table.keys := by
  cases request with
  | set key a => exact (congrArg _ GroupTable.set_eq_upsert).trans GroupTable.keys_upsert
  | upsert key a f => exact GroupTable.keys_upsert
  | modify key f => exact GroupTable.keys_modify
  | get | contains | entries | keys | values | size => rfl

theorem key?_of_creates? (h : request.creates? = some key) : request.key? = some key := by
  cases request <;> simp_all [creates?, key?]

theorem bounded_onTable (hb : table.Bounded) (hr : request.Bounded) :
    (request.onTable table).2.Bounded := by
  intro k hk
  rw [keys_onTable] at hk
  split at hk
  · rename_i key hcreates
    split at hk
    · exact hb k hk
    · rcases List.mem_append.mp hk with hk | hk
      · exact hb k hk
      · cases List.mem_singleton.mp hk
        exact hr k (key?_of_creates? hcreates)
  · exact hb k hk

end Request

-- ---------------------------------------------------------------------------
-- Sequences of requests
-- ---------------------------------------------------------------------------

def answerAll (answer : ρ → σ → β × σ) : List ρ → σ → List β × σ
  | [], state => ([], state)
  | request :: rest, state =>
    let (first, between) := answer request state
    let (others, after) := answerAll answer rest between
    (first :: others, after)

namespace GroupTable

variable {α : Type} {table : GroupTable α} {requests : List (Request α)}

theorem answerAll_eq (hb : table.Bounded) (hr : ∀ request ∈ requests, request.Bounded) :
    (answerAll Request.onTable requests table).1 = (answerAll Request.onList requests table.toList).1 ∧
      (answerAll Request.onTable requests table).2.toList =
        (answerAll Request.onList requests table.toList).2 := by
  induction requests generalizing table with
  | nil => exact ⟨rfl, rfl⟩
  | cons request rest ih =>
    have hrequest := hr request List.mem_cons_self
    obtain ⟨hanswer, hlist⟩ := Request.onTable_eq hb hrequest
    obtain ⟨hanswers, hafter⟩ := ih (Request.bounded_onTable hb hrequest)
      fun other hmem => hr other (List.mem_cons_of_mem _ hmem)
    rw [hlist] at hanswers hafter
    exact ⟨congrArg₂ List.cons hanswer hanswers, hafter⟩

theorem keys_answerAll (hb : table.Bounded) (hr : ∀ request ∈ requests, request.Bounded)
    {made : List GroupKey} (hmade : table.keys = made.eraseDups) :
    (answerAll Request.onTable requests table).2.keys =
      (made ++ requests.filterMap Request.creates?).eraseDups := by
  induction requests generalizing table made with
  | nil => exact hmade.trans (by rw [List.filterMap_nil, List.append_nil])
  | cons request rest ih =>
    have hrequest := hr request List.mem_cons_self
    have hrest := @ih _ (Request.bounded_onTable hb hrequest)
      fun other hmem => hr other (List.mem_cons_of_mem _ hmem)
    have hkeys := request.keys_onTable table
    cases hcreates : request.creates? with
    | none =>
      rw [hcreates] at hkeys
      rw [List.filterMap_cons_none hcreates]
      exact hrest (hkeys.trans hmade)
    | some key =>
      have hkey : key.Bounded := hrequest key (Request.key?_of_creates? hcreates)
      have hcontains : table.contains key = made.eraseDups.any (key == ·) := by
        rw [contains_toList hb hkey, ← hmade, keys, List.any_map]
        rfl
      rw [hcreates] at hkeys
      simp only [hcontains, hmade] at hkeys
      rw [← eraseDups_append_singleton] at hkeys
      rw [List.filterMap_cons_some hcreates, List.append_cons]
      exact hrest hkeys

/-- A table that was made empty, with or without room, answers any sequence of
requests as the association list does that starts empty, and its entries are
those of the list. Its index is consistent all along; its keys are those that
came first, so none of them is ever removed or moved.

Premise: the lengths in the keys fit eight bytes. -/
theorem requests_agree (start : GroupTable α)
    (hstart : start = .empty ∨ ∃ capacity, start = .emptyWithCapacity capacity)
    (requests : List (Request α)) (hr : ∀ request ∈ requests, request.Bounded) :
    ∃ answers table, answerAll Request.onTable requests start = (answers, table) ∧
      answerAll Request.onList requests [] = (answers, table.toList) ∧ table.Consistent ∧
      table.keys = (requests.filterMap Request.creates?).eraseDups ∧
      ∀ n, (answerAll Request.onTable (requests.take n) start).2.keys <+: table.keys := by
  have hlist : start.toList = [] := by rcases hstart with rfl | ⟨capacity, rfl⟩ <;> rfl
  have hkeys : start.keys = ([] : List GroupKey).eraseDups := by
    rw [keys, hlist]
    rfl
  have hb : start.Bounded := by simp [Bounded, hkeys]
  obtain ⟨hanswers, hentries⟩ := answerAll_eq hb hr
  rw [hlist] at hanswers hentries
  have hfirst : ∀ part : List (Request α), (∀ request ∈ part, request.Bounded) →
      (answerAll Request.onTable part start).2.keys =
        (part.filterMap Request.creates?).eraseDups := fun part hpart => keys_answerAll hb hpart hkeys
  refine ⟨_, _, rfl, Prod.ext hanswers.symm hentries.symm, consistent _, hfirst requests hr,
    fun n => ?_⟩
  rw [hfirst requests hr, hfirst _ fun request hmem => hr request (List.mem_of_mem_take hmem)]
  have hsplit : requests.filterMap Request.creates? =
      (requests.take n).filterMap Request.creates? ++ (requests.drop n).filterMap Request.creates? := by
    rw [← List.filterMap_append, List.take_append_drop]
  rw [hsplit]
  exact eraseDups_isPrefix _ _

def zeroRequests : List (Request Nat) :=
  [.set ⟨[.float ⟨0x8000000000000000⟩]⟩ 1, .upsert ⟨[.float .zero]⟩ 10 (· + 5), .set ⟨[.null]⟩ 7,
    .set ⟨[.float .zero]⟩ 2, .entries]

theorem requests_agree_on_zeros :
    (∀ request ∈ zeroRequests, request.Bounded) ∧
    (answerAll Request.onTable zeroRequests (.emptyWithCapacity 4)).1 =
      [.value none, .value (some 6), .value none, .value (some 6),
        .entries [(⟨[.float ⟨0x8000000000000000⟩]⟩, 2), (⟨[.null]⟩, 7)]] := by
  have hbounded : ∀ request ∈ zeroRequests, request.Bounded := by
    simp only [zeroRequests, Request.Bounded, Request.key?]
    decide
  obtain ⟨answers, table, htable, hlist, -⟩ :=
    requests_agree (.emptyWithCapacity 4) (.inr ⟨4, rfl⟩) zeroRequests hbounded
  refine ⟨hbounded, ?_⟩
  rw [htable]
  exact (congrArg Prod.fst hlist).symm

end GroupTable

end StreamQuery
