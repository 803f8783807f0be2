import StreamQuery.Proofs.Grouping.Changelog
import StreamQuery.Proofs.Grouping.Place

/-!
# The two emissions agree

The rows emitted as updates are a change log whose live rows, in the end, are
the rows that a final emission gives (`emissions_agree`). The invariant of the
induction over the items is `Tracks`: at any time the live rows are the current
rows of the groups that were seen, up to order and equality. Equality is as far
as it goes, since a retraction is built from the key of the record that replaces
the row and not from the key that was stored for the group.
-/

namespace StreamQuery.Grouping

variable {g : Grouping} {scope : Scope} {groups after : Groups} {live others : List Record}
  {record row r s old current : Record} {key other : GroupKey}

-- ---------------------------------------------------------------------------
-- Rows of equal keys
-- ---------------------------------------------------------------------------

theorem groupOf_row (hlen : key.values.length = g.key.length) (h : g.row groups key = .ok r) :
    g.groupOf r = key ∧ r.isRetraction = false := by
  obtain ⟨values, -, hwidth, rfl⟩ := row_ok.mp h
  rw [groupOf, Record.values_zip hwidth, ← hlen, List.take_left]
  exact ⟨rfl, rfl⟩

theorem exists_row_beq (heq : key == other) (h : g.row groups key = .ok r) :
    ∃ s, g.row groups other = .ok s ∧ r == s := by
  obtain ⟨values, hreport, hwidth, rfl⟩ := row_ok.mp h
  have hvalues := GroupKey.beq_iff.mp heq
  have hlen : key.values.length = other.values.length := by simpa using congrArg List.length hvalues
  have hwidth' : g.output.length = (other.values ++ values).length := by
    rw [hwidth, List.length_append, List.length_append, hlen]
  refine ⟨_, row_ok.mpr ⟨values, ?_, hwidth', rfl⟩, Record.beq_iff.mpr ⟨?_, rfl⟩⟩
  · exact (Aggregate.Report.congr (GroupKey.canonical_eq_of_beq heq)).mp hreport
  · rw [Record.sameRow_iff, Record.names_zip hwidth, Record.names_zip hwidth',
      Record.values_zip hwidth, Record.values_zip hwidth', List.map_append, List.map_append, hvalues]
    exact ⟨rfl, rfl⟩

/-- The row is, up to equality, the current one of the group. -/
def Shows (g : Grouping) (groups : Groups) (key : GroupKey) (row : Record) : Prop :=
  ∃ r, g.row groups key = .ok r ∧ row == r

theorem Shows.congr (h : g.Shows groups key row) (heq : key == other) :
    g.Shows groups other row := by
  obtain ⟨r, hr, hrow⟩ := h
  obtain ⟨s, hs, hrs⟩ := exists_row_beq heq hr
  exact ⟨s, hs, BEq.trans hrow hrs⟩

theorem Shows.beq (h : g.Shows groups key row) (hr : g.row groups key = .ok r) : row == r := by
  obtain ⟨s, hs, hrow⟩ := h
  rw [hr] at hs
  cases hs
  exact hrow

theorem Shows.groupOf_beq (h : g.Shows groups key row) (hlen : key.values.length = g.key.length) :
    g.groupOf row == key := by
  obtain ⟨r, hr, hrow⟩ := h
  rw [← (groupOf_row hlen hr).1]
  exact groupOf_beq_of_sameRow (Record.beq_iff.mp hrow).1

theorem Shows.takeIn_of_ne (h : g.Shows groups other row)
    (ht : g.takeIn scope groups record = .ok (key, after)) (hne : other.canonical ≠ key.canonical) :
    g.Shows after other row := by
  obtain ⟨r, hr, hrow⟩ := h
  exact ⟨r, row_takeIn_of_ne ht hne.symm hr, hrow⟩

-- ---------------------------------------------------------------------------
-- One row per group
-- ---------------------------------------------------------------------------

def withRow (rowOf : GroupKey → Record) (key : GroupKey) (row : Record) : GroupKey → Record :=
  fun k => if k.canonical = key.canonical then row else rowOf k

theorem withRow_of_eq (h : other.canonical = key.canonical) : withRow rowOf key row other = row :=
  if_pos h

theorem withRow_of_ne (h : other.canonical ≠ key.canonical) :
    withRow rowOf key row other = rowOf other :=
  if_neg h

theorem map_withRow {keys : List GroupKey} (h : ∀ k ∈ keys, k.canonical ≠ key.canonical) :
    keys.map (withRow rowOf key row) = keys.map rowOf :=
  List.map_congr_left fun k hk => withRow_of_ne (h k hk)

theorem shows_withRow (ht : g.takeIn scope groups record = .ok (key, after))
    (hshows : ∀ k ∈ groups.seen.keys, g.Shows groups k (rowOf k)) (hb : key.Bounded)
    (hbounded : ∀ k ∈ after.seen.keys, k.Bounded) (hrow : g.Shows after key row) :
    ∀ k ∈ after.seen.keys, g.Shows after k (withRow rowOf key row k) := by
  intro k hk
  by_cases heq : k.canonical = key.canonical
  · rw [withRow_of_eq heq]
    exact hrow.congr ((GroupKey.canonical_eq_iff hb (hbounded k hk)).mp heq.symm)
  · rw [withRow_of_ne heq]
    rcases mem_keys_takeIn ht hk with hk | rfl
    · exact (hshows k hk).takeIn_of_ne ht heq
    · exact absurd rfl heq

-- ---------------------------------------------------------------------------
-- Live rows
-- ---------------------------------------------------------------------------

/-- The live rows are those of the groups that were seen. -/
structure Tracks (g : Grouping) (groups : Groups) (live : List Record) : Prop where
  serves : Serves g groups
  bounded : ∀ key ∈ groups.seen.keys, key.Bounded
  rows : ∃ rowOf : GroupKey → Record, live.Perm (groups.seen.keys.map rowOf) ∧
    ∀ key ∈ groups.seen.keys, g.Shows groups key (rowOf key)

namespace Tracks

theorem begin (g : Grouping) : g.Tracks g.begin [] where
  serves := serves_begin g
  bounded key hk := by simp [Grouping.begin] at hk
  rows := ⟨fun _ => default, .nil, fun key hk => by simp [Grouping.begin] at hk⟩

theorem perm (h : g.Tracks groups live) (hp : live.Perm others) : g.Tracks groups others where
  serves := h.serves
  bounded := h.bounded
  rows := by
    obtain ⟨rowOf, hrows, hshows⟩ := h.rows
    exact ⟨rowOf, hp.symm.trans hrows, hshows⟩

theorem onePerGroup (h : g.Tracks groups live) : g.OnePerGroup live := by
  obtain ⟨rowOf, hrows, hshows⟩ := h.rows
  unfold OnePerGroup
  rw [hrows.pairwise_iff fun hne heq => hne (BEq.symm heq), List.pairwise_map]
  refine groups.seen.keys_distinct.imp_of_mem fun {j k} hj hk hne heq => hne ?_
  have hj' := (hshows j hj).groupOf_beq (h.serves.lengths j hj)
  have hk' := (hshows k hk).groupOf_beq (h.serves.lengths k hk)
  exact GroupKey.canonical_eq_of_beq (BEq.trans (BEq.symm hj') (BEq.trans heq hk'))

theorem sameRows {finals : List Record} (h : g.Tracks groups live)
    (hf : groups.seen.keys.mapM (g.row groups) = .ok finals) : SameRows live finals := by
  obtain ⟨rowOf, hrows, hshows⟩ := h.rows
  refine ⟨_, hrows, List.forall₂_map_left_iff.mpr ?_⟩
  have hall := (List.forall₂_and_left _ _).mpr ⟨hshows, mapM_ok.mp hf⟩
  exact hall.imp fun key r hr => hr.1.beq hr.2

theorem standing (h : g.Tracks groups live)
    (ht : g.takeIn scope groups record = .ok (key, after)) (hb : key.Bounded)
    (hseen : groups.seen.contains key) : ∃ row others, live.Perm (row :: others) ∧
      g.Shows groups key row ∧ (∀ other ∈ others, ¬ g.groupOf other == key) ∧
      ∀ next, g.Shows after key next → g.Tracks after (next :: others) := by
  obtain ⟨rowOf, hrows, hshows⟩ := h.rows
  obtain ⟨first, stored, rest, hkeys, hstored, hne⟩ := GroupTable.exists_keys_eq hseen
  have hmem : ∀ k ∈ first ++ rest, k ∈ groups.seen.keys := fun k hk => by
    rw [hkeys]
    exact List.perm_middle.mem_iff.mpr (List.mem_cons_of_mem stored hk)
  have hmem_stored : stored ∈ groups.seen.keys := by simp [hkeys]
  have hbeq : stored == key :=
    (GroupKey.canonical_eq_iff (h.bounded stored hmem_stored) hb).mp hstored
  have hafter : after.seen.keys = groups.seen.keys := by
    rw [seen_takeIn ht, GroupTable.keys_upsert, if_pos hseen]
  have hbounded := bounded_takeIn ht h.bounded hb
  refine ⟨rowOf stored, (first ++ rest).map rowOf, ?_, (hshows stored hmem_stored).congr hbeq,
    ?_, fun next hnext => ⟨h.serves.takeIn ht, hbounded, withRow rowOf key next, ?_,
      shows_withRow ht hshows hb hbounded hnext⟩⟩
  · rw [hkeys] at hrows
    exact hrows.trans (List.perm_middle.map rowOf)
  · intro other hother heq
    obtain ⟨k, hk', rfl⟩ := List.mem_map.mp hother
    have hgroup := (hshows k (hmem k hk')).groupOf_beq (h.serves.lengths k (hmem k hk'))
    exact hne k hk' (GroupKey.canonical_eq_of_beq (BEq.trans (BEq.symm hgroup) heq))
  · rw [hafter, hkeys, ← map_withRow hne]
    refine List.Perm.trans ?_ (List.perm_middle.map _).symm
    rw [List.map_cons, withRow_of_eq hstored]

theorem insertion (h : g.Tracks groups live)
    (ht : g.takeIn scope groups record = .ok (key, after)) (hb : key.Bounded)
    (hseen : ¬ groups.seen.contains key) (hr : g.row after key = .ok current) :
    g.Tracks after (live ++ [current]) := by
  obtain ⟨rowOf, hrows, hshows⟩ := h.rows
  have hne : ∀ k ∈ groups.seen.keys, k.canonical ≠ key.canonical := fun k hk heq =>
    hseen (GroupTable.contains_iff.mpr ⟨k, hk, heq⟩)
  have hafter : after.seen.keys = groups.seen.keys ++ [key] := by
    rw [seen_takeIn ht, GroupTable.keys_upsert, if_neg hseen]
  have hbounded := bounded_takeIn ht h.bounded hb
  refine ⟨h.serves.takeIn ht, hbounded, withRow rowOf key current, ?_,
    shows_withRow ht hshows hb hbounded ⟨current, hr, BEq.rfl⟩⟩
  rw [hafter, List.map_append, map_withRow hne, List.map_singleton, withRow_of_eq rfl]
  exact hrows.append_right [current]

theorem replacement (h : g.Tracks groups live)
    (ht : g.takeIn scope groups record = .ok (key, after)) (hb : key.Bounded)
    (hseen : groups.seen.contains key) (hold : g.row groups key = .ok old)
    (hr : g.row after key = .ok current) (hne : ¬ old == current) :
    g.Tracks after (live.eraseP old.sameRow ++ [current]) ∧
      ∀ rest, g.Replaces live old.retraction (current :: rest) := by
  obtain ⟨row, others, hperm, hrow, hothers, hnext⟩ := h.standing ht hb hseen
  have hlen := key_length_takeIn ht
  obtain ⟨hgroup, hinsert⟩ := groupOf_row hlen hr
  obtain ⟨hgroup_old, hinsert_old⟩ := groupOf_row hlen hold
  have hsame : row.sameRow old := (Record.beq_iff.mp (hrow.beq hold)).1
  have herase := h.onePerGroup.eraseP_perm hperm (Record.sameRow_symm hsame)
  constructor
  · refine (hnext current ⟨current, hr, BEq.rfl⟩).perm ?_
    exact (List.perm_append_singleton current others).symm.trans (herase.symm.append_right _)
  · intro rest
    rw [← hgroup_old] at hothers
    refine ⟨⟨row, ?_, Record.sameRow_symm hsame⟩, current, rest, rfl, hinsert, ?_, ?_⟩
    · exact filter_eq_singleton hperm (groupOf_beq_of_sameRow hsame) hothers
    · rw [hgroup, ← hgroup_old]
      exact BEq.rfl
    · intro hcurrent
      exact hne (Record.beq_iff.mpr
        ⟨Record.sameRow_symm hcurrent, hinsert_old.trans hinsert.symm⟩)

/-- The rows emitted for a record lead from the live rows before it to those
after it. -/
theorem step (h : g.Tracks groups live) (ht : g.takeIn scope groups record = .ok (key, after))
    (hb : key.Bounded) (hp : g.previousRow groups key = .ok previous)
    (hr : g.row after key = .ok current) :
    g.Tracks after (liveAfter live (changes previous current)) ∧
      ∀ rest, g.Changelog (liveAfter live (changes previous current)) rest →
        g.Changelog live (changes previous current ++ rest) := by
  have hinsert : current.isRetraction = false := (groupOf_row (key_length_takeIn ht) hr).2
  have hno : ¬ current.isRetraction := by simp [hinsert]
  rcases previousRow_ok.mp hp with ⟨old, hseen, hold, rfl⟩ | ⟨hseen, rfl⟩
  · by_cases heq : old == current
    · have hnone : changes (some old) current = [] := if_pos heq
      obtain ⟨row, others, hperm, hrow, -, hnext⟩ := h.standing ht hb hseen
      rw [hnone]
      exact ⟨(hnext row ⟨current, hr, BEq.trans (hrow.beq hold) heq⟩).perm hperm.symm,
        fun rest hrest => hrest⟩
    · have htwo : changes (some old) current = [old.retraction, current] := if_neg heq
      have hlive : liveAfter live [old.retraction, current] = live.eraseP old.sameRow ++ [current] :=
        liveAfter_insertion hinsert
      obtain ⟨htracks, hreplaces⟩ := h.replacement ht hb hseen hold hr heq
      rw [htwo, hlive]
      refine ⟨htracks, fun rest hrest => .cons h.onePerGroup (fun _ => hreplaces rest)
        (.cons (h.onePerGroup.sublist List.eraseP_sublist) (absurd · hno) ?_)⟩
      rw [liveAfter_insertion hinsert]
      exact hrest
  · have hins := h.insertion ht hb hseen hr
    rw [← liveAfter_insertion hinsert] at hins
    exact ⟨hins, fun rest hrest => .cons h.onePerGroup (absurd · hno) hrest⟩

end Tracks

-- ---------------------------------------------------------------------------
-- Whole runs
-- ---------------------------------------------------------------------------

def ending (rows : List Record) (failure : Option Error) : List Item :=
  rows.map .ok ++ failure.toList.map .error

theorem ending_append (rows more : List Record) (failure : Option Error) :
    ending (rows ++ more) failure = rows.map .ok ++ ending more failure := by
  simp [ending]

theorem Tracks.emit_agree (hg : g.Bounded) (hs : scope.Bounded) {items : List Item}
    (hitems : ∀ record, .ok record ∈ items → record.Bounded) (h : g.Tracks groups live) :
    ∃ rows finals failure,
      (g.emitting .updates).emit scope items groups = ending rows failure ∧
      (g.emitting .final).emit scope items groups = ending finals failure ∧
      g.Changelog live rows ∧ (failure = none → SameRows (liveAfter live rows) finals) := by
  induction items generalizing groups live with
  | nil =>
    obtain ⟨finals, hfinals⟩ := h.serves.exists_rows
    refine ⟨[], finals, none, rfl, ?_, .nil h.onePerGroup, fun _ => h.sameRows hfinals⟩
    have hfinish : (g.emitting .final).finish groups = .ok finals := hfinals
    simp [emit, hfinish, ending]
  | cons item rest ih =>
    cases item with
    | error e =>
      exact ⟨[], [], some e, rfl, rfl, .nil h.onePerGroup, (absurd · (Option.some_ne_none e))⟩
    | ok record =>
      have hrest : ∀ record, .ok record ∈ rest → record.Bounded := fun r hr =>
        hitems r (List.mem_cons_of_mem _ hr)
      cases ht : g.takeIn scope groups record with
      | error e =>
        refine ⟨[], [], some e, ?_, ?_, .nil h.onePerGroup, (absurd · (Option.some_ne_none e))⟩
        · simp [emit, Except.bind, accept_updates h.serves, ht, error_bind, ending]
        · simp [emit, Except.bind, accept_final, ht, Except.map, ending]
      | ok taken =>
        obtain ⟨key, after⟩ := taken
        obtain ⟨-, inputs, he, -⟩ := takeIn_ok.mp ht
        have hb : key.Bounded := evaluate_bounded hg hs (hitems record List.mem_cons_self) he
        have hlen := evaluate_key_length he
        obtain ⟨previous, hprevious⟩ := h.serves.exists_previousRow hlen
        obtain ⟨current, hcurrent⟩ := (h.serves.takeIn ht).exists_row
          ((contains_takeIn ht).mpr (.inl rfl)) hlen
        obtain ⟨htracks, hlog⟩ := h.step ht hb hprevious hcurrent
        obtain ⟨rows, finals, failure, hupdates, hfinal, hrows, hsame⟩ := ih hrest htracks
        refine ⟨changes previous current ++ rows, finals, failure, ?_, ?_, hlog rows hrows, ?_⟩
        · have haccept : (g.emitting .updates).accept scope groups record =
              .ok (changes previous current, after) := by
            rw [accept_updates h.serves, ht, ok_bind]
            simp only [hprevious, hcurrent, ok_bind, pure_ok]
          rw [ending_append, ← hupdates]
          simp only [emit, Except.bind, haccept]
        · simp only [emit, Except.bind, accept_final, ht, Except.map, hfinal]
          rfl
        · rw [liveAfter_append]
          exact hsame

/-- Both emissions give rows and end with the same failure, or both without
one. The rows of the updates are a change log. If nothing fails, its live rows
in the end are the rows of the final emission.

Premise: the query is not stopped, and all lengths in the records, in the
scope and in the constants of the key fit eight bytes. -/
theorem emissions_agree (g : Grouping) (execution : Execution) (items : List Item)
    (moments others : Nat → Signals) (hg : g.Bounded) (hs : execution.scope.Bounded)
    (hitems : ∀ record, .ok record ∈ items → record.Bounded)
    (h : execution.query.Undisturbed moments) (h' : execution.query.Undisturbed others) :
    ∃ rows finals failure,
      (g.emitting .updates).run execution moments items = ending rows failure ∧
      (g.emitting .final).run execution others items = ending finals failure ∧
      g.Changelog [] rows ∧ (failure = none → SameRows (liveAfter [] rows) finals) := by
  rw [run_eq_emit h, run_eq_emit h']
  exact (Tracks.begin g).emit_agree hg hs hitems

theorem ending_eq_map {failure : Option Error} {rows others : List Record}
    (h : ending rows failure = others.map .ok) : rows = others ∧ failure = none := by
  cases failure with
  | none =>
    have hrows : rows.map Except.ok = others.map Except.ok := (List.append_nil _).symm.trans h
    exact ⟨List.map_injective_iff.mpr (fun _ _ => Except.ok.inj) hrows, rfl⟩
  | some e =>
    have hmem : Except.error e ∈ others.map Except.ok := h ▸ by simp [ending]
    simp at hmem

def zeroUpdates : List Record :=
  [countRow (Double.neg .zero) 1, (countRow .zero 1).retraction, countRow .zero 2]

theorem run_updates_zeros :
    (countByX.emitting .updates).run ⟨.unlabelled 0, .empty⟩ (fun _ => .quiet) (zeros.map .ok) =
      zeroUpdates.map .ok := by
  have hzeros : (⟨[.float (Double.neg .zero)]⟩ : GroupKey).canonical =
      (⟨[.float .zero]⟩ : GroupKey).canonical := by decide
  obtain ⟨between, hfirst, hbetween⟩ : ∃ between, (countByX.emitting .updates).accept .empty
        countByX.begin ⟨[(⟨none, "x"⟩, .float (Double.neg .zero))], false⟩ =
          .ok (changes none (countRow (Double.neg .zero) 1), between) ∧
      Stands between ⟨[.float (Double.neg .zero)]⟩ [.counted 1] [⟨[.float (Double.neg .zero)]⟩] :=
    (Stands.begin countByX _).accept [.int 1] rfl rfl rfl (Stands.previousRow_begin _ _) rfl rfl rfl
  obtain ⟨groups, hsecond, -⟩ : ∃ groups, (countByX.emitting .updates).accept .empty between
        ⟨[(⟨none, "x"⟩, .float .zero)], false⟩ =
          .ok (changes (some (countRow .zero 1)) (countRow .zero 2), groups) ∧
      Stands groups ⟨[.float .zero]⟩ [.counted 2] [⟨[.float (Double.neg .zero)]⟩] :=
    (hbetween.congr hzeros).accept [.int 2] rfl rfl rfl
      ((hbetween.congr hzeros).previousRow [.int 1] rfl) rfl rfl rfl
  rw [run_eq_emit (fun _ => rfl)]
  have hrest := emit_of_accept hsecond []
  exact (emit_of_accept hfirst _).trans (congrArg _ hrest)

theorem emissions_agree_on_zeros :
    (countByX.emitting .updates).run ⟨.unlabelled 0, .empty⟩ (fun _ => .quiet) (zeros.map .ok) =
        zeroUpdates.map .ok ∧
      (countByX.emitting .final).run ⟨.unlabelled 0, .empty⟩ (fun _ => .quiet) (zeros.map .ok) =
        [.ok (countRow (Double.neg .zero) 2)] ∧
      countByX.Changelog [] zeroUpdates ∧
      SameRows (liveAfter [] zeroUpdates) [countRow (Double.neg .zero) 2] := by
  obtain ⟨rows, finals, failure, hupdates, hfinal, hlog, hsame⟩ :=
    emissions_agree countByX ⟨.unlabelled 0, .empty⟩ (zeros.map .ok) (fun _ => .quiet)
      (fun _ => .quiet) countByX_bounded Scope.empty_bounded
      (fun record hr => zeros_bounded record (by simpa using hr)) (fun _ => rfl) (fun _ => rfl)
  obtain ⟨groups, hgroups, hrow⟩ := takeAll_zeros
  obtain ⟨found, hrun, hfound⟩ : ∃ rows, (countByX.emitting .final).run ⟨.unlabelled 0, .empty⟩
        (fun _ => .quiet) (zeros.map .ok) = rows.map .ok ∧
      groups.seen.keys.mapM (countByX.row groups) = .ok rows := run_final (fun _ => rfl) hgroups
  obtain rfl : found = [countRow (Double.neg .zero) 2] := Except.ok.inj (hfound.symm.trans hrow)
  obtain ⟨rfl, rfl⟩ := ending_eq_map (hupdates.symm.trans run_updates_zeros)
  obtain ⟨rfl, -⟩ := ending_eq_map (hfinal.symm.trans hrun)
  exact ⟨run_updates_zeros, hrun, hlog, hsame rfl⟩

end StreamQuery.Grouping
