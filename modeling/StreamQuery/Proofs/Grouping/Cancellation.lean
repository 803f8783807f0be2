import StreamQuery.Proofs.Grouping.Place
import StreamQuery.Proofs.Grouping.Polls

/-!
# Cancellation of a grouping stream

Between two polls a grouping stream is settled (`State.Settled`): with updates at
most one row waits, and with a final emission either nothing has happened yet or the
stream is finished. So when the query is cancelled, the rows that wait are still given
away, and then the input of an unfinished stream is asked once more, which ends it
(`cancellation_stops`). The groups stay as they were.
-/

namespace StreamQuery

/-- What a grouping stream gives last if its input answers so after the query was
cancelled. -/
def Query.lastItem (query : Query) : Pull → Option Item
  | .done => none
  | .yield (.error e) _ => some (.error e)
  | .yield (.ok _) _ => some (.error (.cancelled s!"{query.label} was cancelled"))

namespace Grouping

variable {g : Grouping} {execution : Execution} {moments : Nat → Signals} {signals : Signals}
  {input left : RecordStream} {groups after : Groups} {rows : List Record} {record : Record}
  {item : Item} {s : State} {n : Nat}

-- ---------------------------------------------------------------------------
-- Between two polls
-- ---------------------------------------------------------------------------

/-- What is left of the input, and what the stream keeps, before the `n`-th poll. -/
def kept (g : Grouping) (execution : Execution) (moments : Nat → Signals) (input : RecordStream) :
    Nat → RecordStream × State
  | 0 => (input, .start g)
  | n + 1 =>
    let last := g.poll execution moments input n
    (last.input, last.onward)

theorem poll_kept (input : RecordStream) (n : Nat) : g.poll execution moments input n =
    (g.kept execution moments input n).1.poll g execution (moments n)
      (g.kept execution moments input n).2 := by
  cases n <;> rfl

theorem changes_length (previous : Option Record) (current : Record) :
    (changes previous current).length ≤ 2 := by
  unfold changes
  split
  · simp
  · split <;> simp

theorem consume_rows (h : g.consume execution signals groups record = .ok (rows, after)) :
    rows.length ≤ 2 ∧ (g.emission = .final → rows = []) := by
  rw [consume_eq] at h
  obtain ⟨⟨key, inputs, previous⟩, -, h⟩ := bind_ok.mp h
  obtain ⟨absorbed, -, h⟩ := bind_ok.mp h
  obtain ⟨told, htold, h⟩ := bind_ok.mp h
  cases h
  unfold tell at htold
  cases hemission : g.emission with
  | final =>
    rw [hemission] at htold
    cases htold
    simp
  | updates =>
    rw [hemission] at htold
    obtain ⟨current, -, htold⟩ := bind_ok.mp htold
    cases htold
    exact ⟨changes_length previous current, by simp⟩

theorem finish_updates (h : g.emission = .updates) (groups : Groups) :
    g.finish groups = .ok [] := by
  rw [finish, h]

theorem finish_begin (g : Grouping) : g.finish g.begin = .ok [] := by
  cases hemission : g.emission with
  | updates => exact finish_updates hemission _
  | final => simp [finish, hemission, begin, pure_ok]

namespace State

/-- How a stream stands between two polls. With a final emission it is at its start or
finished. -/
structure Settled (g : Grouping) (s : State) : Prop where
  updates : g.emission = .updates → s.pending.length ≤ 1
  final : g.emission = .final → s.finished = false → s = .start g

/-- How a stream stands while it is polled. A record makes two rows at most, and with a
final emission rows wait only at the end. -/
structure Polled (g : Grouping) (s : State) : Prop where
  updates : g.emission = .updates → s.pending.length ≤ 2
  final : g.emission = .final → s.finished = false → s.pending = []

theorem start_settled (g : Grouping) : (start g).Settled g where
  updates := by simp [start]
  final _ _ := rfl

theorem Settled.polled (h : s.Settled g) : s.Polled g where
  updates hupdates := Nat.le_succ_of_le (h.updates hupdates)
  final hfinal hfinished := congrArg pending (h.final hfinal hfinished)

theorem Settled.finish_eq (h : s.Settled g) (hfinished : s.finished = false) :
    g.finish s.groups = .ok [] := by
  cases hemission : g.emission with
  | updates => exact finish_updates hemission _
  | final =>
    rw [h.final hemission hfinished]
    exact finish_begin g

theorem Polled.answer_settled (h : s.Polled g) (hs : ¬ s.asks) (input : RecordStream) :
    (s.answer input).onward.Settled g := by
  rw [answer_onward]
  constructor
  · intro hupdates
    have := h.updates hupdates
    simp only [answer, List.length_tail]
    omega
  · intro hfinal hfinished
    exact absurd (asks_iff.mpr ⟨h.final hfinal hfinished, hfinished⟩) hs

theorem fail_settled (e : Error) (input : RecordStream) (waiting : List Record) :
    (s.fail e input waiting).onward.Settled g := by
  rw [fail_onward]
  exact ⟨fun _ => Nat.zero_le 1, by simp⟩

end State

end Grouping

open Grouping

variable {g : Grouping} {execution : Execution} {signals : Signals}

mutual

/-- A poll settles the stream, however often it asks: it gives away one of the two rows,
and with a final emission it goes on until the stream is finished. -/
theorem RecordStream.poll_settled : (stream : RecordStream) → (s : State) → s.Polled g →
    (stream.poll g execution signals s).onward.Settled g
  | .mk pull, s, h => by
    rw [RecordStream.poll]
    by_cases hs : s.asks
    · rw [if_pos hs]
      exact (pull signals).poll_settled s (State.asks_iff.mp hs).1
    · rw [if_neg hs]
      exact h.answer_settled hs _
termination_by structural stream => stream

theorem Pull.poll_settled : (pull : Pull) → (s : State) → s.pending = [] →
    (pull.poll g execution signals s).onward.Settled g
  | .done, s, hpending => by
    rw [Pull.poll, close]
    cases hfinish : g.finish s.groups with
    | error e => exact State.fail_settled _ _ _
    | ok rows =>
      have hupdates : g.emission = .updates → rows = [] := by
        intro hupdates
        exact Except.ok.inj (hfinish.symm.trans (finish_updates hupdates _))
      refine State.Polled.answer_settled ⟨fun h => ?_, by simp⟩ (by simp [State.asks]) .empty
      simp [hpending, hupdates h]
  | .yield item rest, s, hpending => by
    rw [Pull.poll]
    rcases receive_cases g execution signals item s with
      ⟨rows, after, hconsume, hreceive⟩ | ⟨e, groups, -, hreceive⟩
    · obtain ⟨record, -, hconsume⟩ := bind_ok.mp hconsume
      obtain ⟨hlength, hfinal⟩ := consume_rows hconsume
      -- No row waited, so all that wait now are those of this record.
      rw [hreceive]
      refine rest.poll_settled _ ⟨fun _ => ?_, fun h _ => ?_⟩
      · simpa [hpending] using hlength
      · simp [hpending, hfinal h]
    · rw [hreceive]
      exact State.fail_settled _ _ _
termination_by structural pull => pull

end

namespace Grouping

variable {g : Grouping} {execution : Execution} {moments : Nat → Signals} {signals : Signals}
  {input left : RecordStream} {s : State} {n : Nat}

theorem kept_settled (input : RecordStream) (n : Nat) :
    (g.kept execution moments input n).2.Settled g := by
  induction n with
  | zero => exact State.start_settled g
  | succ n ih =>
    rw [kept, poll_kept]
    exact RecordStream.poll_settled _ _ ih.polled

-- ---------------------------------------------------------------------------
-- Polls of a cancelled query
-- ---------------------------------------------------------------------------

theorem poll_cancelled_of_asks (hcancelled : execution.query.isCancelled signals)
    (hs : s.Settled g) (hasks : s.asks) (pull : Pull) :
    let p := pull.poll g execution signals s
    p.answer = execution.query.lastItem pull ∧ p.onward = ⟨s.groups, [], true⟩ ∧
      p.questions.length = 1 := by
  obtain ⟨hpending, hfinished⟩ := State.asks_iff.mp hasks
  cases pull with
  | done =>
    simp [Pull.poll, close, hs.finish_eq hfinished, Poll.asking, State.answer, Poll.onward,
      Poll.panics, hpending, Query.lastItem]
  | yield item rest =>
    cases item with
    | error e =>
      simp [Pull.poll, receive, State.fail_answer, State.fail_onward, State.fail_questions hpending,
        Query.lastItem]
    | ok record =>
      have hcheck : execution.query.check signals =
          .error (.cancelled s!"{execution.query.label} was cancelled") := if_pos hcancelled
      simp [Pull.poll, receive, take, prepare, hcheck, State.fail_answer, State.fail_onward,
        State.fail_questions hpending, Query.lastItem]

namespace State

def drain (k : Nat) (s : State) : State :=
  ⟨s.groups, s.pending.drop k, s.finished || decide (s.pending.length < k)⟩

@[simp] theorem drain_zero (s : State) : s.drain 0 = s := by simp [drain]

theorem drain_succ (k : Nat) (s : State) : s.drain (k + 1) = (s.drain k).drain 1 := by
  have hfinished : s.pending.length < k + 1 ↔
      s.pending.length < k ∨ (s.pending.drop k).length < 1 := by
    rw [List.length_drop]
    omega
  simp [drain, hfinished, Bool.or_assoc]

def ending (query : Query) (signals : Signals) (left : RecordStream) (s : State) : Option Item :=
  if s.finished then none else query.lastItem (left.next signals)

end State

/-- What a poll of a cancelled query gives and leaves behind. -/
structure Stops (query : Query) (signals : Signals) (left : RecordStream) (s : State) (p : Poll) :
    Prop where
  answer : p.answer = match s.pending with
    | row :: _ => some (.ok row)
    | [] => s.ending query signals left
  onward : p.onward = s.drain 1
  input : s.pending ≠ [] → p.input = left
  questions : p.questions.length = if s.asks then 1 else 0

theorem stops_of_cancelled (hcancelled : execution.query.isCancelled signals)
    (hs : s.Settled g) (left : RecordStream) :
    Stops execution.query signals left s (left.poll g execution signals s) := by
  obtain ⟨pull⟩ := left
  rw [RecordStream.poll]
  by_cases hasks : s.asks
  · obtain ⟨hpending, hfinished⟩ := State.asks_iff.mp hasks
    obtain ⟨hanswer, honward, hquestions⟩ :=
      poll_cancelled_of_asks hcancelled hs hasks (pull signals)
    rw [if_pos hasks]
    constructor <;> simp [hanswer, honward, hquestions, hpending, hfinished, hasks, State.ending,
      State.drain, RecordStream.next]
  · rw [if_neg hasks]
    obtain ⟨groups, pending, finished⟩ := s
    cases pending with
    | nil =>
      obtain rfl : finished = true := by simpa [State.asks_iff] using hasks
      constructor <;> simp [State.answer, Poll.onward, Poll.panics, State.ending, State.drain,
        State.asks]
    | cons row rest =>
      constructor <;> simp [State.answer, Poll.onward, Poll.panics, State.drain, State.asks]

theorem poll_stops (input : RecordStream) (hcancelled : execution.query.isCancelled (moments n)) :
    Stops execution.query (moments n) (g.kept execution moments input n).1
      (g.kept execution moments input n).2 (g.poll execution moments input n) := by
  rw [poll_kept]
  exact stops_of_cancelled hcancelled (kept_settled input n) _

section Cancelled

variable (hkept : g.kept execution moments input n = (left, s))
  (hcancelled : ∀ k, n ≤ k → execution.query.isCancelled (moments k))

include hkept hcancelled

theorem kept_of_cancelled (k : Nat) :
    (g.kept execution moments input (n + k)).2 = s.drain k ∧
      (k ≤ s.pending.length → (g.kept execution moments input (n + k)).1 = left) := by
  induction k with
  | zero => simp [hkept]
  | succ k ih =>
    obtain ⟨hstate, hleft⟩ := ih
    have hstops := poll_stops (g := g) input (hcancelled (n + k) (Nat.le_add_right n k))
    rw [hstate] at hstops
    refine ⟨?_, fun hk => ?_⟩
    · rw [State.drain_succ]
      exact hstops.onward
    · have hwaits : (s.drain k).pending ≠ [] := by
        rw [State.drain, ne_eq, List.drop_eq_nil_iff]
        exact Nat.not_le.mpr hk
      exact (hstops.input hwaits).trans (hleft (Nat.le_of_succ_le hk))

theorem poll_of_cancelled (k : Nat) :
    Stops execution.query (moments (n + k)) (g.kept execution moments input (n + k)).1
      (s.drain k) (g.poll execution moments input (n + k)) := by
  rw [← (kept_of_cancelled hkept hcancelled k).1]
  exact poll_stops input (hcancelled (n + k) (Nat.le_add_right n k))

theorem answer_waiting {k : Nat} (h : k < s.pending.length) :
    (g.poll execution moments input (n + k)).answer = some (.ok s.pending[k]) := by
  have hrow : (s.drain k).pending = s.pending[k] :: s.pending.drop (k + 1) :=
    List.drop_eq_getElem_cons h
  rw [(poll_of_cancelled hkept hcancelled k).answer, hrow]

theorem answer_ending : (g.poll execution moments input (n + s.pending.length)).answer =
    s.ending execution.query (moments (n + s.pending.length)) left := by
  have hnone : (s.drain s.pending.length).pending = [] := List.drop_length
  have hfinished : (s.drain s.pending.length).finished = s.finished := by simp [State.drain]
  rw [(poll_of_cancelled hkept hcancelled _).answer, hnone,
    (kept_of_cancelled hkept hcancelled _).2 (Nat.le_refl _)]
  simp only [State.ending, hfinished]

theorem answer_ended {k : Nat} (h : s.pending.length < k) :
    (g.poll execution moments input (n + k)).answer = none := by
  have hnone : (s.drain k).pending = [] := List.drop_eq_nil_of_le (Nat.le_of_lt h)
  have hfinished : (s.drain k).finished = true := by simp [State.drain, h]
  rw [(poll_of_cancelled hkept hcancelled k).answer, hnone]
  exact if_pos hfinished

theorem collect_of_cancelled :
    ((input.group g execution g.begin).collect moments).drop n = s.pending.map .ok ++
      (s.ending execution.query (moments (n + s.pending.length)) left).toList := by
  apply List.ext_getElem?
  intro k
  rw [List.getElem?_drop, ← answer_poll]
  rcases Nat.lt_trichotomy k s.pending.length with hk | rfl | hk
  · rw [answer_waiting hkept hcancelled hk, List.getElem?_append_left (by simpa using hk)]
    simp [hk]
  · rw [answer_ending hkept hcancelled, List.getElem?_append_right (by simp)]
    cases s.ending execution.query (moments (n + s.pending.length)) left <;> simp
  · rw [answer_ended hkept hcancelled hk]
    symm
    simp only [List.getElem?_eq_none_iff, List.length_append, List.length_map]
    cases s.ending execution.query (moments (n + s.pending.length)) left <;> simp <;> omega

end Cancelled

/-- A grouping stream whose query is cancelled between two polls gives the rows that wait
at that moment, with updates at most one, and then asks its input once more, unless it is
finished. This ends it: with the cancellation if the input gives a record, with the
failure if it gives one, and silently if it has none. Later polls give nothing and ask
nothing. No poll since has changed the groups.

The premise is that a raised flag stays raised. The input may answer differently at
different moments. -/
theorem cancellation_stops (hkept : g.kept execution moments input n = (left, s))
    (hcancelled : ∀ k, n ≤ k → execution.query.isCancelled (moments k)) :
    (g.emission = .updates → s.pending.length ≤ 1) ∧
    ((input.group g execution g.begin).collect moments).drop n = s.pending.map .ok ++
      (s.ending execution.query (moments (n + s.pending.length)) left).toList ∧
    (∀ k (h : k < s.pending.length),
      (g.poll execution moments input (n + k)).answer = some (.ok s.pending[k])) ∧
    (g.poll execution moments input (n + s.pending.length)).answer =
      s.ending execution.query (moments (n + s.pending.length)) left ∧
    (∀ k, s.pending.length < k → (g.poll execution moments input (n + k)).answer = none) ∧
    (∀ k, (g.poll execution moments input (n + k)).state.groups = s.groups) ∧
    ∀ k, (g.poll execution moments input (n + k)).questions.length =
      if k = s.pending.length ∧ s.finished = false then 1 else 0 := by
  have hsettled : (g.kept execution moments input n).2.Settled g := kept_settled input n
  rw [hkept] at hsettled
  refine ⟨hsettled.updates, collect_of_cancelled hkept hcancelled,
    fun k h => answer_waiting hkept hcancelled h, answer_ending hkept hcancelled,
    fun k h => answer_ended hkept hcancelled h, fun k => ?_, fun k => ?_⟩
  · rw [← Poll.onward_groups, (poll_of_cancelled hkept hcancelled k).onward]
    rfl
  · have hasks : (s.drain k).asks ↔ k = s.pending.length ∧ s.finished = false := by
      rw [State.asks_iff]
      simp only [State.drain, List.drop_eq_nil_iff, Bool.or_eq_false_iff, decide_eq_false_iff_not]
      constructor
      · rintro ⟨hle, hfinished, hnot⟩
        exact ⟨Nat.le_antisymm (Nat.not_lt.mp hnot) hle, hfinished⟩
      · rintro ⟨rfl, hfinished⟩
        exact ⟨Nat.le_refl _, hfinished, Nat.lt_irrefl _⟩
    rw [(poll_of_cancelled hkept hcancelled k).questions]
    simp only [hasks]

def tally : Grouping :=
  ⟨[], [.const .null], [.count], [⟨none, "number"⟩], .updates, rfl, rfl⟩

def tallied (n : Nat) : Record := ⟨[(⟨none, "number"⟩, .int (.ofNat n))], false⟩

theorem consume_tally_begin : ∃ after,
    tally.consume ⟨.unlabelled 0, .empty⟩ .quiet tally.begin default = .ok ([tallied 1], after) ∧
      Stands after .empty [.counted 1] [.empty] := by
  rw [consume_of_check rfl]
  exact (Stands.begin tally .empty).accept [.int 1] rfl rfl rfl
    (Stands.previousRow_begin _ _) rfl rfl rfl

theorem consume_tally (h : Stands groups .empty [.counted n] [.empty]) : ∃ after,
    tally.consume ⟨.unlabelled 0, .empty⟩ .quiet groups default =
        .ok (changes (some (tallied n)) (tallied (n + 1)), after) ∧
      Stands after .empty [.counted (n + 1)] [.empty] := by
  rw [consume_of_check rfl]
  exact h.accept [.int (.ofNat (n + 1))] rfl rfl rfl
    (h.previousRow [.int (.ofNat n)] rfl) rfl rfl rfl

theorem poll_of_rows {row : Record} {rows : List Record} {after : Groups} {rest : RecordStream}
    (h : g.consume execution signals groups record = .ok (row :: rows, after)) :
    (RecordStream.cons (.ok record) rest).poll g execution signals ⟨groups, [], false⟩ =
      ⟨some (.ok row), rest, ⟨after, rows, false⟩, [⟨[], []⟩]⟩ := by
  obtain ⟨pull⟩ := rest
  rw [poll_of_consume rfl h, RecordStream.poll]
  rfl

def raisedBefore (n : Nat) : Nat → Signals :=
  fun k => if k < n then .quiet else (Query.unlabelled 0).cancel .quiet

theorem isCancelled_raisedBefore (n : Nat) :
    ∀ k, n ≤ k → (Query.unlabelled 0).isCancelled (raisedBefore n k) := by
  intro k hk
  rw [raisedBefore, if_neg (Nat.not_lt.mpr hk)]
  rfl

/-- Cancelled between the two rows that tell of a second record, with a third to come. -/
theorem cancellation_stops_between_rows : ∃ groups,
    tally.kept ⟨.unlabelled 0, .empty⟩ (raisedBefore 2)
      (.ofRecords [default, default, default]) 2 =
        (.ofRecords [default], ⟨groups, [tallied 2], false⟩) ∧
    (((RecordStream.ofRecords [default, default, default]).group tally ⟨.unlabelled 0, .empty⟩
      tally.begin).collect (raisedBefore 2)).drop 2 =
        [.ok (tallied 2), .error (.cancelled "query was cancelled")] := by
  obtain ⟨between, hfirst, hbetween⟩ := consume_tally_begin
  obtain ⟨groups, hsecond, -⟩ := consume_tally hbetween
  have hkept : tally.kept ⟨.unlabelled 0, .empty⟩ (raisedBefore 2)
      (.ofRecords [default, default, default]) 2 =
        (.ofRecords [default], ⟨groups, [tallied 2], false⟩) := by
    have hpoll : tally.poll ⟨.unlabelled 0, .empty⟩ (raisedBefore 2)
        (.ofRecords [default, default, default]) 0 = _ := poll_of_rows hfirst
    have hnext : tally.poll ⟨.unlabelled 0, .empty⟩ (raisedBefore 2)
        (.ofRecords [default, default, default]) 1 = ⟨some (.ok (tallied 1).retraction),
          .ofRecords [default], ⟨groups, [tallied 2], false⟩, [⟨[], []⟩]⟩ := by
      rw [poll, hpoll]
      exact poll_of_rows hsecond
    rw [kept, hnext]
    rfl
  exact ⟨groups, hkept, (cancellation_stops hkept (isCancelled_raisedBefore 2)).2.1⟩

end Grouping

end StreamQuery
