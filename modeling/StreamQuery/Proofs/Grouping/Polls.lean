import StreamQuery.Proofs.Grouping.Rows

/-!
# Polls of a grouping stream

A grouping stream that is asked for one item after the other keeps its groups, a
queue of rows that were made and not yet given away, and whether it is finished.
A poll takes a row from the queue. If the queue is empty it asks the input until
there is a row or the input ends; a failure empties the queue and finishes the
stream. The aggregates of a record that fails may have taken it in part.

A failure that has no message cannot be given. Making it panics in the middle of the
poll, which then leaves the stream as it happens to be: not finished, with what the
aggregates have taken of the record. A run ends there.

Up to then the answers are the items of the stream that the groups alone define
(`answer_poll`). Whenever the input is asked the queue is empty, and so it is when
a failure empties it (`questions_poll`).
-/

namespace StreamQuery

namespace Grouping

/-- What a grouping stream keeps between two polls. -/
structure State where
  groups : Groups
  /-- Rows that were made and not yet given away. -/
  pending : List Record
  finished : Bool

/-- One question to the input: the rows that were waiting, and the rows that were
cleared because of its answer. -/
structure Question where
  waiting : List Record
  cleared : List Record

/-- What a poll gives and leaves behind. A poll that panics gives nothing; its answer
then is the failure without a message that it was about to give. -/
structure Poll where
  answer : Option Item
  input : RecordStream
  state : State
  questions : List Question

namespace Poll

def asking (question : Question) (poll : Poll) : Poll :=
  { poll with questions := question :: poll.questions }

def panics (poll : Poll) : Bool :=
  match poll.answer with
  | some (.error e) => e.message.isNone
  | _ => false

/-- What a run goes on with after a poll. A panic ends the run, and nothing is to come. -/
def onward (poll : Poll) : State :=
  if poll.panics then { poll.state with pending := [], finished := true } else poll.state

def outcome (poll : Poll) : Option Item × RecordStream × State :=
  (poll.answer, poll.input, poll.state)

theorem panics_of_outcome {poll other : Poll} (h : poll.outcome = other.outcome) :
    poll.panics = other.panics := by
  rw [panics, panics, show poll.answer = other.answer from congrArg Prod.fst h]

theorem onward_of_outcome {poll other : Poll} (h : poll.outcome = other.outcome) :
    poll.onward = other.onward := by
  rw [onward, onward, panics_of_outcome h,
    show poll.state = other.state from congrArg (·.2.2) h]

theorem onward_groups (poll : Poll) : poll.onward.groups = poll.state.groups := by
  unfold onward
  split <;> rfl

end Poll

namespace State

def start (g : Grouping) : State := ⟨g.begin, [], false⟩

def asks (s : State) : Bool := s.pending.isEmpty && !s.finished

theorem asks_iff {s : State} : s.asks ↔ s.pending = [] ∧ s.finished = false := by
  simp [asks]

def answer (s : State) (input : RecordStream) : Poll :=
  ⟨s.pending.head?.map .ok, input, { s with pending := s.pending.tail }, []⟩

/-- Gives a failure, clears the rows that wait and finishes the stream. Where the
failure has no message, making it panics before any of this. -/
def fail (s : State) (e : Error) (input : RecordStream) (waiting : List Record) : Poll :=
  match e.message with
  | some _ =>
    ⟨some (.error e), input, { s with pending := [], finished := true }, [⟨waiting, s.pending⟩]⟩
  | none => ⟨some (.error e), input, s, [⟨waiting, []⟩]⟩

variable {s : State} {e : Error} {input : RecordStream} {waiting : List Record}

theorem fail_answer : (s.fail e input waiting).answer = some (.error e) := by
  unfold fail
  split <;> rfl

theorem fail_input : (s.fail e input waiting).input = input := by
  unfold fail
  split <;> rfl

theorem fail_panics : (s.fail e input waiting).panics = e.message.isNone := by
  rw [Poll.panics, fail_answer]

theorem fail_state : (s.fail e input waiting).state =
    if e.message.isNone then s else ⟨s.groups, [], true⟩ := by
  unfold fail
  cases e.message <;> rfl

theorem fail_onward : (s.fail e input waiting).onward = ⟨s.groups, [], true⟩ := by
  rw [Poll.onward, fail_panics, fail_state]
  cases e.message <;> rfl

theorem fail_questions (h : s.pending = []) :
    (s.fail e input waiting).questions = [⟨waiting, []⟩] := by
  unfold fail
  cases e.message <;> simp [h]

theorem answer_onward : (s.answer input).onward = (s.answer input).state := by
  obtain ⟨groups, pending, finished⟩ := s
  cases pending <;> rfl

end State

/-- All that has to go well with a record before anything changes: its key, the
inputs of the aggregates, and the row that its group had, where that is told. -/
def prepare (g : Grouping) (execution : Execution) (signals : Signals) (groups : Groups)
    (record : Record) : Except Error (GroupKey × List Value × Option Record) := do
  execution.query.check signals
  if record.isRetraction then
    .error (.invalidArgument do
      return s!"group by cannot consume retraction {← record.render}")
  let (key, inputs) ← g.evaluate execution.scope record
  let previous ← match g.emission with
    | .updates => g.previousRow groups key
    | .final => .ok none
  return (key, inputs, previous)

def tell (g : Grouping) (after : Groups) (key : GroupKey) (previous : Option Record) :
    Except Error (List Record) :=
  match g.emission with
  | .updates => do return changes previous (← g.row after key)
  | .final => .ok []

/-- Takes in a record. A failure leaves the aggregates as far as they have come; the
queue grows only when nothing can fail any more. -/
def take (g : Grouping) (execution : Execution) (signals : Signals) (record : Record) (s : State) :
    Except Error Unit × State :=
  match g.prepare execution signals s.groups record with
  | .error e => (.error e, s)
  | .ok (key, inputs, previous) =>
    match addEach key s.groups.aggregates inputs with
    | (.error e, aggregates) => (.error e, { s with groups := { s.groups with aggregates } })
    | (.ok (), aggregates) =>
      let after : Groups := ⟨aggregates, s.groups.seen.upsert key () id⟩
      match g.tell after key previous with
      | .error e => (.error e, { s with groups := after })
      | .ok rows => (.ok (), { s with groups := after, pending := s.pending ++ rows })

def receive (g : Grouping) (execution : Execution) (signals : Signals) (item : Item) (s : State) :
    Except Error Unit × State :=
  match item with
  | .error e => (.error e, s)
  | .ok record => g.take execution signals record s

def close (g : Grouping) (s : State) : Except Error Unit × State :=
  match g.finish s.groups with
  | .error e => (.error e, { s with finished := true })
  | .ok rows => (.ok (), { s with finished := true, pending := s.pending ++ rows })

end Grouping

open Grouping (State Poll)

mutual

/-- One poll of a grouping stream: the input is asked when no row waits, all the time
at the same moment. -/
def RecordStream.poll (g : Grouping) (execution : Execution) (signals : Signals) :
    RecordStream → State → Poll
  | .mk pull, s =>
    if s.asks then (pull signals).poll g execution signals s
    else s.answer (.mk pull)
termination_by structural stream => stream

def Pull.poll (g : Grouping) (execution : Execution) (signals : Signals) : Pull → State → Poll
  | .done, s =>
    match g.close s with
    | (.error e, after) => after.fail e .empty s.pending
    | (.ok (), after) => (after.answer .empty).asking ⟨s.pending, []⟩
  | .yield item rest, s =>
    match g.receive execution signals item s with
    | (.error e, after) => after.fail e rest s.pending
    | (.ok (), after) => (rest.poll g execution signals after).asking ⟨s.pending, []⟩
termination_by structural pull => pull

end

namespace Grouping

def poll (g : Grouping) (execution : Execution) (moments : Nat → Signals) (input : RecordStream) :
    Nat → Poll
  | 0 => input.poll g execution (moments 0) (.start g)
  | k + 1 =>
    let last := g.poll execution moments input k
    last.input.poll g execution (moments (k + 1)) last.onward

-- ---------------------------------------------------------------------------
-- Single steps
-- ---------------------------------------------------------------------------

variable {g : Grouping} {execution : Execution} {signals : Signals} {record : Record} {s : State}

theorem consume_eq (groups : Groups) : g.consume execution signals groups record = (do
    let (key, inputs, previous) ← g.prepare execution signals groups record
    let after ← absorb groups key inputs
    let rows ← g.tell after key previous
    return (rows, after)) := by
  unfold consume accept prepare tell
  cases execution.query.check signals with
  | error e => rfl
  | ok checked =>
    cases record.isRetraction with
    | true => rfl
    | false =>
      cases g.evaluate execution.scope record with
      | error e => rfl
      | ok evaluated =>
        obtain ⟨key, inputs⟩ := evaluated
        simp only [ok_bind, Bool.false_eq_true, ↓reduceIte]
        cases g.emission with
        | final => rfl
        | updates => simp only [bind_assoc, pure_bind]

theorem prepare_of_updates {key : GroupKey} {inputs : List Value}
    (hupdates : g.emission = .updates) (hcheck : execution.query.check signals = .ok ())
    (hinsert : record.isRetraction = false)
    (he : g.evaluate execution.scope record = .ok (key, inputs))
    (hprevious : g.previousRow groups key = .ok previous) :
    g.prepare execution signals groups record = .ok (key, inputs, previous) := by
  rw [prepare, hcheck, hinsert, he, hupdates]
  simp only [ok_bind, Bool.false_eq_true, ↓reduceIte, hprevious]
  rfl

/-- Taking in a record has the outcome that the groups alone have. The rows are
put behind those that wait, and a failure adds none. -/
theorem take_cases (g : Grouping) (execution : Execution) (signals : Signals) (record : Record)
    (s : State) :
    (∃ rows after, g.consume execution signals s.groups record = .ok (rows, after) ∧
      g.take execution signals record s =
        (.ok (), { s with groups := after, pending := s.pending ++ rows })) ∨
    ∃ e groups, g.consume execution signals s.groups record = .error e ∧
      g.take execution signals record s = (.error e, { s with groups }) := by
  rw [consume_eq, take]
  cases g.prepare execution signals s.groups record with
  | error e => exact .inr ⟨e, s.groups, rfl, rfl⟩
  | ok prepared =>
    obtain ⟨key, inputs, previous⟩ := prepared
    simp only [ok_bind, absorb, addAll_eq]
    obtain ⟨outcome, aggregates⟩ := addEach key s.groups.aggregates inputs
    cases outcome with
    | error e => exact .inr ⟨e, _, rfl, rfl⟩
    | ok taken =>
      simp only [Except.map, ok_bind, pure_bind]
      cases g.tell ⟨aggregates, s.groups.seen.upsert key () id⟩ key previous with
      | error e => exact .inr ⟨e, _, rfl, rfl⟩
      | ok rows => exact .inl ⟨rows, _, rfl, rfl⟩

theorem receive_cases (g : Grouping) (execution : Execution) (signals : Signals) (item : Item)
    (s : State) :
    (∃ rows after, item.bind (g.consume execution signals s.groups) = .ok (rows, after) ∧
      g.receive execution signals item s =
        (.ok (), { s with groups := after, pending := s.pending ++ rows })) ∨
    ∃ e groups, item.bind (g.consume execution signals s.groups) = .error e ∧
      g.receive execution signals item s = (.error e, { s with groups }) := by
  cases item with
  | error e => exact .inr ⟨e, s.groups, rfl, rfl⟩
  | ok record => exact take_cases g execution signals record s

/-- A record that is taken in makes rows, and then the poll goes on. -/
theorem poll_of_consume {input rest : RecordStream} {groups after : Groups} {told : List Record}
    (hnext : input.next signals = .yield (.ok record) rest)
    (hconsume : g.consume execution signals groups record = .ok (told, after)) :
    input.poll g execution signals ⟨groups, [], false⟩ =
      (rest.poll g execution signals ⟨after, told, false⟩).asking ⟨[], []⟩ := by
  obtain ⟨pull⟩ := input
  have hpull : pull signals = .yield (.ok record) rest := hnext
  rw [RecordStream.poll, if_pos (by rfl), hpull, Pull.poll, receive]
  rcases take_cases g execution signals record ⟨groups, [], false⟩ with
    ⟨rows, kept, h, htake⟩ | ⟨e, kept, h, -⟩
  · cases hconsume.symm.trans h
    rw [htake]
    rfl
  · cases hconsume.symm.trans h

/-- An item that fails ends the poll, with what is left of the stream then. -/
theorem poll_of_error {input rest : RecordStream} {groups : Groups} {item : Item} {after : State}
    (hnext : input.next signals = .yield item rest)
    (hreceive : g.receive execution signals item ⟨groups, [], false⟩ = (.error e, after)) :
    input.poll g execution signals ⟨groups, [], false⟩ = after.fail e rest [] := by
  obtain ⟨pull⟩ := input
  have hpull : pull signals = .yield item rest := hnext
  rw [RecordStream.poll, if_pos (by rfl), hpull, Pull.poll, hreceive]

-- ---------------------------------------------------------------------------
-- What polls give
-- ---------------------------------------------------------------------------

/-- The items still to come: the rows that wait, and unless the stream is finished
those that the groups make of the rest of the input. -/
def State.stream (g : Grouping) (execution : Execution) (s : State) (input : RecordStream) :
    RecordStream :=
  (if s.finished then .empty else input.group g execution s.groups).prepend (s.pending.map .ok)

/-- The poll gives the first of these items, if there is one, and leaves the others. -/
structure Poll.Gives (g : Grouping) (execution : Execution) (moments : Nat → Signals) (p : Poll)
    (items : List Item) : Prop where
  answer : p.answer = items.head?
  others : (p.onward.stream g execution p.input).collect (later 1 moments) = items.tail

theorem Poll.Gives.asking {p : Poll} {items : List Item} (h : p.Gives g execution moments items)
    (question : Question) : (p.asking question).Gives g execution moments items :=
  ⟨h.answer, h.others⟩

theorem State.answer_gives (hs : ¬ s.asks) (input : RecordStream) :
    (s.answer input).Gives g execution moments
      ((s.stream g execution input).collect moments) := by
  obtain ⟨groups, pending, finished⟩ := s
  cases pending with
  | cons row rest => exact ⟨rfl, rfl⟩
  | nil =>
    obtain rfl : finished = true := by simpa [asks_iff] using hs
    exact ⟨rfl, rfl⟩

theorem State.fail_gives (e : Error) (input : RecordStream) (waiting : List Record) :
    (s.fail e input waiting).Gives g execution moments [.error e] :=
  ⟨fail_answer, by rw [fail_onward]; rfl⟩

end Grouping

open Grouping

variable {g : Grouping} {execution : Execution} {moments : Nat → Signals} {signals : Signals}

mutual

theorem RecordStream.poll_gives : (stream : RecordStream) → (s : State) →
    (stream.poll g execution (moments 0) s).Gives g execution moments
      ((s.stream g execution stream).collect moments)
  | .mk pull, s => by
    rw [RecordStream.poll]
    by_cases hs : s.asks
    · rw [if_pos hs]
      obtain ⟨hpending, hfinished⟩ := State.asks_iff.mp hs
      have hstream : s.stream g execution (.mk pull) =
          (RecordStream.mk pull).group g execution s.groups := by
        rw [State.stream, hpending, hfinished]
        rfl
      rw [hstream]
      exact (pull (moments 0)).poll_gives s hpending hfinished
    · rw [if_neg hs]
      exact s.answer_gives hs _
termination_by structural stream => stream

theorem Pull.poll_gives : (pull : Pull) → (s : State) → s.pending = [] → s.finished = false →
    (pull.poll g execution (moments 0) s).Gives g execution moments
      ((pull.group g execution (moments 0) s.groups).collect moments)
  | .done, s, hpending, hfinished => by
    rw [Pull.group, Pull.poll, close]
    cases g.finish s.groups with
    | error e => exact State.fail_gives e _ _
    | ok rows =>
      have hstream : RecordStream.ofRecords rows = State.stream g execution
          { s with finished := true, pending := s.pending ++ rows } .empty := by
        rw [State.stream, hpending]
        rfl
      rw [← RecordStream.collect_next, hstream]
      exact (State.answer_gives (by simp [State.asks]) _).asking _
  | .yield item rest, s, hpending, hfinished => by
    rw [Pull.group, Pull.poll]
    rcases receive_cases g execution (moments 0) item s with
      ⟨rows, after, hconsume, hreceive⟩ | ⟨e, groups, hconsume, hreceive⟩
    · have hstream : (rest.group g execution after).prepend (rows.map .ok) =
          State.stream g execution { s with groups := after, pending := s.pending ++ rows } rest := by
        rw [State.stream, hpending, hfinished]
        rfl
      rw [hconsume, hreceive, ← RecordStream.collect_next, hstream]
      exact (rest.poll_gives _).asking _
    · rw [hconsume, hreceive]
      exact State.fail_gives e _ _
termination_by structural pull => pull

end

mutual

theorem RecordStream.questions_poll : (stream : RecordStream) → (s : State) →
    ∀ question ∈ (stream.poll g execution signals s).questions, question = ⟨[], []⟩
  | .mk pull, s => by
    rw [RecordStream.poll]
    by_cases hs : s.asks
    · rw [if_pos hs]
      exact (pull signals).questions_poll s (State.asks_iff.mp hs).1
    · simp [hs, State.answer]
termination_by structural stream => stream

theorem Pull.questions_poll : (pull : Pull) → (s : State) → s.pending = [] →
    ∀ question ∈ (pull.poll g execution signals s).questions, question = ⟨[], []⟩
  | .done, s, hpending => by
    rw [Pull.poll, close]
    cases g.finish s.groups <;> simp [State.fail_questions, Poll.asking, State.answer, hpending]
  | .yield item rest, s, hpending => by
    rw [Pull.poll]
    rcases receive_cases g execution signals item s with
      ⟨rows, after, -, hreceive⟩ | ⟨e, groups, -, hreceive⟩
    · rw [hreceive]
      intro question hmem
      rcases List.mem_cons.mp hmem with rfl | hmem
      · rw [hpending]
      · exact rest.questions_poll _ question hmem
    · rw [hreceive]
      simp [State.fail_questions, hpending]
termination_by structural pull => pull

end

namespace Grouping

theorem poll_gives (input : RecordStream) (k : Nat) :
    (g.poll execution moments input k).Gives g execution (later k moments)
      (((input.group g execution g.begin).collect moments).drop k) := by
  induction k with
  | zero => exact input.poll_gives (.start g)
  | succ k ih =>
    have hmoment : later (k + 1) moments 0 = moments (k + 1) := congrArg moments (Nat.zero_add _)
    rw [← List.tail_drop, ← ih.others, later_later, poll, ← hmoment]
    exact RecordStream.poll_gives _ _

theorem answer_poll (input : RecordStream) (k : Nat) : (g.poll execution moments input k).answer =
    ((input.group g execution g.begin).collect moments)[k]? := by
  rw [(poll_gives input k).answer, List.head?_drop]

theorem questions_poll (input : RecordStream) (k : Nat) :
    ∀ question ∈ (g.poll execution moments input k).questions, question = ⟨[], []⟩ := by
  cases k with
  | zero => exact input.questions_poll _
  | succ k => exact RecordStream.questions_poll _ _

end Grouping

end StreamQuery
