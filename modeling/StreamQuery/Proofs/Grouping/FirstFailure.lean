import StreamQuery.Proofs.Grouping.Arrival
import StreamQuery.Proofs.Grouping.Place
import StreamQuery.Proofs.Grouping.Polls
import StreamQuery.Proofs.Message

/-!
# The first failure of a grouping stream

Records of the input are taken in one after the other (`Takes`) until the input ends
or an item fails. The faults an item can have are those of `Fault` and no others:
the rows of a group that was seen are always there. A stream ends cleanly at the
first fault (`ends_at_first_failure`): it gives the rows of the records before it,
then the failure, and nothing afterwards.
-/

namespace StreamQuery.Grouping

-- ---------------------------------------------------------------------------
-- Faults
-- ---------------------------------------------------------------------------

/-- One of the aggregates refuses its input, after those before it took theirs. -/
inductive Refuses (key : GroupKey) (e : Error) : List Aggregate → List Value → Prop where
  | here {aggregates : List Aggregate} {inputs : List Value}
      (h : (aggregate.add key v).1 = .error e) :
      Refuses key e (aggregate :: aggregates) (v :: inputs)
  | next {aggregates : List Aggregate} {inputs : List Value} (h : (aggregate.add key v).1 = .ok ())
      (hrest : Refuses key e aggregates inputs) :
      Refuses key e (aggregate :: aggregates) (v :: inputs)

/-- The ways in which an item can fail. -/
inductive Fault (g : Grouping) (execution : Execution) (signals : Signals) (groups : Groups) :
    Item → Error → Prop where
  | item (e : Error) : Fault g execution signals groups (.error e) e
  | stopped (h : execution.query.check signals = .error e) :
      Fault g execution signals groups (.ok record) e
  | retraction (hcheck : execution.query.check signals = .ok ()) (h : record.isRetraction) :
      Fault g execution signals groups (.ok record) (.invalidArgument do
        return s!"group by cannot consume retraction {← record.render}")
  | key (hcheck : execution.query.check signals = .ok ()) (hinsert : record.isRetraction = false)
      (h : Scalar.evalItems (execution.scope.withRecord record) g.key = .error e) :
      Fault g execution signals groups (.ok record) e
  | input (hcheck : execution.query.check signals = .ok ()) (hinsert : record.isRetraction = false)
      (hkey : Scalar.evalItems (execution.scope.withRecord record) g.key = .ok values)
      (h : Scalar.evalItems (execution.scope.withRecord record) g.inputs = .error e) :
      Fault g execution signals groups (.ok record) e
  | refused {inputs : List Value} (hcheck : execution.query.check signals = .ok ())
      (hinsert : record.isRetraction = false)
      (hkey : Scalar.evalItems (execution.scope.withRecord record) g.key = .ok values)
      (hinputs : Scalar.evalItems (execution.scope.withRecord record) g.inputs = .ok inputs)
      (h : Refuses ⟨values⟩ e groups.aggregates inputs) :
      Fault g execution signals groups (.ok record) e

variable {g : Grouping} {execution : Execution} {moments : Nat → Signals} {signals : Signals}
  {input left : RecordStream} {groups after last : Groups} {records rows told : List Record}
  {record : Record} {item : Item} {e : Error} {key : GroupKey} {aggregates : List Aggregate}
  {values inputs : List Value}

theorem addAll_error :
    addAll key aggregates inputs = .error e ↔ Refuses key e aggregates inputs := by
  constructor
  · intro h
    induction aggregates generalizing inputs with
    | nil => cases inputs <;> cases h
    | cons aggregate aggregates ih =>
      cases inputs with
      | nil => cases h
      | cons v inputs =>
        rcases addAll_cons_error.mp h with h | ⟨hadd, h⟩
        · exact .here h
        · exact .next hadd (ih h)
  · intro h
    induction h with
    | here h => exact addAll_cons_error.mpr (.inl h)
    | next h _ ih => exact addAll_cons_error.mpr (.inr ⟨h, ih⟩)

/-- A record is refused only where it cannot be taken in: its rows are there. -/
theorem accept_cases (h : Serves g groups) (scope : Scope) (record : Record) :
    (∃ e, g.takeIn scope groups record = .error e ∧ g.accept scope groups record = .error e) ∨
    ∃ key told after, g.takeIn scope groups record = .ok (key, after) ∧
      g.accept scope groups record = .ok (told, after) ∧ (g.emission = .final → told = []) := by
  cases hemission : g.emission with
  | final =>
    have haccept : g.accept scope groups record =
        (g.takeIn scope groups record).map fun taken => ([], taken.2) := by
      rw [← accept_final, emitting_self hemission]
    rw [haccept]
    cases ht : g.takeIn scope groups record with
    | error e => exact .inl ⟨e, rfl, rfl⟩
    | ok taken => exact .inr ⟨taken.1, [], taken.2, rfl, rfl, fun _ => rfl⟩
  | updates =>
    have haccept := @accept_updates g scope groups record h
    rw [emitting_self hemission] at haccept
    rw [haccept]
    cases ht : g.takeIn scope groups record with
    | error e => exact .inl ⟨e, rfl, rfl⟩
    | ok taken =>
      obtain ⟨key, after⟩ := taken
      have hlen := key_length_takeIn ht
      obtain ⟨previous, hprevious⟩ := h.exists_previousRow hlen
      obtain ⟨current, hcurrent⟩ := (h.takeIn ht).exists_row
        ((contains_takeIn ht).mpr (.inl rfl)) hlen
      refine .inr ⟨key, changes previous current, after, rfl, ?_, by simp⟩
      simp only [ok_bind, hprevious, hcurrent]
      rfl

theorem consume_ok (h : Serves g groups)
    (hconsume : g.consume execution signals groups record = .ok (told, after)) :
    Serves g after ∧ (g.emission = .final → told = []) := by
  obtain ⟨_, -, haccept⟩ := bind_ok.mp hconsume
  rcases accept_cases h execution.scope record with ⟨e, -, ha⟩ | ⟨key, told', after', ht, ha, hfinal⟩
  · rw [haccept] at ha
    cases ha
  · rw [haccept] at ha
    cases ha
    exact ⟨h.takeIn ht, hfinal⟩

theorem fault_iff (h : Serves g groups) :
    item.bind (g.consume execution signals groups) = .error e ↔
      g.Fault execution signals groups item e := by
  cases item with
  | error e' =>
    constructor
    · intro he
      cases he
      exact .item e
    · intro hfault
      cases hfault
      rfl
  | ok record =>
    have haccept : g.accept execution.scope groups record = .error e ↔
        g.takeIn execution.scope groups record = .error e := by
      rcases accept_cases h execution.scope record with
        ⟨e', ht, ha⟩ | ⟨key, told, after, ht, ha, -⟩
      · simp [ht, ha]
      · simp [ht, ha]
    change g.consume execution signals groups record = .error e ↔ _
    simp only [consume, bind_error, haccept, takeIn_error, evaluate_error, evaluate_ok,
      addAll_error]
    constructor
    · rintro (hstopped | ⟨_, hcheck, ⟨hretraction, rfl⟩ | ⟨hinsert,
        (hkey | ⟨values, hkey, hinput⟩) | ⟨key, inputs, ⟨hkey, hinputs⟩, hrefuses⟩⟩⟩)
      · exact .stopped hstopped
      · exact .retraction hcheck hretraction
      · exact .key hcheck hinsert hkey
      · exact .input hcheck hinsert hkey hinput
      · exact .refused hcheck hinsert hkey hinputs hrefuses
    · intro hfault
      cases hfault with
      | stopped h => exact .inl h
      | retraction hcheck h => exact .inr ⟨(), hcheck, .inl ⟨h, rfl⟩⟩
      | key hcheck hinsert h => exact .inr ⟨(), hcheck, .inr ⟨hinsert, .inl (.inl h)⟩⟩
      | input hcheck hinsert hkey h =>
        exact .inr ⟨(), hcheck, .inr ⟨hinsert, .inl (.inr ⟨_, hkey, h⟩)⟩⟩
      | refused hcheck hinsert hkey hinputs h =>
        exact .inr ⟨(), hcheck, .inr ⟨hinsert, .inr ⟨_, _, ⟨hkey, hinputs⟩, h⟩⟩⟩

-- ---------------------------------------------------------------------------
-- Records before the first fault
-- ---------------------------------------------------------------------------

/-- From these groups on, a stream takes in records from the front of the input, one
after the other, and gives rows; so much of the input and these groups are left. -/
inductive Takes (g : Grouping) (execution : Execution) :
    (Nat → Signals) → RecordStream → Groups → List Record → List Record → RecordStream → Groups →
      Prop where
  | none (moments : Nat → Signals) (input : RecordStream) (groups : Groups) :
      Takes g execution moments input groups [] [] input groups
  | next {moments : Nat → Signals} {input rest left : RecordStream} {groups after last : Groups}
      {record : Record} {records told rows : List Record}
      (hnext : input.next (moments 0) = .yield (.ok record) rest)
      (hconsume : g.consume execution (moments 0) groups record = .ok (told, after))
      (h : Takes g execution (later told.length moments) rest after records rows left last) :
      Takes g execution moments input groups (record :: records) (told ++ rows) left last

theorem collect_group_of_next (h : input.next (moments 0) = pull) :
    (input.group g execution groups).collect moments =
      (pull.group g execution (moments 0) groups).collect moments := by
  subst h
  cases input
  rfl

namespace Takes

theorem collect (h : g.Takes execution moments input groups records rows left last) :
    (input.group g execution groups).collect moments =
      rows.map .ok ++ (left.group g execution last).collect (later rows.length moments) := by
  induction h with
  | none => rfl
  | next hnext hconsume _ ih =>
    rw [collect_group_of_next hnext, Pull.group, Except.bind, hconsume]
    simp only
    rw [← RecordStream.collect_next, RecordStream.collect_prepend, List.length_map, ih, later_later,
      List.map_append, List.append_assoc, List.length_append]

theorem alone (h : g.Takes execution moments input groups records rows left last) :
    g.Takes execution moments (.ofRecords records) groups records rows .empty last := by
  induction h with
  | none => exact .none _ _ _
  | next _ hconsume _ ih => exact .next rfl hconsume ih

theorem serves (h : g.Takes execution moments input groups records rows left last)
    (hs : Serves g groups) : Serves g last := by
  induction h with
  | none => exact hs
  | next _ hconsume _ ih => exact ih (consume_ok hs hconsume).1

theorem rows_final (h : g.Takes execution moments input groups records rows left last)
    (hs : Serves g groups) (hfinal : g.emission = .final) : rows = [] := by
  induction h with
  | none => rfl
  | next _ hconsume _ ih =>
    rw [(consume_ok hs hconsume).2 hfinal, ih (consume_ok hs hconsume).1]
    rfl

end Takes

/-- Some records are taken in, and then the input ends or an item fails. -/
def Settles (g : Grouping) (execution : Execution) (moments : Nat → Signals) (input : RecordStream)
    (groups : Groups) : Prop :=
  ∃ records rows left last, g.Takes execution moments input groups records rows left last ∧
    (left.next (moments rows.length) = .done ∨ ∃ item rest e,
      left.next (moments rows.length) = .yield item rest ∧
        g.Fault execution (moments rows.length) last item e)

mutual

/-- Every run is of this form. -/
theorem settles : (stream : RecordStream) → (moments : Nat → Signals) → (groups : Groups) →
    Serves g groups → g.Settles execution moments stream groups
  | .mk pull, moments, groups, hs =>
    settles_of_next (pull (moments 0)) (.mk pull) moments groups hs rfl
termination_by structural stream => stream

theorem settles_of_next : (pull : Pull) → (stream : RecordStream) → (moments : Nat → Signals) →
    (groups : Groups) → Serves g groups → stream.next (moments 0) = pull →
    g.Settles execution moments stream groups
  | .done, stream, moments, groups, _, hnext => ⟨[], [], stream, groups, .none _ _ _, .inl hnext⟩
  | .yield item rest, stream, moments, groups, hs, hnext => by
    cases hitem : item.bind (g.consume execution (moments 0) groups) with
    | error e =>
      exact ⟨[], [], stream, groups, .none _ _ _,
        .inr ⟨item, rest, e, hnext, (fault_iff hs).mp hitem⟩⟩
    | ok taken =>
      obtain ⟨told, after⟩ := taken
      cases item with
      | error e => cases hitem
      | ok record =>
        have hconsume : g.consume execution (moments 0) groups record = .ok (told, after) := hitem
        obtain ⟨records, rows, left, last, htakes, hend⟩ :=
          settles rest (later told.length moments) after (consume_ok hs hconsume).1
        have hmoment : later told.length moments rows.length = moments (told ++ rows).length := by
          rw [List.length_append, Nat.add_comm]
          rfl
        rw [hmoment] at hend
        exact ⟨record :: records, told ++ rows, left, last, .next hnext hconsume htakes, hend⟩
termination_by structural pull => pull

end

-- ---------------------------------------------------------------------------
-- Polls before the first fault
-- ---------------------------------------------------------------------------

theorem outcome_poll_of_consume (hnext : input.next signals = .yield (.ok record) rest)
    (hconsume : g.consume execution signals groups record = .ok (told, after)) :
    (input.poll g execution signals ⟨groups, [], false⟩).outcome =
      (rest.poll g execution signals ⟨after, told, false⟩).outcome := by
  rw [poll_of_consume hnext hconsume]
  rfl

theorem outcome_poll_told {n : Nat}
    (h : (g.poll execution moments input n).outcome =
      (left.poll g execution (moments n) ⟨groups, told, false⟩).outcome) :
    (g.poll execution moments input (n + told.length)).outcome =
      (left.poll g execution (moments (n + told.length)) ⟨groups, [], false⟩).outcome := by
  induction told generalizing n with
  | nil => exact h
  | cons row told ih =>
    obtain ⟨pull⟩ := left
    rw [RecordStream.poll, if_neg (by simp [State.asks])] at h
    have hinput : (g.poll execution moments input n).input = .mk pull := congrArg (·.2.1) h
    have honward : (g.poll execution moments input n).onward = ⟨groups, told, false⟩ :=
      (Poll.onward_of_outcome h).trans State.answer_onward
    rw [List.length_cons, ← Nat.add_assoc, Nat.add_right_comm]
    refine ih ?_
    rw [poll, hinput, honward]

theorem Takes.outcome_poll {offset : Nat → Signals} {start : RecordStream} {n : Nat}
    (h : g.Takes execution offset start groups records rows left last)
    (hoffset : offset = later n moments)
    (hpoll : (g.poll execution moments input n).outcome =
      (start.poll g execution (moments n) ⟨groups, [], false⟩).outcome) :
    (g.poll execution moments input (n + rows.length)).outcome =
      (left.poll g execution (moments (n + rows.length)) ⟨last, [], false⟩).outcome := by
  induction h generalizing n with
  | none => exact hpoll
  | @next offset start rest left groups after last record records told rows hnext hconsume _ ih =>
    subst hoffset
    have hmoment : later n moments 0 = moments n := congrArg moments (Nat.zero_add n)
    rw [hmoment] at hnext hconsume
    have htold := outcome_poll_told (hpoll.trans (outcome_poll_of_consume hnext hconsume))
    rw [List.length_append, ← Nat.add_assoc]
    exact ih (later_later ..) htold

theorem outcome_poll_of_fault (hs : Serves g groups)
    (hnext : left.next signals = .yield item rest)
    (hfault : g.Fault execution signals groups item e) :
    ∃ reached, g.receive execution signals item ⟨groups, [], false⟩ =
        (.error e, ⟨reached, [], false⟩) ∧
      (left.poll g execution signals ⟨groups, [], false⟩).outcome =
        (State.fail ⟨reached, [], false⟩ e rest []).outcome := by
  have hitem := (fault_iff hs).mpr hfault
  rcases receive_cases g execution signals item ⟨groups, [], false⟩ with
    ⟨told, after, h, -⟩ | ⟨e', reached, h, hreceive⟩
  · cases hitem.symm.trans h
  · cases hitem.symm.trans h
    exact ⟨reached, hreceive, congrArg Poll.outcome (poll_of_error hnext hreceive)⟩

-- ---------------------------------------------------------------------------
-- The end of a stream
-- ---------------------------------------------------------------------------

/-- Where the failure has a message, a grouping stream ends cleanly at it. With updates
the stream gives the rows that it gives for the records before the failing item alone,
and with a final emission no row; then it gives the failure, and nothing however often
it is asked again. So no row tells of the failing item, even if some of the aggregates
have taken it in, nor of any item after it.

Where the failure has no message, the same rows come before it, and then a poll panics.
It gives nothing, and leaves the stream unfinished and the aggregates as far as they
have come. If somebody polls on, this goes into the rows to come.

In both cases no row waits whenever the input is asked, so that a failure clears none.
The input may answer differently at different moments, and a query that is stopped
counts as a failure of the next record. -/
theorem ends_at_first_failure {rest : RecordStream}
    (htakes : g.Takes execution moments input g.begin records rows left groups)
    (hnext : left.next (moments rows.length) = .yield item rest)
    (hfault : g.Fault execution (moments rows.length) groups item e) :
    (g.emission = .updates →
      ((RecordStream.ofRecords records).group g execution g.begin).collect moments = rows.map .ok) ∧
    (g.emission = .final → rows = []) ∧
    (∀ k (h : k < rows.length), (g.poll execution moments input k).answer = some (.ok rows[k])) ∧
    (e.message ≠ none →
      (input.group g execution g.begin).collect moments = rows.map .ok ++ [.error e] ∧
      (g.poll execution moments input rows.length).answer = some (.error e) ∧
      ∀ k, rows.length < k → (g.poll execution moments input k).answer = none) ∧
    (e.message = none →
      (g.poll execution moments input rows.length).panics ∧
      (g.poll execution moments input rows.length).input = rest ∧
      ∃ reached, g.receive execution (moments rows.length) item ⟨groups, [], false⟩ =
          (.error e, ⟨reached, [], false⟩) ∧
        (g.poll execution moments input rows.length).state = ⟨reached, [], false⟩) ∧
    ∀ k, ∀ question ∈ (g.poll execution moments input k).questions,
      question.waiting = [] ∧ question.cleared = [] := by
  have hserves := htakes.serves (serves_begin g)
  have hitems : (input.group g execution g.begin).collect moments =
      rows.map .ok ++ [.error e] := by
    have hmoment : later rows.length moments 0 = moments rows.length :=
      congrArg moments (Nat.zero_add _)
    have hitem := (fault_iff hserves).mpr hfault
    rw [← hmoment] at hnext hitem
    rw [htakes.collect, collect_group_of_next hnext, Pull.group, hitem]
    rfl
  refine ⟨fun hupdates => ?_, htakes.rows_final (serves_begin g), fun k h => ?_,
    fun hmessage => ⟨hitems, ?_, fun k h => ?_⟩, fun hmessage => ?_, fun k question hmem => ?_⟩
  · have hfinish : g.finish groups = .ok [] := by rw [finish, hupdates]
    rw [htakes.alone.collect, collect_group_of_next rfl, RecordStream.empty, RecordStream.next,
      Pull.group, hfinish]
    exact List.append_nil _
  · rw [answer_poll, hitems, List.getElem?_append_left (by simpa using h), List.getElem?_map,
      List.getElem?_eq_getElem h]
    rfl
  · rw [answer_poll, hitems]
    simp
  · rw [answer_poll, hitems]
    refine List.getElem?_eq_none ?_
    rw [List.length_append, List.length_map]
    exact h
  · have hlast : (g.poll execution moments input (0 + rows.length)).outcome = _ :=
      htakes.outcome_poll rfl rfl
    rw [Nat.zero_add] at hlast
    obtain ⟨reached, hreceive, hpoll⟩ := outcome_poll_of_fault hserves hnext hfault
    have houtcome := hlast.trans hpoll
    have hstate : (State.fail ⟨reached, [], false⟩ e rest []).state = ⟨reached, [], false⟩ := by
      rw [State.fail_state, hmessage]
      rfl
    refine ⟨?_, ?_, reached, hreceive, (congrArg (·.2.2) houtcome).trans hstate⟩
    · rw [Poll.panics_of_outcome houtcome, State.fail_panics, hmessage]
      rfl
    · exact (congrArg (·.2.1) houtcome).trans State.fail_input
  · rw [questions_poll input k question hmem]
    exact ⟨rfl, rfl⟩

-- ---------------------------------------------------------------------------
-- A refusal after the others took theirs
-- ---------------------------------------------------------------------------

namespace Stands

variable {places reached : List Place} {keys : List GroupKey}

theorem refuses (h : Stands groups key places keys)
    (hadd : Place.addEach places inputs = (.error e, reached)) :
    Refuses key e groups.aggregates inputs := by
  obtain ⟨hverdict, -⟩ := addEach_place key groups.aggregates inputs
  rw [h.places, hadd] at hverdict
  refine addAll_error.mp ?_
  rw [addAll_eq, hverdict]
  rfl

theorem take_refused (h : Stands groups key places keys)
    (hprepare : g.prepare execution signals groups record = .ok (key, inputs, previous))
    (hadd : Place.addEach places inputs = (.error e, reached)) :
    ∃ left, g.take execution signals record ⟨groups, [], false⟩ = (.error e, ⟨left, [], false⟩) ∧
      Stands left key reached keys := by
  obtain ⟨hverdict, hplaces⟩ := addEach_place key groups.aggregates inputs
  rw [h.places, hadd] at hverdict hplaces
  rcases hadded : addEach key groups.aggregates inputs with ⟨verdict, aggregates⟩
  rw [hadded] at hverdict hplaces
  subst hverdict
  refine ⟨⟨aggregates, groups.seen⟩, ?_, hplaces, h.keys⟩
  rw [take, hprepare]
  simp only [hadded]

theorem outcome_poll_of_refused (h : Stands groups key places keys)
    (hnext : left.next signals = .yield (.ok record) rest)
    (hprepare : g.prepare execution signals groups record = .ok (key, inputs, previous))
    (hadd : Place.addEach places inputs = (.error e, reached)) :
    ∃ kept, (left.poll g execution signals ⟨groups, [], false⟩).outcome =
        (State.fail ⟨kept, [], false⟩ e rest []).outcome ∧ Stands kept key reached keys := by
  obtain ⟨kept, htake, hkept⟩ := h.take_refused hprepare hadd
  exact ⟨kept, congrArg Poll.outcome (poll_of_error hnext htake), hkept⟩

end Stands

def greatestRow (x : Double) (number greatest : Int64) : Record :=
  ⟨[(⟨none, "x"⟩, .float x), (⟨none, "number"⟩, .int number), (⟨none, "greatest"⟩, .int greatest)],
    false⟩

def greatestPlaces (number : Nat) (greatest : Int64) : List Place :=
  [.counted number, ⟨.max, ⟨some (.int 1)⟩, some (.int greatest)⟩]

theorem consume_measured_begin (x : Double) : ∃ after,
    (greatestByX.emitting .updates).consume ⟨.unlabelled 0, .empty⟩ .quiet greatestByX.begin
        (measured x 1) = .ok (changes none (greatestRow x 1 1), after) ∧
      Stands after ⟨[.float x]⟩ (greatestPlaces 1 1) [⟨[.float x]⟩] := by
  rw [consume_of_check rfl]
  exact (Stands.begin greatestByX _).accept [.int 1, .int 1] rfl rfl rfl
    (Stands.previousRow_begin _ _) rfl rfl rfl

def mismeasured (x : Double) (v : Value) : Record :=
  ⟨[(⟨none, "x"⟩, .float x), (⟨none, "n"⟩, v)], false⟩

/-- The maximum refuses the second record when it has been counted. -/
theorem ends_at_first_failure_of_text :
    ((RecordStream.ofRecords
        [measured .zero 1, mismeasured .zero (.string "two"), measured .zero 3]).group
      (greatestByX.emitting .updates) ⟨.unlabelled 0, .empty⟩ greatestByX.begin).collect
        (fun _ => .quiet) = [.ok (greatestRow .zero 1 1),
          .error (.mixedTypes "max" "String" (some "\"two\"") "Int" (some "1"))] := by
  obtain ⟨between, hconsume, hbetween⟩ := consume_measured_begin .zero
  have htakes : (greatestByX.emitting .updates).Takes ⟨.unlabelled 0, .empty⟩ (fun _ => .quiet)
      (.ofRecords [measured .zero 1, mismeasured .zero (.string "two"), measured .zero 3])
      (greatestByX.emitting .updates).begin [measured .zero 1]
      (changes none (greatestRow .zero 1 1) ++ [])
      (.ofRecords [mismeasured .zero (.string "two"), measured .zero 3]) between :=
    .next rfl hconsume (.none _ _ _)
  have hfault : (greatestByX.emitting .updates).Fault ⟨.unlabelled 0, .empty⟩ .quiet between
      (.ok (mismeasured .zero (.string "two")))
      (.mixedTypes "max" "String" (some "\"two\"") "Int" (some "1")) :=
    .refused rfl rfl rfl rfl (hbetween.refuses rfl)
  obtain ⟨-, -, -, hends, -⟩ := ends_at_first_failure htakes rfl hfault
  exact (hends (by decide)).1

/-- Polls over a record, one that the maximum refuses without a text for its value when it
has been counted, and another record. -/
def misdated (k : Nat) : Poll :=
  (greatestByX.emitting .updates).poll ⟨.unlabelled 0, .empty⟩ (fun _ => .quiet)
    (.ofRecords [measured .zero 1, mismeasured .zero oneSecondAhead, measured .zero 3]) k

/-- The second poll panics and leaves the stream unfinished. Polled on, the stream retracts
a row that it never gave, with the refused record among those counted. -/
theorem goes_on_after_panic :
    (misdated 0).answer = some (.ok (greatestRow .zero 1 1)) ∧ (misdated 1).panics ∧
      (misdated 1).state.finished = false ∧
      ((misdated 1).input.poll (greatestByX.emitting .updates) ⟨.unlabelled 0, .empty⟩ .quiet
        (misdated 1).state).answer = some (.ok (greatestRow .zero 2 1).retraction) := by
  obtain ⟨between, hconsume, hbetween⟩ := consume_measured_begin .zero
  -- The first poll gives the row of the first record.
  have hfirst : (misdated 0).outcome = _ := outcome_poll_of_consume rfl hconsume
  have hsecond : (misdated 1).outcome = _ := outcome_poll_told hfirst
  -- The second one panics when the count, but not the maximum, is ahead.
  obtain ⟨reached, hpoll, hreached⟩ : ∃ reached, ((RecordStream.ofRecords
        [mismeasured .zero oneSecondAhead, measured .zero 3]).poll (greatestByX.emitting .updates)
          ⟨.unlabelled 0, .empty⟩ .quiet ⟨between, [], false⟩).outcome =
        (State.fail ⟨reached, [], false⟩ (.mixedTypes "max" "Time" none "Int" (some "1"))
          (.ofRecords [measured .zero 3]) []).outcome ∧
      Stands reached ⟨[.float .zero]⟩ (greatestPlaces 2 1) [⟨[.float .zero]⟩] :=
    hbetween.outcome_poll_of_refused rfl (prepare_of_updates rfl rfl rfl rfl
      (hbetween.previousRow [.int 1, .int 1] rfl)) rfl
  have hpanic := hsecond.trans hpoll
  have hstate : (misdated 1).state = ⟨reached, [], false⟩ := congrArg (·.2.2) hpanic
  -- The third record tells of a change from what the panic left.
  obtain ⟨after, haccept, -⟩ : ∃ after, (greatestByX.emitting .updates).accept .empty reached
        (measured .zero 3) =
          .ok (changes (some (greatestRow .zero 2 1)) (greatestRow .zero 3 3), after) ∧
      Stands after ⟨[.float .zero]⟩ (greatestPlaces 3 3) [⟨[.float .zero]⟩] :=
    hreached.accept [.int 3, .int 3] rfl rfl rfl
      (hreached.previousRow [.int 2, .int 1] rfl) rfl rfl rfl
  have hthird : (greatestByX.emitting .updates).consume ⟨.unlabelled 0, .empty⟩ .quiet reached
      (measured .zero 3) = _ := (congrFun (consume_of_check rfl) _).trans haccept
  refine ⟨congrArg Prod.fst hfirst, ?_, by rw [hstate], ?_⟩
  · rw [Poll.panics_of_outcome hpanic]
    rfl
  · have hinput : (misdated 1).input = .ofRecords [measured .zero 3] := congrArg (·.2.1) hpanic
    have hlast : (RecordStream.ofRecords [measured .zero 3]).next .quiet =
        .yield (.ok (measured .zero 3)) .empty := rfl
    rw [hstate, hinput]
    exact congrArg Prod.fst (outcome_poll_of_consume hlast hthird)

end StreamQuery.Grouping
