import Mathlib.Data.List.Infix
import Mathlib.Data.Multiset.Count
import Mathlib.Data.Multiset.Filter
import StreamQuery.Operator.Basic
import StreamQuery.Proofs.Condition.Representation
import StreamQuery.Proofs.Stream

/-!
# Balanced streams

A row is what equal records have in common, whatever they are marked as. A
stream of insertions and retractions is balanced if at no point more equal rows
were taken back than inserted (`Balanced`); what it amounts to is the multiset
of the rows inserted less the rows taken back (`net`).

Filters and requalifiers keep streams balanced and do to the net what they do
to every record (`Operator.keeps_balance`). A retraction only has to be equal to
what it takes back, so a filter must decide both alike, although it sees their
values in different representations. Requalifying may make rows equal that were
not, and then the multisets add up.
-/

namespace StreamQuery

-- ---------------------------------------------------------------------------
-- Rows
-- ---------------------------------------------------------------------------

/-- The record with each column said to be of `source`, whatever it was of before. -/
def Record.of (source : String) (record : Record) : Record :=
  ⟨record.columns.map fun column => (⟨some source, column.1.column⟩, column.2), record.isRetraction⟩

theorem Record.requalify_eq (record : Record) (qualifier : String) :
    record.requalify qualifier = record.of qualifier := rfl

theorem Record.of_sameRow {a b : Record} (h : a.sameRow b) (source : String) :
    (a.of source).sameRow (b.of source) := by
  have hnames : ∀ r : Record,
      (r.of source).names = r.names.map fun name => ⟨some source, name.column⟩ :=
    fun r => by simp [of, names]
  have hvalues : ∀ r : Record, (r.of source).values = r.values := fun r => by simp [of, values]
  rw [sameRow_iff] at h ⊢
  rw [hnames, hnames, hvalues, hvalues, h.1]
  exact ⟨rfl, h.2⟩

instance Record.rowSetoid : Setoid Record where
  r a b := a.sameRow b
  iseqv := ⟨fun _ => sameRow_iff.mpr ⟨rfl, rfl⟩, sameRow_symm, sameRow_trans⟩

instance (a b : Record) : Decidable (a ≈ b) := inferInstanceAs (Decidable (a.sameRow b = true))

/-- A record up to equality, whatever it is marked as. -/
def Row := Quotient Record.rowSetoid

instance : DecidableEq Row := inferInstanceAs (DecidableEq (Quotient Record.rowSetoid))

def Record.row (record : Record) : Row := Quotient.mk _ record

theorem Record.row_eq_iff {a b : Record} : a.row = b.row ↔ a.sameRow b := Quotient.eq

namespace Row

def of (source : String) : Row → Row :=
  Quotient.map (Record.of source) fun _ _ h => Record.of_sameRow h source

def satisfies (condition : Condition) (scope : Scope) : Row → Bool :=
  Quotient.lift (fun record => (condition.eval (scope.withRecord record)).toOption == some true)
    fun _ _ h => by rw [condition.eval_withRecord_congr scope h]

theorem satisfies_row {condition : Condition} {scope : Scope} {record : Record} :
    record.row.satisfies condition scope ↔
      condition.eval (scope.withRecord record) = .ok true :=
  beq_iff_eq.trans toOption_eq_some

end Row

-- ---------------------------------------------------------------------------
-- Insertions and retractions
-- ---------------------------------------------------------------------------

/-- The rows of the records that are marked as retractions, or of those that
are not. -/
def rowsMarked (mark : Bool) (records : List Record) : Multiset Row :=
  ((records.filter fun record => record.isRetraction == mark).map Record.row : List Row)

/-- The rows inserted less the rows taken back. -/
def net (records : List Record) : Multiset Row := rowsMarked false records - rowsMarked true records

/-- Up to no point are there more retractions that are equal to a record than
insertions that are. -/
def Balanced (records : List Record) : Prop :=
  ∀ before, before <+: records → ∀ record : Record,
    (before.countP fun other => other.isRetraction && other.sameRow record) ≤
      before.countP fun other => !other.isRetraction && other.sameRow record

variable {records : List Record}

theorem count_rowsMarked (mark : Bool) (records : List Record) (record : Record) :
    (rowsMarked mark records).count record.row =
      records.countP fun other => other.sameRow record && other.isRetraction == mark := by
  have hrow : ∀ other : Record, (other.row == record.row) = other.sameRow record := fun other => by
    rw [Bool.eq_iff_iff, beq_iff_eq, Record.row_eq_iff]
  rw [rowsMarked, Multiset.coe_count, List.count, List.countP_map, List.countP_filter]
  simp only [Function.comp_apply, hrow]

theorem balanced_iff : Balanced records ↔
    ∀ before, before <+: records → rowsMarked true before ≤ rowsMarked false before := by
  refine forall₂_congr fun before _ => ?_
  rw [Multiset.le_iff_count]
  have hmarks : ∀ record : Record,
      (rowsMarked true before).count record.row ≤ (rowsMarked false before).count record.row ↔
        (before.countP fun other => other.isRetraction && other.sameRow record) ≤
          before.countP fun other => !other.isRetraction && other.sameRow record := by
    intro record
    simp [count_rowsMarked, Bool.and_comm]
  constructor
  · intro h row
    induction row using Quotient.ind with | _ record => exact (hmarks record).mpr (h record)
  · intro h record
    exact (hmarks record).mp (h record.row)

instance : Decidable (Balanced records) :=
  decidable_of_iff (∀ before ∈ records.inits, rowsMarked true before ≤ rowsMarked false before)
    (by simp only [balanced_iff, List.mem_inits])

theorem Balanced.retracted_le (h : Balanced records) :
    rowsMarked true records ≤ rowsMarked false records :=
  balanced_iff.mp h records List.prefix_rfl

-- ---------------------------------------------------------------------------
-- Dropping rows
-- ---------------------------------------------------------------------------

section
variable (keep : Row → Bool)

theorem rowsMarked_filter (mark : Bool) (records : List Record) :
    rowsMarked mark (records.filter fun record => keep record.row) =
      (rowsMarked mark records).filter (keep ·) := by
  rw [rowsMarked, rowsMarked, Multiset.filter_coe, List.filter_map, List.filter_comm]
  simp only [Function.comp_def, Bool.decide_eq_true]

theorem Balanced.filter (h : Balanced records) :
    Balanced (records.filter fun record => keep record.row) := by
  refine balanced_iff.mpr fun kept hkept => ?_
  obtain ⟨before, hbefore, rfl⟩ := List.prefix_filter_iff.mp hkept
  rw [rowsMarked_filter, rowsMarked_filter]
  exact Multiset.filter_le_filter _ (balanced_iff.mp h before hbefore)

theorem net_filter (records : List Record) :
    net (records.filter fun record => keep record.row) = (net records).filter (keep ·) := by
  rw [net, net, rowsMarked_filter, rowsMarked_filter, Multiset.filter_sub]

end

-- ---------------------------------------------------------------------------
-- Changing rows
-- ---------------------------------------------------------------------------

section
variable {change : Record → Record} {changed : Row → Row}

theorem rowsMarked_map (hrow : ∀ record, (change record).row = changed record.row)
    (hmark : ∀ record, (change record).isRetraction = record.isRetraction) (mark : Bool)
    (records : List Record) :
    rowsMarked mark (records.map change) = (rowsMarked mark records).map changed := by
  rw [rowsMarked, rowsMarked, Multiset.map_coe, List.filter_map, List.map_map, List.map_map]
  simp only [Function.comp_def, hrow, hmark]

theorem Balanced.map (hrow : ∀ record, (change record).row = changed record.row)
    (hmark : ∀ record, (change record).isRetraction = record.isRetraction) (h : Balanced records) :
    Balanced (records.map change) := by
  refine balanced_iff.mpr fun after hafter => ?_
  obtain ⟨before, hbefore, rfl⟩ := List.prefix_map_iff.mp hafter
  rw [rowsMarked_map hrow hmark, rowsMarked_map hrow hmark]
  exact Multiset.map_le_map (balanced_iff.mp h before hbefore)

theorem net_map (hrow : ∀ record, (change record).row = changed record.row)
    (hmark : ∀ record, (change record).isRetraction = record.isRetraction) (h : Balanced records) :
    net (records.map change) = (net records).map changed := by
  have hsum : net records + rowsMarked true records = rowsMarked false records :=
    Multiset.sub_add_cancel h.retracted_le
  rw [net, rowsMarked_map hrow hmark, rowsMarked_map hrow hmark, ← hsum, Multiset.map_add,
    Multiset.add_sub_cancel_right]

end

-- ---------------------------------------------------------------------------
-- Operators
-- ---------------------------------------------------------------------------

namespace Operator

theorem filterMap_keepIf {condition : Condition} {scope : Scope}
    (h : ∀ record ∈ records, ∃ b, condition.eval (scope.withRecord record) = .ok b) :
    (records.map Except.ok).filterMap (keepIf condition scope) =
      (records.filter fun record => record.row.satisfies condition scope).map .ok := by
  induction records with
  | nil => rfl
  | cons record records ih =>
    obtain ⟨⟨b, hb⟩, hrest⟩ := List.forall_mem_cons.mp h
    have hkeep : record.row.satisfies condition scope = b := by
      rw [Bool.eq_iff_iff, Row.satisfies_row, hb, Except.ok.injEq]
    rw [List.map_cons, List.filterMap_cons, keepIf, hb, List.filter_cons, hkeep, ih hrest]
    cases b <;> rfl

variable {m : Type → Type} [Monad m] [LawfulMonad m]

/-- Let a source start a stream. Over it a filter starts a stream that asks the
first one at some of the moments at which it is asked itself. If it is given
balanced records without failures, and the condition has an outcome for each of
them, then its own items are such records, and they amount to those rows of the
net for which the condition holds. A requalifier gives the same records with each
column said to be of its qualifier. They are balanced again, and amount to the rows of
the net with each column said to be so. -/
theorem keeps_balance {source : Operator m} {execution : Execution} {signals : Signals}
    {stream : RecordStream} (h : source.start execution signals = pure stream) :
    (∀ condition : Condition, ∃ filtered,
      (filter condition source).start execution signals = pure filtered ∧
      ∀ moments, ∃ asked, Paced asked ∧ ∀ records,
        stream.collect (moments ∘ asked) = records.map .ok → Balanced records →
        (∀ record ∈ records, ∃ b, condition.eval (execution.scope.withRecord record) = .ok b) →
        ∃ kept, filtered.collect moments = kept.map .ok ∧ Balanced kept ∧
          net kept = (net records).filter (Row.satisfies condition execution.scope ·)) ∧
    ∀ qualifier : String, ∃ requalified,
      (requalify qualifier source).start execution signals = pure requalified ∧
      ∀ moments records, stream.collect moments = records.map .ok → Balanced records →
        let renamed := records.map (Record.of qualifier)
        requalified.collect moments = renamed.map .ok ∧ Balanced renamed ∧
          net renamed = (net records).map (Row.of qualifier) := by
  constructor
  · intro condition
    refine ⟨stream.filterMap (keepIf condition execution.scope), ?_, fun moments => ?_⟩
    · simp only [filter, h, pure_bind]
    obtain ⟨asked, hpaced, hcollect⟩ :=
      stream.collect_filterMap (keepIf condition execution.scope) moments
    refine ⟨asked, hpaced, fun records hrecords hbalanced heval => ?_⟩
    refine ⟨_, ?_, hbalanced.filter _, net_filter _ records⟩
    rw [hcollect, hrecords, filterMap_keepIf heval]
  · intro qualifier
    refine ⟨stream.filterMap fun item => some (item.map fun record => record.requalify qualifier),
      ?_, fun moments records hrecords hbalanced => ?_⟩
    · simp only [requalify, h, pure_bind]
    have hrow : ∀ record : Record, (record.of qualifier).row = record.row.of qualifier :=
      fun _ => rfl
    refine ⟨?_, hbalanced.map hrow fun _ => rfl, net_map hrow (fun _ => rfl) hbalanced⟩
    simp only [Record.requalify_eq]
    rw [stream.collect_map, hrecords, List.map_map, List.map_map]
    rfl

/-- A row with a zero is inserted, and taken back with the other zero. -/
def zeros : List Record :=
  [⟨[(⟨"t", "a"⟩, .float .zero)], false⟩, ⟨[(⟨"t", "a"⟩, .float Double.zero.neg)], true⟩,
    ⟨[(⟨"t", "a"⟩, .int 1)], false⟩]

def isZero : Condition := .predicate (.var ⟨"t", "a"⟩) .equal (.const (.float .zero))

/-- What is left of the zeros and the one is the one, which becomes a column of `u`. -/
theorem keeps_balance_of_zeros :
    Balanced zeros ∧
    (∃ filtered, (filter isZero (values zeros : Operator Id)).start ⟨.unlabelled 0, .empty⟩ .quiet =
        pure filtered ∧
      ∀ moments, ∃ kept, filtered.collect moments = kept.map .ok ∧ Balanced kept ∧
        net kept = (net zeros).filter (Row.satisfies isZero .empty ·)) ∧
    ∃ requalified,
      (requalify "u" (values zeros : Operator Id)).start ⟨.unlabelled 0, .empty⟩ .quiet =
        pure requalified ∧
      ∀ moments, ∃ renamed, requalified.collect moments = renamed.map .ok ∧ Balanced renamed ∧
        renamed = [⟨[(⟨some "u", "a"⟩, .float .zero)], false⟩,
          ⟨[(⟨some "u", "a"⟩, .float Double.zero.neg)], true⟩,
          ⟨[(⟨some "u", "a"⟩, .int 1)], false⟩] ∧
        net renamed = {Record.row ⟨[(⟨some "u", "a"⟩, .int 1)], false⟩} := by
  have hstart : (values zeros : Operator Id).start ⟨.unlabelled 0, .empty⟩ .quiet =
      pure (.ofRecords zeros) := rfl
  have hcollect : ∀ moments, (RecordStream.ofRecords zeros).collect moments = zeros.map .ok :=
    RecordStream.collect_ofItems _
  have hbalanced : Balanced zeros := by decide
  have heval : ∀ record ∈ zeros, ∃ b, isZero.eval (Scope.empty.withRecord record) = .ok b := by
    simp only [zeros, List.forall_mem_cons, Condition.eval_eq_outcome]
    exact ⟨⟨true, rfl⟩, ⟨true, rfl⟩, ⟨false, rfl⟩, List.forall_mem_nil _⟩
  obtain ⟨hfilter, hrequalify⟩ := keeps_balance hstart
  obtain ⟨filtered, hfiltered, hkept⟩ := hfilter isZero
  obtain ⟨requalified, hrequalified, hrenamed⟩ := hrequalify "u"
  refine ⟨hbalanced, ⟨filtered, hfiltered, fun moments => ?_⟩, requalified, hrequalified,
    fun moments => ?_⟩
  · obtain ⟨asked, -, h⟩ := hkept moments
    exact h zeros (hcollect _) hbalanced heval
  · obtain ⟨hitems, hrenamed, hnet⟩ := hrenamed moments zeros (hcollect moments) hbalanced
    exact ⟨_, hitems, hrenamed, rfl, hnet.trans (by decide)⟩

end Operator

end StreamQuery
