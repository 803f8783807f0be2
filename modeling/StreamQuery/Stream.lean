import StreamQuery.Query
import StreamQuery.Record

/-!
# Streams of records

A stream is asked for one item at a time. Its answer may depend on the signals
of that moment, and is either the end or an item together with what is left.
An item is a record or a failure, and a stream may go on after a failure. A failure
without a message is no item: asking for it panics. What is left after the end is
nothing.
-/

namespace StreamQuery

abbrev Item := Except Error Record

mutual

inductive RecordStream where
  | mk (pull : Signals → Pull)

inductive Pull where
  | done
  | yield (item : Item) (rest : RecordStream)

end

namespace RecordStream

def next (stream : RecordStream) (signals : Signals) : Pull :=
  match stream with
  | .mk pull => pull signals

def empty : RecordStream := .mk fun _ => .done

instance : Inhabited RecordStream := ⟨empty⟩

def cons (item : Item) (rest : RecordStream) : RecordStream := .mk fun _ => .yield item rest

def prepend (items : List Item) (rest : RecordStream) : RecordStream := items.foldr cons rest

def ofItems (items : List Item) : RecordStream := prepend items empty

def ofRecords (records : List Record) : RecordStream := ofItems (records.map .ok)

end RecordStream

mutual

/-- Changes or drops every item. The stream asks its source for more until an
item is left, all at the same moment. -/
def RecordStream.filterMap (f : Item → Option Item) : RecordStream → RecordStream
  | .mk pull => .mk fun signals => (pull signals).filterMap f signals
termination_by structural stream => stream

def Pull.filterMap (f : Item → Option Item) (signals : Signals) : Pull → Pull
  | .done => .done
  | .yield item rest =>
    match f item with
    | some out => .yield out (rest.filterMap f)
    | none => (rest.filterMap f).next signals
termination_by structural pull => pull

end

mutual

def RecordStream.toList (signals : Signals) : RecordStream → List Item
  | .mk pull => (pull signals).toList signals
termination_by structural stream => stream

def Pull.toList (signals : Signals) : Pull → List Item
  | .done => []
  | .yield item rest => item :: rest.toList signals
termination_by structural pull => pull

end

end StreamQuery
