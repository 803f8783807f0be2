import StreamQuery.Aggregate.Cell
import StreamQuery.Aggregate.Function
import StreamQuery.Aggregate.Lock
import StreamQuery.Aggregate.State
import StreamQuery.BottomUp
import StreamQuery.Condition.Basic
import StreamQuery.Condition.Compile
import StreamQuery.Condition.Eval
import StreamQuery.Error
import StreamQuery.Formula.Basic
import StreamQuery.Formula.Shape
import StreamQuery.Formula.Text
import StreamQuery.Grouping.Key
import StreamQuery.Grouping.Table
import StreamQuery.Name
import StreamQuery.Numeric.Double
import StreamQuery.Numeric.Shortest
import StreamQuery.Operator.Basic
import StreamQuery.Operator.Group
import StreamQuery.Pattern
import StreamQuery.Plan.Basic
import StreamQuery.Plan.Compile
import StreamQuery.Plan.Memory
import StreamQuery.Plan.Rewrite
import StreamQuery.Pushdown.Dialect
import StreamQuery.Pushdown.Fragment
import StreamQuery.Pushdown.Placeholders
import StreamQuery.Pushdown.Sql
import StreamQuery.Query
import StreamQuery.Record
import StreamQuery.Scope
import StreamQuery.Stream
import StreamQuery.Time.Calendar
import StreamQuery.Time.Duration
import StreamQuery.Time.Timestamp
import StreamQuery.Value.Basic
import StreamQuery.Value.Canonical
import StreamQuery.Value.Order
import StreamQuery.Value.Text
import StreamQuery.Proofs.Value.Equality
import StreamQuery.Proofs.Value.Encoding
import StreamQuery.Proofs.Value.Order
import StreamQuery.Proofs.Value.Comparison
import StreamQuery.Proofs.Value.Text
import StreamQuery.Proofs.Value.ByteOrder
import StreamQuery.Proofs.Pattern
import StreamQuery.Proofs.Formula.Equality
import StreamQuery.Proofs.Formula.Reads
import StreamQuery.Proofs.Formula.Conjuncts
import StreamQuery.Proofs.Grouping.Table
import StreamQuery.Proofs.Grouping.Association
import StreamQuery.Proofs.Grouping.Requests
import StreamQuery.Proofs.Stream
import StreamQuery.Proofs.Aggregate.Isolation
import StreamQuery.Proofs.Aggregate.History
import StreamQuery.Proofs.Aggregate.Cells
import StreamQuery.Proofs.Aggregate.Acceptance
import StreamQuery.Proofs.Aggregate.Summary
import StreamQuery.Proofs.Aggregate.Extremes
import StreamQuery.Proofs.Aggregate.Totals
import StreamQuery.Proofs.Grouping.Bounds
import StreamQuery.Proofs.Grouping.Run
import StreamQuery.Proofs.Grouping.Rows
import StreamQuery.Proofs.Grouping.Place
import StreamQuery.Proofs.Grouping.Changelog
import StreamQuery.Proofs.Grouping.Emissions
import StreamQuery.Proofs.Grouping.Batch
import StreamQuery.Proofs.Grouping.Arrival
import StreamQuery.Proofs.Grouping.Polls
import StreamQuery.Proofs.Grouping.FirstFailure
import StreamQuery.Proofs.Grouping.Cancellation
import StreamQuery.Proofs.BottomUp
import StreamQuery.Proofs.Recording
import StreamQuery.Proofs.BottomUp.Calls
import StreamQuery.Proofs.Condition.Compile
import StreamQuery.Proofs.Condition.Outcome
import StreamQuery.Proofs.Condition.Scalar
import StreamQuery.Proofs.Condition.Meaning
import StreamQuery.Proofs.Condition.Representation
import StreamQuery.Proofs.Condition.Ordering
import StreamQuery.Proofs.Message
import StreamQuery.Proofs.Operator.Equivalence
import StreamQuery.Proofs.Operator.Balance
import StreamQuery.Proofs.Plan.Faults
import StreamQuery.Proofs.Plan.Placement
import StreamQuery.Proofs.Plan.Rewrite
import StreamQuery.Proofs.Plan.Meaning
import StreamQuery.Proofs.Plan.Firing
import StreamQuery.Proofs.Pushdown.Meaning
import StreamQuery.Proofs.Pushdown.Clause
import StreamQuery.Proofs.Pushdown.Numbering
import StreamQuery.Proofs.Pushdown.Alignment
import StreamQuery.Proofs.Pushdown.Reading
