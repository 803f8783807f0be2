/-!
# LIKE patterns

In a pattern `%` stands for any run of characters, `_` for exactly one, and a
backslash takes the next character literally, or itself at the end of the
pattern. Matching keeps one row of a table: which parts of the pattern match
the text read so far.
-/

namespace StreamQuery

inductive PatternItem where
  | literal (c : Char)
  | anyOne
  | anyRun
  deriving DecidableEq, Repr

namespace Pattern

def items : List Char → List PatternItem
  | [] => []
  | '\\' :: c :: rest => .literal c :: items rest
  | c :: rest =>
    let item :=
      if c = '%' then .anyRun
      else if c = '_' then .anyOne
      else .literal c
    item :: items rest

/-- Two runs side by side are one run. -/
def mergeRuns : List PatternItem → List PatternItem
  | [] => []
  | item :: rest =>
    if item = .anyRun ∧ rest.head? = some .anyRun then mergeRuns rest
    else item :: mergeRuns rest

/-- The row for the empty text: entry `j` says whether the first `j` items
match it. `matched` is the entry before the first item of the list. -/
def firstRow (matched : Bool) : List PatternItem → List Bool
  | [] => [matched]
  | item :: rest => matched :: firstRow (matched && item = .anyRun) rest

/-- The entries after one more character. `diagonal` is the old entry before
the first item of the list and `left` the new one; `row` holds the old
entries behind the items. -/
def nextEntries (c : Char) :
    List PatternItem → (diagonal left : Bool) → (row : List Bool) → List Bool
  | item :: rest, diagonal, left, above :: row =>
    let entry :=
      match item with
      | .anyRun => above || left
      | .anyOne => diagonal
      | .literal expected => diagonal && expected = c
    entry :: nextEntries c rest above entry row
  | _, _, _, _ => []

def nextRow (pattern : List PatternItem) (row : List Bool) (c : Char) : List Bool :=
  match row with
  | [] => []
  | first :: row => false :: nextEntries c pattern first false row

def accepts (pattern text : String) : Bool :=
  let wanted := mergeRuns (items pattern.toList)
  (text.toList.foldl (nextRow wanted) (firstRow true wanted)).getLast? == some true

end Pattern

end StreamQuery
