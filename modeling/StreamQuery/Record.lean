import StreamQuery.Name
import StreamQuery.Value.Text

/-!
# Records

A record is a row of named values. One that is marked as a retraction takes
back a record with the same columns that was emitted before.
-/

namespace StreamQuery

abbrev Column := Name × Value

structure Record where
  columns : List Column
  isRetraction : Bool

namespace Record

instance : Inhabited Record := ⟨⟨[], false⟩⟩

def ofLists (names : List Name) (values : List Value) : Except Error Record :=
  if names.length = values.length then .ok ⟨names.zip values, false⟩
  else
    .error (.argument s!"record has {names.length} fields but {values.length} values")

def names (record : Record) : List Name := record.columns.map Prod.fst

def values (record : Record) : List Value := record.columns.map Prod.snd

def retraction (record : Record) : Record := { record with isRetraction := true }

def get? (record : Record) (name : Name) : Option Value :=
  (record.columns.find? fun column => name.addresses column.1).map Prod.snd

def requalify (record : Record) (source : String) : Record :=
  { record with columns := record.columns.map fun (name, v) => (name.withSource source, v) }

instance : BEq Record :=
  ⟨fun a b => a.names == b.names && a.values == b.values && a.isRetraction == b.isRetraction⟩

def renderColumns : List Column → Option (List String)
  | [] => some []
  | (name, v) :: rest => do
    let text ← v.render
    return (name.render ++ ": " ++ text) :: (← renderColumns rest)

def render (record : Record) : Rendering := do
  let row ← renderColumns record.columns
  return (if record.isRetraction then "undo " else "") ++ "\x7b" ++ commaSeparated row ++ "\x7d"

end Record

end StreamQuery
