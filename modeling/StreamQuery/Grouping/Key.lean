import StreamQuery.Value.Canonical
import StreamQuery.Value.Text

/-!
# Group keys

The values that identify one group. A key has the identity, the canonical
bytes and the text of the tuple of its values.
-/

namespace StreamQuery

structure GroupKey where
  values : List Value

namespace GroupKey

/-- The key of the only group when there are no columns to group by. -/
def empty : GroupKey := ⟨[]⟩

instance : Inhabited GroupKey := ⟨empty⟩

def size (key : GroupKey) : Nat := key.values.length

def isEmpty (key : GroupKey) : Bool := key.values.isEmpty

def toValue (key : GroupKey) : Value := .tuple key.values

def canonical (key : GroupKey) : Bytes := key.toValue.canonical

def render (key : GroupKey) : Rendering := key.toValue.render

instance : BEq GroupKey := ⟨fun a b => Value.beqItems a.values b.values⟩

end GroupKey

end StreamQuery
