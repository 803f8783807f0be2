import StreamQuery.Value.Text

/-!
# Kind locks

An aggregate takes values of one kind only: that of the first value it is ever
offered, for any group. The first value locks the aggregate even if its kind
is not accepted, after which nothing is.
-/

namespace StreamQuery

structure KindLock where
  first : Option Value

namespace KindLock

def unlocked : KindLock := ⟨none⟩

instance : Inhabited KindLock := ⟨unlocked⟩

def kind (lock : KindLock) : Option ValueKind := lock.first.map Value.kind

def offered (lock : KindLock) (v : Value) : KindLock :=
  match lock.first with
  | some _ => lock
  | none => ⟨some v⟩

/-- Whether an aggregate in the name of which the lock was offered `v` may
take it: its kind has to be accepted and be the kind locked onto. A refusal is
made of the texts of both values, and panics if one of them has none. -/
def verdict (lock : KindLock) (aggregate : String) (v : Value) (accepted : List ValueKind) :
    Except Error Unit :=
  if v.kind ∈ accepted then
    match lock.first with
    | some w =>
      if w.kind = v.kind then .ok ()
      else .error (.mixedTypes aggregate v.kind.name v.render w.kind.name w.render)
    | none => .ok ()
  else .error (v.refusedBy aggregate)

/-- Offers a value: the verdict and the lock afterwards, whatever the verdict. -/
def offer (lock : KindLock) (aggregate : String) (v : Value) (accepted : List ValueKind) :
    Except Error Unit × KindLock :=
  let after := lock.offered v
  (after.verdict aggregate v accepted, after)

end KindLock

end StreamQuery
