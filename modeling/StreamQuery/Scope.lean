import StreamQuery.Record

/-!
# Scopes

A scope is a chain of frames of bindings, the innermost first. A name is looked
up from the inside out; within a frame a binding of exactly that name goes
before the others that the name addresses.
-/

namespace StreamQuery

abbrev Frame := List Column

def Frame.lookup (frame : Frame) (name : Name) : Option Value :=
  match frame.find? fun column => column.1 == name with
  | some column => some column.2
  | none => (frame.find? fun column => name.addresses column.1).map Prod.snd

structure Scope where
  frames : List Frame

namespace Scope

def empty : Scope := ⟨[]⟩

def ofBindings (bindings : Frame) : Scope := ⟨[bindings]⟩

def withRecord (scope : Scope) (record : Record) : Scope := ⟨record.columns :: scope.frames⟩

def resolve (name : Name) : List Frame → Except Error Value
  | [] => .error (.notFound s!"variable {name.render}")
  | frame :: outer =>
    match frame.lookup name with
    | some v => .ok v
    | none => resolve name outer

def get (scope : Scope) (name : Name) : Except Error Value := resolve name scope.frames

end Scope

end StreamQuery
