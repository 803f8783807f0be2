/-!
# Column names

A column may be qualified by the source that produces it. A name without a
source addresses the column of that name in any source, and a name with one
also addresses the column where no source is recorded; so addressing is
symmetric, and not transitive.
-/

namespace StreamQuery

structure Name where
  source : Option String
  column : String
  deriving DecidableEq, Repr

namespace Name

def splitAtDot : List Char → Option (List Char × List Char)
  | [] => none
  | c :: rest =>
    if c = '.' then some ([], rest)
    else (splitAtDot rest).map fun (before, after) => (c :: before, after)

/-- Reads a name whose source, if any, ends at the first dot. -/
def ofText (text : String) : Name :=
  match splitAtDot text.toList with
  | some (source, column) => ⟨some (String.ofList source), String.ofList column⟩
  | none => ⟨none, text⟩

def isQualified (name : Name) : Bool := name.source.isSome

def withSource (name : Name) (source : String) : Name := { name with source := some source }

def addresses (name other : Name) : Bool :=
  name.column == other.column &&
    match name.source, other.source with
    | some s, some t => s == t
    | _, _ => true

def render (name : Name) : String :=
  match name.source with
  | some source => source ++ "." ++ name.column
  | none => name.column

def order (a b : Name) : Ordering :=
  let sources : Ordering :=
    match a.source, b.source with
    | none, none => .eq
    | none, some _ => .lt
    | some _, none => .gt
    | some s, some t => compare s t
  sources.then (compare a.column b.column)

end Name

end StreamQuery
