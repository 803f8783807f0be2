/-!
# SQL dialects

The tokens in which dialects differ.
-/

namespace StreamQuery

structure Dialect where
  trueToken : String
  falseToken : String
  placeholderMark : String
  deriving DecidableEq, Repr

namespace Dialect

def standard : Dialect := ⟨"TRUE", "FALSE", "$"⟩

instance : Inhabited Dialect := ⟨standard⟩

def boolToken (dialect : Dialect) (b : Bool) : String :=
  if b then dialect.trueToken else dialect.falseToken

def placeholder (dialect : Dialect) (number : Nat) : String :=
  dialect.placeholderMark ++ toString number

end Dialect

end StreamQuery
