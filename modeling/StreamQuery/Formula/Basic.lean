import StreamQuery.Name
import StreamQuery.Value.Basic

/-!
# Expressions and formulas of a plan

Scalar expressions over columns and constants, and Boolean formulas over
relations between them. Both are trees with an element kind at every node,
by which rewriting hooks and failure paths refer to it.
-/

namespace StreamQuery

inductive Relation where
  | equal | notEqual | moreThan | lessThan | isIn | like
  deriving DecidableEq, Repr

namespace Relation

def all : List Relation := [.equal, .notEqual, .moreThan, .lessThan, .isIn, .like]

def token : Relation → String
  | .equal => "="
  | .notEqual => "<>"
  | .moreThan => ">"
  | .lessThan => "<"
  | .isIn => "IN"
  | .like => "LIKE"

def ofToken? (token : String) : Option Relation := all.find? fun relation => relation.token == token

end Relation

inductive ExpressionKind where
  | var | const | tuple
  deriving DecidableEq, Repr

namespace ExpressionKind

def all : List ExpressionKind := [.var, .const, .tuple]

def name : ExpressionKind → String
  | .var => "variable"
  | .const => "constant"
  | .tuple => "tuple"

end ExpressionKind

inductive FormulaKind where
  | and | or | not | const | predicate
  deriving DecidableEq, Repr

namespace FormulaKind

def all : List FormulaKind := [.and, .or, .not, .const, .predicate]

def name : FormulaKind → String
  | .and => "and"
  | .or => "or"
  | .not => "not"
  | .const => "constant formula"
  | .predicate => "predicate"

end FormulaKind

inductive Expression where
  | var (name : Name)
  | const (v : Value)
  | tuple (items : List Expression)

namespace Expression

instance : Inhabited Expression := ⟨.tuple []⟩

def kind : Expression → ExpressionKind
  | .var _ => .var
  | .const _ => .const
  | .tuple _ => .tuple

mutual

def vars : Expression → List Name
  | .var name => [name]
  | .const _ => []
  | .tuple items => varsOfItems items
termination_by structural e => e

def varsOfItems : List Expression → List Name
  | [] => []
  | e :: rest => vars e ++ varsOfItems rest
termination_by structural items => items

end

mutual

def beq : Expression → Expression → Bool
  | .var a, .var b => a == b
  | .const a, .const b => a == b
  | .tuple as, .tuple bs => beqItems as bs
  | _, _ => false
termination_by structural e => e

def beqItems : List Expression → List Expression → Bool
  | [], [] => true
  | a :: as, b :: bs => beq a b && beqItems as bs
  | _, _ => false
termination_by structural items => items

end

instance : BEq Expression := ⟨beq⟩

end Expression

inductive Formula where
  | and (left right : Formula)
  | or (left right : Formula)
  | not (inner : Formula)
  | const (b : Bool)
  | predicate (left : Expression) (relation : Relation) (right : Expression)

namespace Formula

instance : Inhabited Formula := ⟨.const true⟩

def kind : Formula → FormulaKind
  | .and _ _ => .and
  | .or _ _ => .or
  | .not _ => .not
  | .const _ => .const
  | .predicate _ _ _ => .predicate

/-- The conjunction of all formulas, nested to the left; true of none. -/
def allOf : List Formula → Formula
  | [] => .const true
  | f :: rest => rest.foldl .and f

/-- The disjunction of all formulas, nested to the left; false of none. -/
def anyOf : List Formula → Formula
  | [] => .const false
  | f :: rest => rest.foldl .or f

def vars : Formula → List Name
  | .and left right | .or left right => left.vars ++ right.vars
  | .not inner => inner.vars
  | .const _ => []
  | .predicate left _ right => left.vars ++ right.vars

def beq : Formula → Formula → Bool
  | .and a b, .and c d => beq a c && beq b d
  | .or a b, .or c d => beq a c && beq b d
  | .not a, .not b => beq a b
  | .const a, .const b => a == b
  | .predicate a r b, .predicate c s d => a == c && r == s && b == d
  | _, _ => false

instance : BEq Formula := ⟨beq⟩

end Formula

end StreamQuery
