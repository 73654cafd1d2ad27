import FuzzySearch.Matcher

/-!
# Logical expressions

An expression asks for several patterns in several fields.  `Expression.evaluate` asks the leaves
of an expression from left to right, and no more of them than are needed: a node that demands all
its children stops at the first one without matches, and one that demands any of them at the first
one with matches.
-/

namespace FuzzySearch

/-- How the children of a node are combined. -/
inductive Connective where
  /-- All children have to match. -/
  | all
  /-- The first child that matches counts. -/
  | any
  /-- A name that combines nothing: such a node never matches. -/
  | other (name : String)
  deriving DecidableEq, Repr

namespace Connective

/-- The connective of a name. -/
def ofName (name : String) : Connective :=
  if name = "$and" then all else if name = "$or" then any else other name

/-- The name of a connective. -/
def name : Connective → String
  | all => "$and"
  | any => "$or"
  | other name => name

end Connective

/-- A field and the pattern that it has to match. -/
structure Leaf (α : Type) where
  /-- What the key of the field is called. -/
  keyName : String
  /-- The pattern. -/
  pattern : String
  /-- The pattern as a matcher; without one nothing matches. -/
  matcher : Option (Matcher α)

/-- A logical query that is ready to be evaluated. -/
inductive Expression (α : Type) where
  | leaf (leaf : Leaf α)
  | node (connective : Connective) (children : List (Expression α))

namespace Expression

variable {α β : Type} {m : Type → Type} [Monad m]

mutual

/-- The matches of an expression, from the matches of its leaves.  The limit that a call stack sets
to the depth of expressions is left aside. -/
def evaluate (ask : Leaf α → m (List β)) : Expression α → m (List β)
  | leaf l => ask l
  | node .all children => do
    let found ← evaluateAll ask children
    return found.getD []
  | node .any children => evaluateAny ask children
  | node (.other _) _ => return []

/-- The matches of all children, unless one of them has none. -/
def evaluateAll (ask : Leaf α → m (List β)) : List (Expression α) → m (Option (List β))
  | [] => return some []
  | child :: rest => do
    let found ← evaluate ask child
    if found.isEmpty then return none
    else
      let others ← evaluateAll ask rest
      return others.map (found ++ ·)

/-- The matches of the first child that has any. -/
def evaluateAny (ask : Leaf α → m (List β)) : List (Expression α) → m (List β)
  | [] => return []
  | child :: rest => do
    let found ← evaluate ask child
    if found.isEmpty then evaluateAny ask rest else return found

end

end Expression

end FuzzySearch
