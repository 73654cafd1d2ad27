import FuzzySearch.Index.Basic
import FuzzySearch.Matcher
import FuzzySearch.Options.Engine

/-!
# The search engine

An engine holds a collection of documents and its index.  `Engine.add`, `Engine.removeAt`,
`Engine.remove` and `Engine.replaceCollection` change the collection and the index together.  A
change that can fail gives the engine after the call, and the failure if there was one.
-/

namespace FuzzySearch

/-- A collection with its index. -/
structure Engine (α : Type) where
  /-- The options of searches. -/
  options : EngineOptions α
  /-- The makers of matchers. -/
  factories : List (MatcherFactory α)
  /-- The keys with their weights. -/
  weightedKeys : WeightedKeys α
  /-- The collection. -/
  docs : List Value
  /-- The index of the collection. -/
  index : Index α

namespace Engine

variable {α : Type}

/-! ### Removing documents -/

/-- Removes the document at a position. -/
def removeAt (engine : Engine α) (position : Int) : Engine α × Option SearchError :=
  if 0 ≤ position ∧ position < engine.docs.length then
    let shorter := { engine with docs := engine.docs.eraseIdx position.toNat }
    match engine.index.removeAt position with
    | .ok index => ({ shorter with index := index }, none)
    | .error e => (shorter, some e)
  else (engine, some (.positionOutOfRange position engine.docs.length))

/-- Goes through the documents from a position on and removes those that a predicate holds of.  The
predicate sees the position that a document has at that moment. -/
def removeFrom (predicate : Value → Nat → Bool) :
    (position : Nat) → List Value → Engine α → Engine α × List Value
  | _, [], engine => (engine, [])
  | position, doc :: rest, engine =>
    if predicate doc position then
      let (engine, removed) := removeFrom predicate position rest (engine.removeAt position).1
      (engine, doc :: removed)
    else removeFrom predicate (position + 1) rest engine

/-- Removes the documents that a predicate holds of, and gives them in order. -/
def remove (engine : Engine α) (predicate : Value → Nat → Bool) : Engine α × List Value :=
  removeFrom predicate 0 engine.docs engine

variable [Weighting α]

/-! ### The collection -/

/-- Replaces the collection and its index, which is built if none is given. -/
def replaceCollection (engine : Engine α) (docs : Value) (given : GivenIndex α) :
    Engine α × Option SearchError :=
  match docs.elements with
  | .error e => (engine, some e)
  | .ok docs =>
    let engine := { engine with docs := docs }
    match given with
    | .other => (engine, some .notAnIndex)
    | .index index => ({ engine with index := index }, none)
    | .absent =>
      match Index.ofSpecs engine.options.keys (.list docs) engine.options.extract
        engine.options.normalize with
      | .ok index => ({ engine with index := index }, none)
      | .error e => (engine, some e)

/-- An engine for a collection. -/
def build (docs : Value) (options : EngineOptions α) (given : GivenIndex α)
    (factories : List (MatcherFactory α)) : Except SearchError (Engine α) := do
  if options.extended && !MatcherFactory.anyReadsTerms factories then
    .error .extendedUnavailable
  else
    let weightedKeys ← WeightedKeys.ofSpecs options.keys
    let blank : Engine α :=
      { options := options, factories := factories, weightedKeys := weightedKeys, docs := [],
        index := Index.empty options.extract options.normalize }
    match blank.replaceCollection docs given with
    | (engine, none) => .ok engine
    | (_, some e) => .error e

/-- Adds a document at the end, unless it is null. -/
def add (engine : Engine α) (doc : Value) : Engine α × Option SearchError :=
  match doc with
  | .null => (engine, none)
  | doc =>
    let longer := { engine with docs := engine.docs ++ [doc] }
    match engine.index.add doc engine.docs.length with
    | .ok index => ({ longer with index := index }, none)
    | .error e => (longer, some e)

end Engine

end FuzzySearch
