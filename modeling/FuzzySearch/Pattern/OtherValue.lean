import FuzzySearch.Pattern.TermQuery
import FuzzySearch.Value.Number

/-!
# Patterns compared with values that are no texts

A record that was read from a snapshot may hold any value in the place of a text.  Most comparisons
ask the value for an operation that only texts have, and fail.  A term that asks for equality is not
like such a value, and a term that excludes a text looks for it among the items of a list or the
names of a mapping.
-/

namespace FuzzySearch

namespace Value

/-- The failure to call an operation of texts on a value that is no text.  An attribute of the same
name cannot be called, and octets do not take a text. -/
def withoutOperation (name : String) (v : Value) : SearchError :=
  match v with
  | .object attributes => if (lookup? name attributes).isSome then .wrongKind else .unsupported
  | .octets _ => .wrongKind
  | _ => .unsupported

/-- What is looked through for a text: items, or names. -/
def contents? : Value → Option (List Value)
  | .list items | .tuple items | .set items => some items
  | .mapping entries => some (entries.map fun entry => .text entry.1)
  | _ => none

/-- The failure to bring a value that is no text to one letter case; octets can be brought to it. -/
def foldFailure? (caseSensitive : Bool) (v : Value) : Option SearchError :=
  match v with
  | .octets _ => none
  | v => if caseSensitive then none else some (v.withoutOperation "lower")

end Value

variable {α : Type} [ScoreNumber α]

/-- Compares a pattern with a value that is no text: only the empty pattern does not look at it. -/
def FuzzyPattern.matchOther (p : FuzzyPattern α) (v : Value) :
    Except SearchError (Comparison α) :=
  match v.foldFailure? p.options.caseSensitive with
  | some e => .error e
  | none =>
    if p.letters.isEmpty then .ok Comparison.failed
    else .error (if v.contents?.isSome then v.withoutOperation "find" else .wrongKind)

/-- Compares a term with a value that is no text. -/
def Term.matchOther (options : MatchOptions α) (term : Term) (v : Value) :
    Except SearchError (Comparison α) :=
  match term.kind with
  | .equals => .ok (verdict false [firstPositions term.pattern.length])
  | .includes => .error (v.withoutOperation "find")
  | .startsWith | .startsNotWith => .error (v.withoutOperation "startswith")
  | .endsNotWith | .endsWith => .error (v.withoutOperation "endswith")
  | .excludes =>
    match v.contents? with
    | none => .error .wrongKind
    | some parts =>
      let found := parts.any (·.same (.text (String.ofList term.pattern)))
      .ok (verdict (!found) [firstPositions parts.length])
  | .fuzzy => (FuzzyPattern.ofLetters term.pattern options).matchOther v

namespace TermQuery

/-- The results of the terms of a group for a value that is no text, up to the first term that does
not match. -/
def otherResults? (options : MatchOptions α) (v : Value) :
    List Term → Except SearchError (Option (List (Comparison α)))
  | [] => .ok (some [])
  | term :: rest => do
    let result ← term.matchOther options v
    if result.isMatch then
      let results ← otherResults? options v rest
      return results.map (result :: ·)
    else return none

/-- The results of the first group that matches a value that is no text. -/
def firstOther? (options : MatchOptions α) (v : Value) :
    List (List Term) → Except SearchError (Option (List (Comparison α)))
  | [] => .ok none
  | terms :: rest => do
    match ← otherResults? options v terms with
    | some (result :: results) => return some (result :: results)
    | _ => firstOther? options v rest

/-- Matches a query against a value that is no text. -/
def matchOther (q : TermQuery α) (v : Value) : Except SearchError (Comparison α) :=
  match v.foldFailure? q.options.caseSensitive with
  | some e => .error e
  | none => (firstOther? q.options v q.groups).map (answer q.options.includeMatches)

end TermQuery

end FuzzySearch
