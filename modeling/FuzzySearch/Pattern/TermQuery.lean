import FuzzySearch.Pattern.Term
import FuzzySearch.Text.Split

/-!
# Queries of the extended syntax

A query is a list of groups with bars between them, and a group is a list of terms with spaces
between them.  A text matches a query when it matches all terms of some group; the first such group
gives the score, which is the mean of the scores of its terms.  Spaces between double quotes do not
separate terms.
-/

namespace FuzzySearch

open ScoreNumber

/-- The parts of a group between spaces, and whether the group has an even number of double
quotes.  A space separates when the number of quotes after it is even. -/
def spacedParts : List Char → Bool × List (List Char)
  | [] => (true, [[]])
  | c :: rest =>
    let (even, parts) := spacedParts rest
    if c = ' ' && even then (even, [] :: parts)
    else
      let even := if c = Text.doubleQuote then !even else even
      match parts with
      | [] => (even, [[c]])
      | part :: more => (even, (c :: part) :: more)

/-- The tokens of a group: the parts between separating spaces that are not blank. -/
def tokens (group : List Char) : List (List Char) :=
  (spacedParts (Text.strip group)).2.filter fun part => !Text.isBlank part

/-- The terms of a group. -/
def groupTerms (group : List Char) : List Term := (tokens group).filterMap Term.ofToken?

/-- The groups of a query. -/
def termGroups (query : List Char) : List (List Term) :=
  (Text.splitAt '|' query).map groupTerms

/-- A query of the extended syntax. -/
structure TermQuery (α : Type) where
  /-- The groups of terms. -/
  groups : List (List Term)
  /-- How terms are compared. -/
  options : MatchOptions α

namespace TermQuery

variable {α : Type} [ScoreNumber α]

/-- The query that some characters spell. -/
def ofLetters (letters : List Char) (options : MatchOptions α) : TermQuery α :=
  ⟨termGroups (Text.fold options.caseSensitive letters), options⟩

/-- The results of the terms of a group, if there is a term and all of them match. -/
def groupResults? (options : MatchOptions α) (terms : List Term) (text : List Char) :
    Option (List (Comparison α)) :=
  let results := terms.map fun term => term.matchLetters options text
  if terms.isEmpty || results.any (!·.isMatch) then none else some results

/-- The answer of a query, from the results of the first group that matches. -/
def answer (includeMatches : Bool) (found : Option (List (Comparison α))) : Comparison α :=
  match found with
  | none => Comparison.failed
  | some results =>
    { isMatch := true
      score := mean (sum (results.map (·.score))) results.length
      spans := if includeMatches then results.flatMap (·.spans) else [] }

/-- Matches a query against a text. -/
def matchLetters (q : TermQuery α) (text : List Char) : Comparison α :=
  let text := Text.fold q.options.caseSensitive text
  answer q.options.includeMatches
    (q.groups.findSome? fun terms => groupResults? q.options terms text)

end TermQuery

end FuzzySearch
