import FuzzySearch.Hit.Basic
import FuzzySearch.Options.Match
import FuzzySearch.Options.Reading

/-!
# Options of an engine

`EngineOptions` are the options of matching together with the keys, the order and the report of a
search.  `EngineOptions.ofValues` reads them from named values; every value that is refused is
reported.
-/

namespace FuzzySearch

/-- The options of an engine. -/
structure EngineOptions (α : Type) extends MatchOptions α where
  /-- The specifications of the keys. -/
  keys : List (KeySpec α)
  /-- Whether scores are reported. -/
  includeScore : Bool
  /-- Whether hits are sorted. -/
  shouldSort : Bool
  /-- Whether a hit comes strictly before another. -/
  order : Hit α → Hit α → Bool
  /-- How field values are found. -/
  extract : Extractor
  /-- A change that texts undergo before they are indexed. -/
  normalize : Option (String → String)
  /-- Whether the length of a field does not count. -/
  ignoreFieldNorm : Bool

/-- The functions that a caller can put in place of the usual ones. -/
structure EngineFunctions (α : Type) where
  /-- Whether a hit comes strictly before another. -/
  order : Option (Hit α → Hit α → Bool)
  /-- How field values are found. -/
  extract : Option Extractor
  /-- A change that texts undergo before they are indexed. -/
  normalize : Option (String → String)

/-- No function is replaced. -/
def EngineFunctions.usual {α : Type} : EngineFunctions α := ⟨none, none, none⟩

namespace EngineOptions

open OptionReading

/-- The names of all options. -/
def names : List String :=
  ["keys", "is_case_sensitive", "include_score", "include_matches", "should_sort", "sort_fn",
    "find_all_matches", "min_match_char_length", "location", "threshold", "distance",
    "use_extended_search", "get_fn", "normalize", "ignore_location", "ignore_field_norm"]

/-- The faults of options that do not exist. -/
def unknownIssues (given : List (String × Value)) : List Issue :=
  (given.filter fun entry => !names.contains entry.1).map fun entry => ⟨entry.1, .unknownOption⟩

/-- The options that named values and functions describe. -/
def ofValues (given : List (String × Value)) (functions : EngineFunctions Float) :
    Except SearchError (EngineOptions Float) :=
  let keys := field given "keys" [] values
  let caseSensitive := field given "is_case_sensitive" false flag
  let includeScore := field given "include_score" false flag
  let includeMatches := field given "include_matches" false flag
  let shouldSort := field given "should_sort" true flag
  let order := field given "sort_fn" () noFunction
  let findAllMatches := field given "find_all_matches" false flag
  let minMatchLength := field given "min_match_char_length" 1 (integer 1)
  let location := field given "location" 0 (integer 0)
  let threshold := field given "threshold" (ScoreNumber.ratio 3 5) share
  let distance := field given "distance" 100 (integer 0)
  let extended := field given "use_extended_search" false flag
  let extract := field given "get_fn" () noFunction
  let normalize := field given "normalize" () noFunction
  let ignoreLocation := field given "ignore_location" false flag
  let ignoreFieldNorm := field given "ignore_field_norm" false flag
  let issues := keys.issues ++ caseSensitive.issues ++ includeScore.issues ++
    includeMatches.issues ++ shouldSort.issues ++ order.issues ++ findAllMatches.issues ++
    minMatchLength.issues ++ location.issues ++ threshold.issues ++ distance.issues ++
    extended.issues ++ extract.issues ++ normalize.issues ++ ignoreLocation.issues ++
    ignoreFieldNorm.issues ++ unknownIssues given
  if !issues.isEmpty then .error (.invalidOptions "SearchOptions" issues)
  else
    .ok
      { caseSensitive := caseSensitive.value
        includeMatches := includeMatches.value
        findAllMatches := findAllMatches.value
        minMatchLength := minMatchLength.value
        location := location.value
        threshold := threshold.value
        distance := distance.value
        ignoreLocation := ignoreLocation.value
        extended := extended.value
        keys := keys.value.map .described
        includeScore := includeScore.value
        shouldSort := shouldSort.value
        order := functions.order.getD Hit.before
        extract := functions.extract.getD standardExtractor
        normalize := functions.normalize
        ignoreFieldNorm := ignoreFieldNorm.value }

end EngineOptions

end FuzzySearch
