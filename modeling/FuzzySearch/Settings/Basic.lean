import FuzzySearch.Options.Engine
import FuzzySearch.Settings.Definitions
import FuzzySearch.Text.Case

/-!
# Settings

Settings are the options that hold when a call does not say otherwise.  They come from the
environment and from a file of definitions, the environment going first, under names that begin
with `environmentPrefix` in any case.
-/

namespace FuzzySearch

/-- What holds when a call does not say otherwise. -/
structure Settings where
  /-- The greatest score that is accepted. -/
  threshold : Float
  /-- The way from the expected position that costs a full point. -/
  distance : Nat
  /-- Where a pattern is expected. -/
  location : Nat
  /-- The least length of a matched run. -/
  minMatchLength : Nat
  /-- Whether positions do not count. -/
  ignoreLocation : Bool
  /-- Whether the length of a field does not count. -/
  ignoreFieldNorm : Bool
  /-- Whether letter case counts. -/
  caseSensitive : Bool
  /-- The name of the least level that is logged. -/
  logLevel : String
  /-- Whether log lines are JSON. -/
  logJson : Bool

namespace Settings

open OptionReading

/-- What the names of settings begin with in the environment, in lower case. -/
def environmentPrefix : String := "fuzzydex_"

/-- The levels that can be chosen. -/
def levels : List String := ["debug", "info", "warning", "error", "critical"]

/-- The name of a level, in any case. -/
def level (v : Value) : Except Fault String :=
  match v with
  | .text s =>
    let name := Text.lowerString s
    if levels.contains name then .ok name else .error .refused
  | _ => .error .notAText

/-- Named texts with the names in lower case; of names that become equal the last one counts. -/
def inLowerCase (named : List (String × String)) : List (String × String) :=
  named.foldl (fun all (name, s) => insertEntry (Text.lowerString name) s all) []

/-- The value of a setting. -/
def given? (environment definitions : List (String × String)) (name : String) : Option String :=
  let name := environmentPrefix ++ name
  (lookup? name environment).or (lookup? name definitions)

/-- The names of all settings. -/
def names : List String :=
  ["threshold", "distance", "location", "min_match_char_length", "ignore_location",
    "ignore_field_norm", "is_case_sensitive", "log_level", "log_json"]

/-- The settings that named values describe. -/
def ofValues (given : List (String × Value)) : Except SearchError Settings :=
  let threshold := field given "threshold" (ScoreNumber.ratio 3 5) share
  let distance := field given "distance" 100 (integer 0)
  let location := field given "location" 0 (integer 0)
  let minMatchLength := field given "min_match_char_length" 1 (integer 1)
  let ignoreLocation := field given "ignore_location" false flag
  let ignoreFieldNorm := field given "ignore_field_norm" false flag
  let caseSensitive := field given "is_case_sensitive" false flag
  let logLevel := field given "log_level" "warning" level
  let logJson := field given "log_json" false flag
  let issues := threshold.issues ++ distance.issues ++ location.issues ++ minMatchLength.issues ++
    ignoreLocation.issues ++ ignoreFieldNorm.issues ++ caseSensitive.issues ++ logLevel.issues ++
    logJson.issues
  if !issues.isEmpty then .error (.invalidOptions "Settings" issues)
  else
    .ok
      { threshold := threshold.value
        distance := distance.value
        location := location.value
        minMatchLength := minMatchLength.value
        ignoreLocation := ignoreLocation.value
        ignoreFieldNorm := ignoreFieldNorm.value
        caseSensitive := caseSensitive.value
        logLevel := logLevel.value
        logJson := logJson.value }

/-- The settings in an environment and a file of definitions. -/
def read (environment : List (String × String)) (definitions : Option String) :
    Except SearchError Settings :=
  let defined := (definitions.map (Definitions.ofText environment)).getD []
  let environment := inLowerCase environment
  let defined := inLowerCase defined
  ofValues (names.filterMap fun name =>
    (given? environment defined name).map fun s => (name, .text s))

/-- The settings as values of search options. -/
def toValues (settings : Settings) : List (String × Value) :=
  [("threshold", .float settings.threshold), ("distance", .int settings.distance),
    ("location", .int settings.location),
    ("min_match_char_length", .int settings.minMatchLength),
    ("ignore_location", .bool settings.ignoreLocation),
    ("ignore_field_norm", .bool settings.ignoreFieldNorm),
    ("is_case_sensitive", .bool settings.caseSensitive)]

/-- The search options of a call, which takes what it does not say from the settings. -/
def engineOptions (settings : Settings) (said : List (String × Value))
    (functions : EngineFunctions Float) : Except SearchError (EngineOptions Float) :=
  EngineOptions.ofValues
    (said.foldl (fun all (name, v) => insertEntry name v all) settings.toValues) functions

end Settings

end FuzzySearch
