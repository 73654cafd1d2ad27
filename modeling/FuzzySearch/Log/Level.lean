import FuzzySearch.Decimal.Layout
import FuzzySearch.Text.Case
import FuzzySearch.Value.Basic

/-!
# Levels of log lines

A level is a number; the greater it is, the more important is the line.  Some levels have names,
and two of them have two names.
-/

namespace FuzzySearch.Log

/-- The levels that have names. -/
def levelNames : List (Int × String) :=
  [(50, "CRITICAL"), (40, "ERROR"), (30, "WARNING"), (20, "INFO"), (10, "DEBUG"), (0, "NOTSET")]

/-- Second names of levels. -/
def otherLevelNames : List (Int × String) := [(50, "FATAL"), (30, "WARN")]

/-- The name that a level is shown with. -/
def levelName (level : Int) : String :=
  match levelNames.find? (·.1 == level) with
  | some (_, name) => name
  | none => "Level " ++ Decimal.intText level

/-- The level that is meant when a name is not known. -/
def usualLevel : Int := 20

/-- The level of a name, in any case. -/
def levelOfName (name : String) : Int :=
  let name := Text.upperString name
  match (levelNames ++ otherLevelNames).find? (·.2 == name) with
  | some (level, _) => level
  | none => usualLevel

end FuzzySearch.Log
