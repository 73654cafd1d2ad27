import FuzzySearch.Log.Entry

/-!
# What is logged

Loggers have names with dots between their parts.  A logger without a level of its own takes that
of the nearest logger whose name is a beginning of its name, and at last that of the root.  Lines
are written by one handler at the root.
-/

namespace FuzzySearch.Log

/-- How entries are logged. -/
structure Configuration where
  /-- The number of handlers at the root. -/
  handlers : Nat
  /-- Whether lines are JSON. -/
  json : Bool
  /-- The level of the root. -/
  rootLevel : Int
  /-- The levels of other loggers; zero if a logger has none of its own. -/
  levels : List (String × Int)
  deriving Repr

/-- Whether a name is that of the root. -/
def isRoot (logger : String) : Bool := logger = "" || logger = "root"

/-- The names of a logger and of those above it, the root excepted, nearest first. -/
def lineage (logger : String) : List String :=
  let parts := Text.split '.' logger
  let beginnings := (List.range parts.length).map fun k =>
    ".".intercalate (parts.take (parts.length - k))
  beginnings.filter (· != "")

namespace Configuration

/-- The configuration before anything is set up. -/
def initial : Configuration := ⟨0, true, 30, []⟩

/-- Sets the level of a logger. -/
def setLevel (c : Configuration) (logger : String) (level : Int) : Configuration :=
  if isRoot logger then { c with rootLevel := level }
  else { c with levels := insertEntry logger level c.levels }

/-- Installs one handler in place of all others, and sets levels by their names. -/
def setUp (c : Configuration) (level : String) (json : Bool)
    (loggerLevels : List (String × String)) : Configuration :=
  loggerLevels.foldl (fun c (logger, name) => c.setLevel logger (levelOfName name))
    { c with handlers := 1, json := json, rootLevel := levelOfName level }

/-- The level that a logger has of its own. -/
def ownLevel (c : Configuration) (logger : String) : Int :=
  if isRoot logger then c.rootLevel else (lookup? logger c.levels).getD 0

/-- The least level that a logger logs. -/
def leastLevel (c : Configuration) (logger : String) : Int :=
  if isRoot logger then c.rootLevel
  else (((lineage logger).map c.ownLevel).find? (· != 0)).getD c.rootLevel

/-- Whether a logger logs a level. -/
def isEnabled (c : Configuration) (logger : String) (level : Int) : Bool :=
  0 < level && c.leastLevel logger ≤ level

/-- The lines that an entry gives; an entry that cannot be written gives none. -/
def lines (c : Configuration) (entry : Entry) : List String :=
  let line := if c.json then entry.jsonLine usualRedacted else entry.plainLine
  if c.handlers = 0 then []
  else
    match line with
    | .ok line => [line]
    | .error _ => []

/-- Logs a message with extra attributes, which must not name what every entry has. -/
def log (c : Configuration) (created : Value) (logger : String) (level : Int) (message : String)
    (extra : List (String × Value)) : Except SearchError (List String) :=
  if !c.isEnabled logger level then .ok []
  else if extra.any fun named => (ownNames ++ madeNames).contains named.1 then
    .error .missingEntry
  else
    let name := if isRoot logger then "root" else logger
    .ok (c.lines
      { created := created, level := .text (levelName level), logger := .text name,
        template := .text message, args := .tuple [], exception := .ok none, extra := extra })

end Configuration

end FuzzySearch.Log
