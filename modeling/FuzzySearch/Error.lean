/-!
# Why a search cannot be carried out

`SearchError` lists the causes, and `SearchError.message` words those that are reported to a user.
The last group are faults of a single value that is not what its place asks for; they have no
wording of their own.
-/

namespace FuzzySearch

/-- What is wrong with the value of one option. -/
inductive Fault where
  | unknownOption
  | belowMinimum
  | aboveMaximum
  | notANumber
  | notNumberText
  | notAnInteger
  | notIntegerText
  | fractional
  | infinite
  | notATruthValue
  | notTruthText
  | notAList
  | notAFunction
  | notAText
  | refused
  deriving DecidableEq, Repr

/-- An option and what is wrong with it. -/
structure Issue where
  /-- The option. -/
  field : String
  /-- What is wrong. -/
  fault : Fault
  deriving DecidableEq, Repr

/-- The causes of failure. -/
inductive SearchError where
  /-- A key specification lacks a property. -/
  | missingProperty (name : String)
  /-- The weight of a key is no positive number. -/
  | invalidWeight (key : String)
  /-- The pattern of a leaf of a logical query is no text. -/
  | invalidPattern (key : String)
  /-- A node of a logical query is no mapping with entries; `written` shows it. -/
  | invalidNode (written : String)
  /-- A logical query is no mapping but a value of this kind. -/
  | notAQuery (kind : String)
  /-- A pattern has more characters than a machine word has bits. -/
  | patternTooLong (limit : Nat)
  /-- What was given as an index is none. -/
  | notAnIndex
  /-- Extended syntax was asked for and no matcher understands it. -/
  | extendedUnavailable
  /-- There is no snapshot file. -/
  | snapshotMissing (path : String)
  /-- A snapshot file is not JSON. -/
  | snapshotNotJson (path : String)
  /-- A snapshot file holds something else than an object. -/
  | snapshotNotObject (path : String)
  /-- A snapshot file holds an object that is no index. -/
  | snapshotInvalid (path : String)
  /-- An input file cannot be read. -/
  | unreadable (path : String)
  /-- An input file is not JSON. -/
  | notJson (path : String)
  /-- An input file holds something else than a list. -/
  | notAList (path : String)
  /-- A logical query is not JSON. -/
  | queryNotJson
  /-- A logical query is JSON but no object. -/
  | queryNotObject
  /-- A position is outside a collection. -/
  | positionOutOfRange (position : Int) (count : Nat)
  /-- A record position is negative. -/
  | negativePosition (position : Int)
  /-- A style of highlighting is not known; `written` shows it. -/
  | unknownStyle (written : String)
  /-- Options were refused. -/
  | invalidOptions (subject : String) (issues : List Issue)
  /-- A quotient by zero. -/
  | divisionByZero
  /-- A mapping has no entry of a name. -/
  | missingEntry
  /-- A value is of the wrong kind for what is done with it. -/
  | wrongKind
  /-- A value is of the right kind and cannot be used all the same. -/
  | malformed
  /-- A number is too large to be represented. -/
  | tooLarge
  /-- A moment is too far away for its year to be told. -/
  | outsideCalendar
  /-- A value lacks an operation. -/
  | unsupported
  /-- A list position is past the end. -/
  | pastEnd
  /-- A file stands where a directory has to be made. -/
  | fileInTheWay
  /-- A file stands inside the path of a directory. -/
  | notADirectory
  /-- A directory stands where a file has to be written. -/
  | isADirectory
  deriving DecidableEq, Repr

namespace SearchError

/-- The texts "1 validation error for X" and "2 validation errors for X". -/
def issueCount (subject : String) (count : Nat) : String :=
  let noun := if count = 1 then " validation error for " else " validation errors for "
  toString count ++ noun ++ subject

/-- The wording of a failure, if it has one. -/
def message? : SearchError → Option String
  | missingProperty name => some ("Missing " ++ name ++ " property in key")
  | invalidWeight key =>
    some ("Property 'weight' in key '" ++ key ++ "' must be a positive number")
  | invalidPattern key => some ("Invalid value for key " ++ key)
  | invalidNode written => some ("Invalid logical query node: " ++ written)
  | notAQuery kind => some ("Logical query must be a mapping, got " ++ kind)
  | patternTooLong limit => some ("Pattern length exceeds max of " ++ toString limit ++ ".")
  | notAnIndex => some "Incorrect 'index' type"
  | extendedUnavailable => some "Extended search is not available"
  | snapshotMissing path => some ("Snapshot not found: " ++ path)
  | snapshotNotJson path => some ("Snapshot " ++ path ++ " is not valid JSON")
  | snapshotNotObject path => some ("Snapshot " ++ path ++ " must contain a JSON object")
  | snapshotInvalid path => some ("Snapshot " ++ path ++ " has an invalid layout")
  | unreadable path => some ("Cannot read " ++ path)
  | notJson path => some (path ++ " is not valid JSON")
  | notAList path => some (path ++ " must contain a JSON list")
  | queryNotJson => some "Logical query is not valid JSON"
  | queryNotObject => some "Logical query must be a JSON object"
  | positionOutOfRange position count =>
    some ("Record position " ++ toString position ++ " out of range for " ++ toString count ++
      " records")
  | negativePosition position =>
    some ("Record position must not be negative, got " ++ toString position)
  | unknownStyle written =>
    some ("Unknown highlight style " ++ written ++ "; expected one of ['html', 'plain']")
  | invalidOptions subject issues => some (issueCount subject issues.length)
  | _ => none

end SearchError

end FuzzySearch
