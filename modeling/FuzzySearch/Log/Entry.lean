import FuzzySearch.Json.Writing
import FuzzySearch.Log.Field
import FuzzySearch.Log.Level
import FuzzySearch.Log.Template
import FuzzySearch.Log.Timestamp
import FuzzySearch.Text.Case

/-!
# Entries of a log

An entry is logged as a JSON object on one line: when, how important and from where, the message,
and the extra attributes of the entry under their own names.  Long texts are shortened, and values
under names that are redacted do not appear.
-/

namespace FuzzySearch.Log

/-- What is logged by one call. -/
structure Entry where
  /-- The moment. -/
  created : Value
  /-- The name of the level. -/
  level : Value
  /-- The name of the logger. -/
  logger : Value
  /-- The message, as a template. -/
  template : Value
  /-- The arguments of the template. -/
  args : Value
  /-- The text of the failure that is reported, if there is one. -/
  exception : Except SearchError (Option String)
  /-- The extra attributes. -/
  extra : List (String × Value)
  /-- What a call of an extra attribute gives, if it can be called. -/
  called : Value → Option (Except SearchError String) := fun _ => none

/-- The names of the attributes that every entry has. -/
def ownNames : List String :=
  ["name", "msg", "args", "levelname", "levelno", "pathname", "filename", "module", "exc_info",
    "exc_text", "stack_info", "lineno", "funcName", "created", "msecs", "relativeCreated", "thread",
    "threadName", "processName", "process"]

/-- The names of the attributes that are made when an entry is written. -/
def madeNames : List String := ["message", "asctime"]

/-- The names that do not appear as extra attributes. -/
def standardNames : List String := ownNames ++ madeNames ++ ["taskName"]

/-- The description of a failure. -/
def failureText (description : String) : String :=
  if description.isEmpty then "ValueError" else "ValueError: " ++ description

namespace Entry

/-- An entry with an attribute set. -/
def set (entry : Entry) (name : String) (v : Value) : Entry :=
  if name = "name" then { entry with logger := v }
  else if name = "msg" then { entry with template := v }
  else if name = "args" then { entry with args := v }
  else if name = "levelname" then { entry with level := v }
  else if name = "created" then { entry with created := v }
  else if name = "exc_info" then
    { entry with exception := if v.truth then .error .wrongKind else .ok none }
  else { entry with extra := insertEntry name v entry.extra }

/-- The arguments that a list of values gives: a single mapping is taken by itself. -/
def argumentsOf (args : List Value) : Value :=
  match args with
  | [.mapping (entry :: rest)] => .mapping (entry :: rest)
  | _ => .tuple args

/-- The message.  An extra attribute `getMessage` hides the operation that makes it, and is called
in its place. -/
def message (entry : Entry) : Except SearchError String :=
  match lookup? "getMessage" entry.extra with
  | some maker => (entry.called maker).getD (.error .wrongKind)
  | none =>
    if entry.args.truth then render entry.template.plain entry.args else .ok entry.template.plain

end Entry

/-- A text with everything after `limit` characters replaced by dots. -/
def shortened (limit : Nat) (s : String) : String :=
  if s.length ≤ limit then s else String.ofList (s.toList.take limit ++ ['.', '.', '.'])

/-- The greatest length of a message. -/
def messageLimit : Nat := 2000

/-- The greatest length of an extra text. -/
def fieldLimit : Nat := 500

/-- The names that are redacted when no others are given. -/
def usualRedacted : List String := ["password", "token", "api_key", "secret", "authorization"]

/-- The names that are redacted, in lower case. -/
def redactedNames (given : List String) : List String :=
  if given.isEmpty then usualRedacted else given.map Text.lowerString

/-- What stands for a value that is redacted. -/
def redactedText : String := "[REDACTED]"

/-- Whether an attribute appears under its own name. -/
def isVisible (name : String) : Bool :=
  !standardNames.contains name && name.toList.head? != some '_'

/-- The value that appears for an extra attribute. -/
def extraField (redacted : List String) (name : String) (v : Value) : Value :=
  if redacted.contains (Text.lowerString name) then .text redactedText
  else
    match v with
    | .text s => .text (shortened fieldLimit s)
    | v => v

/-- The extra attributes that appear, with their values. -/
def shownExtras (redacted : List String) (extra : List (String × Value)) :
    List (String × Value) :=
  (extra.filter fun named => isVisible named.1).map fun (name, v) =>
    (name, extraField redacted name v)

/-- The part of a logger's name behind the last dot, if there is a dot. -/
def component? (logger : Value) : Except SearchError (Option String) :=
  match logger with
  | .text s => .ok ((Text.splitLast? '.' s.toList).map fun (_, last) => String.ofList last)
  | _ => .error .unsupported

namespace Entry

/-- The fields that every entry has. -/
def ownFields (entry : Entry) : Except SearchError (List (String × Value)) := do
  let moment ← timestamp entry.created
  let message ← entry.message
  let component ← component? entry.logger
  let exception ← entry.exception
  return [("timestamp", .text moment), ("level", entry.level), ("logger", entry.logger),
      ("message", .text (shortened messageLimit message))] ++
    (component.toList.map fun s => ("component", .text s)) ++
    exception.toList.map fun s => ("exception", .text s)

/-- All fields; an extra attribute goes before a field of the same name. -/
def fields (redacted : List String) (entry : Entry) : Except SearchError (List (String × Value)) := do
  let base ← entry.ownFields
  return (shownExtras redacted entry.extra).foldl (fun all (name, v) => insertEntry name v all) base

/-- The entry as a JSON object. -/
def jsonLine (redacted : List String) (entry : Entry) : Except SearchError String := do
  let fields ← entry.fields redacted
  Json.write (shown (.mapping fields))

/-- The entry as plain text, without the moment. -/
def plainLine (entry : Entry) : Except SearchError String := do
  let message ← entry.message
  return String.ofList (aligned true 8 entry.level.plain.toList) ++ " " ++ entry.logger.plain ++
    ": " ++ message

end Entry

end FuzzySearch.Log
