import FuzzySearch.Decimal.Reading
import FuzzySearch.Value.Basic

/-!
# Arguments of a command line

Arguments are positional or options.  A long option can be shortened as long as its meaning is
clear, and its operand can be attached after an equals sign; a short option can have its operand
attached without one.  After two dashes everything is positional.  A negative number, and a text
with a blank, is positional unless it is an option.
-/

namespace FuzzySearch.CommandLine

/-- What an option takes. -/
inductive Operand where
  | nothing
  | text
  | number
  | integer
  deriving DecidableEq, Repr

/-- An option. -/
structure OptionSpec where
  /-- What the option is written as, the usual form first. -/
  names : List String
  /-- What it takes. -/
  operand : Operand
  /-- Whether it asks for help. -/
  help : Bool
  deriving DecidableEq, Repr

/-- The option that asks for help. -/
def helpOption : OptionSpec := ⟨["--help", "-h"], .nothing, true⟩

/-- Why there is nothing to be run. -/
inductive Halt where
  /-- The arguments cannot be understood. -/
  | misuse
  /-- Help was asked for. -/
  | helpAsked
  deriving DecidableEq, Repr

/-- What is attached to an option in one argument. -/
inductive Attachment where
  | nothing
  /-- An operand behind an equals sign. -/
  | afterEquals (s : String)
  /-- More letters of a short option. -/
  | adjoined (s : String)
  deriving DecidableEq, Repr

/-- An argument. -/
inductive Item where
  | positional (s : String)
  /-- Two dashes. -/
  | dashes
  /-- An option with what is attached to it. -/
  | option (spec : OptionSpec) (attached : Attachment)
  /-- Something that looks like an option and is none. -/
  | unknown
  deriving Repr

/-! ### Telling arguments apart -/

/-- The option of a name. -/
def named? (options : List OptionSpec) (name : String) : Option OptionSpec :=
  options.find? (·.names.contains name)

/-- What stands before and after the first equals sign. -/
def splitEquals? (s : String) : Option (String × String) :=
  let cs := s.toList
  match cs.dropWhile (· ≠ '=') with
  | [] => none
  | _ :: rest => some (String.ofList (cs.takeWhile (· ≠ '=')), String.ofList rest)

/-- Whether an argument is short: one dash and a letter at the front. -/
def isShort (s : String) : Bool :=
  match s.toList with
  | '-' :: c :: _ => c != '-'
  | _ => false

/-- The readings of an argument as a shortened option or one with an operand attached. -/
def readings (options : List OptionSpec) (s : String) : List Item :=
  let written := options.flatMap fun spec => spec.names.map (spec, ·)
  if isShort s then
    let short := String.ofList (s.toList.take 2)
    let attached := String.ofList (s.toList.drop 2)
    written.filterMap fun (spec, name) =>
      if name = short then some (.option spec (.adjoined attached))
      else if s.toList.isPrefixOf name.toList then some (.option spec .nothing)
      else none
  else
    let (front, attached) : String × Attachment := match splitEquals? s with
      | some (front, attached) => (front, .afterEquals attached)
      | none => (s, .nothing)
    written.filterMap fun (spec, name) =>
      if front.toList.isPrefixOf name.toList then some (.option spec attached) else none

/-- Whether a text is a minus sign and a number in digits. -/
def isNegativeNumber (s : String) : Bool :=
  let isDigit (c : Char) : Bool := (Decimal.digitValue? c).isSome
  match s.toList with
  | '-' :: rest =>
    let rest := if rest.getLast? == some '\n' then rest.dropLast else rest
    let whole := rest.takeWhile isDigit
    match rest.dropWhile isDigit with
    | [] => !whole.isEmpty
    | '.' :: places => !places.isEmpty && places.all isDigit
    | _ => false
  | _ => false

/-- What an argument is that does not come after two dashes. -/
def itemOf (options : List OptionSpec) (s : String) : Except Halt Item :=
  match s.toList with
  | '-' :: _ :: _ =>
    match named? options s with
    | some spec => .ok (.option spec .nothing)
    | none =>
      let attached := (splitEquals? s).bind fun (front, attached) =>
        (named? options front).map fun spec => Item.option spec (.afterEquals attached)
      match attached with
      | some item => .ok item
      | none =>
        match readings options s with
        | [item] => .ok item
        | _ :: _ => .error .misuse
        | [] =>
          if isNegativeNumber s || s.toList.contains ' ' then .ok (.positional s)
          else .ok .unknown
  | _ => .ok (.positional s)

/-- What the arguments are. -/
def itemsOf (options : List OptionSpec) : List String → Except Halt (List Item)
  | [] => .ok []
  | s :: rest =>
    if s = "--" then .ok (.dashes :: rest.map .positional)
    else do
      let item ← itemOf options s
      let items ← itemsOf options rest
      return item :: items

/-! ### Taking options and positional arguments -/

/-- What an argument with options stands for. -/
structure Expansion where
  /-- Options with their operands. -/
  complete : List (OptionSpec × String)
  /-- An option whose operand has to follow. -/
  unfinished : Option OptionSpec
  /-- Whether letters were left over. -/
  surplus : Bool

/-- What an option stands for without anything attached. -/
def Expansion.alone (spec : OptionSpec) : Expansion :=
  if spec.operand = .nothing then ⟨[(spec, "")], none, false⟩ else ⟨[], some spec, false⟩

/-- What an option stands for with an operand behind an equals sign. -/
def Expansion.withOperand (spec : OptionSpec) (operand : String) : Except Halt Expansion :=
  if spec.operand = .nothing then .error .misuse else .ok ⟨[(spec, operand)], none, false⟩

/-- An expansion after an option that takes nothing. -/
def Expansion.after (spec : OptionSpec) (expansion : Expansion) : Expansion :=
  { expansion with complete := (spec, "") :: expansion.complete }

/-- What a short option stands for with letters attached: its operand, or more short options. -/
def cluster (options : List OptionSpec) (spec : OptionSpec) : List Char → Except Halt Expansion
  | [] => .ok (.alone spec)
  | c :: rest =>
    if spec.operand ≠ .nothing then .ok ⟨[(spec, String.ofList (c :: rest))], none, false⟩
    else if c = '-' then .error .misuse
    else
      match named? options (String.ofList ['-', c]) with
      | none => .ok ⟨[(spec, "")], none, true⟩
      | some next => do
        let expansion ← match rest with
          | '=' :: operand => Expansion.withOperand next (String.ofList operand)
          | _ => cluster options next rest
        return expansion.after spec

/-- What an option stands for. -/
def expand (options : List OptionSpec) (spec : OptionSpec) : Attachment → Except Halt Expansion
  | .nothing => .ok (.alone spec)
  | .afterEquals s => Expansion.withOperand spec s
  | .adjoined s => cluster options spec s.toList

/-- What was taken from the arguments so far. -/
structure Taken where
  /-- The usual names of options and their operands. -/
  options : List (String × String)
  /-- The positional arguments. -/
  positionals : List String
  /-- Options whose operand has to follow, with what is done before. -/
  awaiting : Option Expansion
  /-- Whether the last argument was taken as a positional one. -/
  afterPositional : Bool
  /-- Whether something was left over. -/
  surplus : Bool

namespace Taken

/-- Nothing. -/
def nothing : Taken := ⟨[], [], none, false, false⟩

/-- The operands given for an option. -/
def operands (taken : Taken) (name : String) : List String :=
  (taken.options.filter (·.1 == name)).map (·.2)

/-- Whether an option was given. -/
def has (taken : Taken) (name : String) : Bool := taken.options.any (·.1 == name)

/-- Takes an option with its operand, which has to be what the option takes. -/
def option (taken : Taken) (spec : OptionSpec) (operand : String) : Except Halt Taken :=
  let fits : Bool := match spec.operand with
    | .number => (Decimal.readFloat? operand.toList).isSome
    | .integer => (Decimal.readInt? operand.toList).isSome
    | _ => true
  if spec.help then .error .helpAsked
  else if !fits then .error .misuse
  else .ok { taken with options := taken.options ++ [(spec.names.headD "", operand)] }

/-- Takes an option whose operand has followed, and those before it. -/
def finish (taken : Taken) (expansion : Expansion) : Except Halt Taken :=
  expansion.complete.foldlM (fun taken (spec, operand) => taken.option spec operand)
    { taken with
      awaiting := none, afterPositional := false, surplus := taken.surplus || expansion.surplus }

/-- Takes a positional argument, if not all of `wanted` were taken. -/
def positional (taken : Taken) (wanted : Nat) (s : String) : Taken :=
  if taken.positionals.length < wanted then
    { taken with positionals := taken.positionals ++ [s], afterPositional := true }
  else { taken with surplus := true, afterPositional := false }

/-- Takes one more argument; `more` tells whether others follow. -/
def item (options : List OptionSpec) (wanted : Nat) (more : Bool) (taken : Taken) (i : Item) :
    Except Halt Taken :=
  match taken.awaiting, i with
  | some ⟨complete, some spec, surplus⟩, .positional s =>
    taken.finish ⟨complete ++ [(spec, s)], none, surplus⟩
  | some _, _ => .error .misuse
  | none, .positional s => .ok (taken.positional wanted s)
  | none, .dashes =>
    if taken.afterPositional || (more && taken.positionals.length < wanted) then .ok taken
    else .ok { taken with surplus := true }
  | none, .unknown => .ok { taken with surplus := true, afterPositional := false }
  | none, .option spec attached => do
    let expansion ← expand options spec attached
    match expansion.unfinished with
    | none => taken.finish expansion
    | some _ => return { taken with awaiting := some expansion, afterPositional := false }

/-- Takes all arguments. -/
def items (options : List OptionSpec) (wanted : Nat) (taken : Taken) :
    List Item → Except Halt Taken
  | [] => if taken.awaiting.isSome then .error .misuse else .ok taken
  | i :: rest => do
    let taken ← taken.item options wanted (!rest.isEmpty) i
    items options wanted taken rest

end Taken

/-- The options and positional arguments of a command that wants so many of these. -/
def take (options : List OptionSpec) (wanted : Nat) (args : List String) : Except Halt Taken := do
  let items ← itemsOf (helpOption :: options) args
  let taken ← Taken.nothing.items (helpOption :: options) wanted items
  if taken.positionals.length < wanted then .error .misuse else return taken

end FuzzySearch.CommandLine
