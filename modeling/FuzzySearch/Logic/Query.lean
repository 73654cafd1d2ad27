import FuzzySearch.Key
import FuzzySearch.Logic.Expression

/-!
# Logical queries

A logical query is a mapping.  Under `$and` and `$or` stand lists of queries; `$path` and `$val`
give the path of a field and its pattern; any other mapping gives a pattern for each field, all of
which have to match.  `compile` turns a query into an `Expression`, with a matcher at every leaf.
-/

namespace FuzzySearch

namespace LogicalQuery

variable {α : Type}

/-- Whether a mapping combines queries. -/
def combines (entries : List (String × Value)) : Bool :=
  (lookup? "$and" entries).isSome || (lookup? "$or" entries).isSome

/-- Whether a mapping gives a path. -/
def hasPath (entries : List (String × Value)) : Bool :=
  ((lookup? "$path" entries).getD .null).truth

/-- The leaf of a key and a pattern. -/
def leaf (matcher : String → Option (Matcher α)) (key pattern : Value) :
    Except SearchError (Expression α) :=
  match pattern with
  | .text s => do
    let keyName ← Key.idOf key
    return .leaf ⟨keyName, s, matcher s⟩
  | _ => .error (.invalidPattern key.plain)

/-- The leaf of a path, or of the first entry of a mapping. -/
def leafOf (matcher : String → Option (Matcher α)) (entries : List (String × Value)) :
    Except SearchError (Expression α) :=
  if hasPath entries then
    leaf matcher ((lookup? "$path" entries).getD .null) ((lookup? "$val" entries).getD .null)
  else
    match entries with
    | [] => .error (.invalidNode "\x7b\x7d")
    | (name, pattern) :: _ => leaf matcher (.text name) pattern

/-- The node that demands all entries of a mapping. -/
def conjunction (matcher : String → Option (Matcher α)) (entries : List (String × Value)) :
    Except SearchError (Expression α) := do
  let leaves ← entries.mapM fun (name, pattern) => leaf matcher (.text name) pattern
  return .node .all leaves

/-- The connective of a node: the name of the first entry. -/
def connectiveOf : List (String × Value) → Connective
  | [] => .other ""
  | (name, _) :: _ => .ofName name

mutual

/-- Compiles a query inside another. -/
def compileNode (matcher : String → Option (Matcher α)) :
    Value → Except SearchError (Expression α)
  | .mapping entries =>
    if entries.isEmpty then .error (.invalidNode (Value.mapping entries).written)
    else if !hasPath entries && 1 < entries.length && !combines entries then
      conjunction matcher entries
    else if !combines entries then leafOf matcher entries
    else do
      let children ← compileEntries matcher entries
      return .node (connectiveOf entries) children
  | v => .error (.invalidNode v.written)

/-- Compiles the queries in the lists among the entries of a mapping. -/
def compileEntries (matcher : String → Option (Matcher α)) :
    List (String × Value) → Except SearchError (List (Expression α))
  | [] => .ok []
  | (_, .list items) :: rest => do
    let children ← compileItems matcher items
    let others ← compileEntries matcher rest
    return children ++ others
  | _ :: rest => compileEntries matcher rest

/-- Compiles the queries of a list. -/
def compileItems (matcher : String → Option (Matcher α)) :
    List Value → Except SearchError (List (Expression α))
  | [] => .ok []
  | item :: rest => do
    let child ← compileNode matcher item
    let others ← compileItems matcher rest
    return child :: others

end

/-- Compiles a query, with a way to make the matcher of a pattern.  The limit that a call stack sets
to the depth of queries is left aside. -/
def compile (matcher : String → Option (Matcher α)) (query : Value) :
    Except SearchError (Expression α) :=
  match query with
  | .mapping entries =>
    if hasPath entries then do
      let child ← compileNode matcher query
      return .node .all [child]
    else if !combines entries then conjunction matcher entries
    else compileNode matcher query
  | v => .error (.notAQuery v.kindName)

end LogicalQuery

end FuzzySearch
