import FuzzySearch.Decimal.Scientific
import FuzzySearch.Error
import FuzzySearch.Value.Number
import FuzzySearch.Value.Written

/-!
# Message templates

A template is a text with directives in it, such as `%s` or `%05.2f`, each of which stands for one
argument.  `render` writes the arguments in place of the directives.  A directive can name its
argument, as in `%(count)d`; all arguments are then given as one mapping.  Two percent signs stand
for one.
-/

namespace FuzzySearch.Log

/-- A width or precision. -/
inductive Amount where
  | given (n : Nat)
  /-- The next argument gives it. -/
  | asked
  deriving DecidableEq, Repr

/-- A place in a template where an argument is written. -/
structure Directive where
  /-- The name of the argument, if it is taken from a mapping. -/
  name : Option String
  /-- The flags: left-aligned, with sign, blank for a sign, long form, zeros in front. -/
  flags : List Char
  /-- The least width. -/
  width : Amount
  /-- The precision. -/
  precision : Option Amount
  /-- The kind of conversion; none if the template ends before it. -/
  kind : Option Char

/-- A part of a template. -/
inductive Piece where
  | letter (c : Char)
  | directive (d : Directive)
  /-- A directive whose name is not closed. -/
  | unclosed

/-! ### Reading templates -/

/-- The characters up to the closing parenthesis and what follows it; `depth` more have to be closed
before. -/
def untilClosed? : (depth : Nat) → List Char → Option (List Char × List Char)
  | _, [] => none
  | depth, c :: rest =>
    if c = ')' then
      match depth with
      | 0 => some ([], rest)
      | depth + 1 => (untilClosed? depth rest).map fun (inside, after) => (c :: inside, after)
    else
      (untilClosed? (if c = '(' then depth + 1 else depth) rest).map fun (inside, after) =>
        (c :: inside, after)

/-- The name in parentheses at the front, if there is one, and the rest. -/
def directiveName? (cs : List Char) : Option (Option String × List Char) :=
  match cs with
  | '(' :: rest =>
    (untilClosed? 0 rest).map fun (inside, after) => (some (String.ofList inside), after)
  | _ => some (none, cs)

/-- The amount at the front, zero if there is none, and the rest. -/
def amount (cs : List Char) : Amount × List Char :=
  match cs with
  | '*' :: rest => (.asked, rest)
  | _ =>
    let digits := cs.takeWhile Char.isDigit
    (.given (digits.foldl (fun n d => 10 * n + (d.toNat - 48)) 0), cs.drop digits.length)

/-- The directive after a percent sign and the rest, unless the name of the directive is not
closed. -/
def directive? (cs : List Char) : Option (Directive × List Char) := do
  let (name, rest) ← directiveName? cs
  let isFlag (c : Char) : Bool := ['-', '+', ' ', '#', '0'].contains c
  let flags := rest.takeWhile isFlag
  let (width, rest) := amount (rest.dropWhile isFlag)
  let (precision, rest) := match rest with
    | '.' :: rest =>
      let (precision, rest) := amount rest
      (some precision, rest)
    | _ => (none, rest)
  let rest := match rest with
    | c :: rest' => if ['h', 'l', 'L'].contains c then rest' else rest
    | [] => []
  return (⟨name, flags, width, precision, rest.head?⟩, rest.drop 1)

/-- The pieces of a template, the first `skip` characters left out. -/
def pieces : (skip : Nat) → List Char → List Piece
  | _, [] => []
  | skip + 1, _ :: rest => pieces skip rest
  | 0, c :: rest =>
    if c = '%' && rest.head? == some '%' then .letter '%' :: pieces 1 rest
    else if c = '%' then
      match directive? rest with
      | some (d, after) => .directive d :: pieces (rest.length - after.length) rest
      | none => [.unclosed]
    else .letter c :: pieces 0 rest

/-! ### Arguments -/

/-- The arguments of a template. -/
structure Arguments where
  /-- The arguments that are not yet written. -/
  pending : List Value
  /-- Where named arguments are looked up; arguments may then be left over. -/
  table : Option Value

namespace Arguments

/-- The arguments that a value gives: the items of a tuple, or the value itself. -/
def ofValue : Value → Arguments
  | .tuple items => ⟨items, none⟩
  | v =>
    match v with
    | .list _ | .mapping _ | .octets _ => ⟨[v], some v⟩
    | _ => ⟨[v], none⟩

/-- The next argument. -/
def next (args : Arguments) : Except SearchError (Value × Arguments) :=
  match args.pending with
  | [] => .error .wrongKind
  | v :: rest => .ok (v, { args with pending := rest })

/-- The arguments for a directive: if it has a name, the value under it. -/
def select (args : Arguments) (name : Option String) : Except SearchError Arguments :=
  match name, args.table with
  | none, _ => .ok args
  | some _, none => .error .wrongKind
  | some name, some table => do
    let v ← table.required name
    return { args with pending := [v] }

/-- An amount, which may be the next argument, and must not be greater than a limit. -/
def amount (args : Arguments) (limit : Nat) : Amount → Except SearchError (Int × Arguments)
  | .given n => if limit < n then .error .malformed else .ok (n, args)
  | .asked => do
    let (v, args) ← args.next
    match v.integer? with
    | some n =>
      if n < -(limit : Int) - 1 || (limit : Int) < n then .error .tooLarge else return (n, args)
    | none => .error .wrongKind

end Arguments

/-! ### Writing arguments -/

/-- A text with the characters escaped that are not ASCII. -/
def asciiOnly (s : String) : List Char :=
  s.toList.flatMap fun c =>
    if c.toNat < 127 then [c]
    else if c.toNat < 256 then '\\' :: 'x' :: Text.hex 2 c.toNat
    else if c.toNat < 65536 then '\\' :: 'u' :: Text.hex 4 c.toNat
    else '\\' :: 'U' :: Text.hex 8 c.toNat

/-- A number that is written: what stands before its digits, and its digits. -/
structure NumberText where
  /-- Whether the number is negative. -/
  negative : Bool
  /-- The mark of the base. -/
  mark : List Char
  /-- The digits. -/
  digits : List Char

/-- The integer of a conversion; only decimal ones cut off a fraction. -/
def integerArgument (decimal : Bool) (v : Value) : Except SearchError Int :=
  match v with
  | .float _ => if decimal then v.toInt else .error .wrongKind
  | v => v.integer?.elim (.error .wrongKind) .ok

/-- An integer in a base. -/
def integerText (base : Nat) (mark : List Char) (precision : Nat) (n : Int) : NumberText :=
  ⟨n < 0, mark, Decimal.padZeros precision (Nat.toDigits base n.natAbs)⟩

/-- A floating-point number in positional, scientific or general notation. -/
def floatText (kind : Char) (long : Bool) (precision : Nat) (x : Float) : NumberText :=
  match Decimal.decode? x with
  | none => ⟨x < 0.0, [], (if x.isNaN then "nan" else "inf").toList⟩
  | some b =>
    let digits :=
      if kind = 'f' then Decimal.fixedDigits precision b
      else if kind = 'e' then Decimal.scientificDigits precision b
      else Decimal.generalDigits precision long b
    ⟨b.negative, [], if long then Decimal.withPoint digits else digits⟩

/-- A text in a field of a width. -/
def aligned (left : Bool) (width : Nat) (cs : List Char) : List Char :=
  let blanks := List.replicate (width - cs.length) ' '
  if left then cs ++ blanks else blanks ++ cs

/-- A number in a field of a width. -/
def alignedNumber (flags : List Char) (left : Bool) (width : Nat) (n : NumberText) : List Char :=
  let sign := if n.negative then ['-'] else if flags.contains '+' then ['+']
    else if flags.contains ' ' then [' '] else []
  let front := sign ++ n.mark
  if flags.contains '0' && !left then front ++ Decimal.padZeros (width - front.length) n.digits
  else aligned left width (front ++ n.digits)

/-- The character that a value gives. -/
def characterArgument : Value → Except SearchError Char
  | .text s =>
    match s.toList with
    | [c] => .ok c
    | _ => .error .wrongKind
  | v =>
    match v.integer? with
    | none => .error .wrongKind
    | some n => if 0 ≤ n ∧ n < 0x110000 then .ok (Char.ofNat n.toNat) else .error .tooLarge

/-- An argument as a directive asks for it. -/
def writeArgument (d : Directive) (kind : Char) (width : Int) (precision : Option Nat)
    (v : Value) : Except SearchError (List Char) := do
  let left := d.flags.contains '-' || width < 0
  let field := aligned left width.natAbs
  let numberField := alignedNumber d.flags left width.natAbs
  let long := d.flags.contains '#'
  let cut (cs : List Char) : List Char := (precision.map fun n => cs.take n).getD cs
  let integer (decimal : Bool) (base : Nat) (mark : List Char) :
      Except SearchError NumberText := do
    let n ← integerArgument decimal v
    return integerText base (if long then mark else []) (precision.getD 0) n
  let upper (n : NumberText) : NumberText :=
    { n with mark := n.mark.map Char.toUpper, digits := n.digits.map Char.toUpper }
  match kind with
  | 's' => return field (cut v.plain.toList)
  | 'r' => return field (cut v.written.toList)
  | 'a' => return field (cut (asciiOnly v.written))
  | 'c' => return field [← characterArgument v]
  | 'd' | 'i' | 'u' => return numberField (← integer true 10 [])
  | 'o' => return numberField (← integer false 8 ['0', 'o'])
  | 'x' => return numberField (← integer false 16 ['0', 'x'])
  | 'X' => return numberField (upper (← integer false 16 ['0', 'x']))
  | kind =>
    let lower := kind.toLower
    if lower != 'e' && lower != 'f' && lower != 'g' then .error .malformed
    else
      let x ← match v with
        | .text _ => .error .wrongKind
        | v => v.toFloat
      let n := floatText lower long (precision.getD 6) x
      return numberField (if kind.isUpper then upper n else n)

/-- The greatest width of a field. -/
def widthLimit : Nat := (1 <<< 63) - 1

/-- The greatest precision. -/
def precisionLimit : Nat := (1 <<< 31) - 1

/-- Writes a directive, and gives the arguments that are left. -/
def writeDirective (d : Directive) (args : Arguments) :
    Except SearchError (List Char × Arguments) := do
  let args ← args.select d.name
  let (width, args) ← args.amount widthLimit d.width
  let (precision, args) ← match d.precision with
    | none => pure (none, args)
    | some p => do
      let (n, args) ← args.amount precisionLimit p
      pure (some n.toNat, args)
  match d.kind with
  | none => .error .malformed
  | some kind =>
    let (v, args) ← args.next
    let written ← writeArgument d kind width precision v
    return (written, args)

/-- Writes the pieces of a template. -/
def writePieces : List Piece → Arguments → Except SearchError (List Char)
  | [], args => if args.pending.isEmpty || args.table.isSome then .ok [] else .error .wrongKind
  | .letter c :: rest, args => do
    let written ← writePieces rest args
    return c :: written
  | .directive d :: rest, args => do
    let (front, args) ← writeDirective d args
    let written ← writePieces rest args
    return front ++ written
  | .unclosed :: _, args => .error (if args.table.isSome then .malformed else .wrongKind)

/-- The template with arguments in place of its directives. -/
def render (template : String) (args : Value) : Except SearchError String := do
  let written ← writePieces (pieces 0 template.toList) (.ofValue args)
  return String.ofList written

end FuzzySearch.Log
