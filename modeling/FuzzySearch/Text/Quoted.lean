import FuzzySearch.Text.Blank
import FuzzySearch.Text.PrintableTable

/-!
# Quoted texts

A text inside a message is written between quotes.  Single quotes are used unless the text has a
single quote and no double one.  The quote in use and the backslash are written after a backslash,
and a character that is not printable is written as an escape.
-/

namespace FuzzySearch.Text

/-- The apostrophe, which quotes a text by default. -/
def singleQuote : Char := Char.ofNat 39

/-- The double quotation mark. -/
def doubleQuote : Char := Char.ofNat 34

/-- Whether a character is written as itself. -/
def isPrintable (c : Char) : Bool :=
  (32 ≤ c.toNat && c.toNat ≤ 126) || inRanges printableRanges c

/-- The last `width` hexadecimal digits of a number. -/
def hex : (width : Nat) → Nat → List Char
  | 0, _ => []
  | width + 1, n => hex width (n / 16) ++ [Nat.digitChar (n % 16)]

/-- A character inside a text that is quoted by `quote`. -/
def quotedChar (quote c : Char) : List Char :=
  if c = quote || c = '\\' then ['\\', c]
  else if c = '\t' then ['\\', 't']
  else if c = '\n' then ['\\', 'n']
  else if c = '\r' then ['\\', 'r']
  else if isPrintable c then [c]
  else if c.toNat < 256 then '\\' :: 'x' :: hex 2 c.toNat
  else if c.toNat < 65536 then '\\' :: 'u' :: hex 4 c.toNat
  else '\\' :: 'U' :: hex 8 c.toNat

/-- The quote that a text is written with. -/
def quoteFor (cs : List Char) : Char :=
  if cs.contains singleQuote && !cs.contains doubleQuote then doubleQuote else singleQuote

/-- A text between quotes. -/
def quoted (s : String) : String :=
  let cs := s.toList
  let quote := quoteFor cs
  String.ofList (quote :: cs.flatMap (quotedChar quote) ++ [quote])

example : quoted "it's" = "\"it's\"" := by decide +kernel
example : quoted "say \"it's\"\n" = "'say \"it\\'s\"\\n'" := by decide +kernel
example : quoted "\u200b" = "'\\u200b'" := by decide +kernel

end FuzzySearch.Text
