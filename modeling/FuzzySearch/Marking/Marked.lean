import FuzzySearch.Error
import FuzzySearch.Marking.Merge
import FuzzySearch.Text.Quoted

/-!
# Highlighted texts

`marked` puts marks around every run of characters that some span covers.  Nothing else is
changed: without the marks the text is what it was.
-/

namespace FuzzySearch

/-- How matched characters are marked. -/
inductive MarkStyle where
  /-- Double brackets. -/
  | plain
  /-- An element of a web page. -/
  | html
  deriving DecidableEq, Repr

namespace MarkStyle

/-- What is put before matched characters. -/
def opening : MarkStyle → List Char
  | plain => "[[".toList
  | html => "<mark>".toList

/-- What is put after matched characters. -/
def closing : MarkStyle → List Char
  | plain => "]]".toList
  | html => "</mark>".toList

/-- The style of a name. -/
def ofName (name : String) : Except SearchError MarkStyle :=
  if name = "plain" then .ok plain
  else if name = "html" then .ok html
  else .error (.unknownStyle (Text.quoted name))

end MarkStyle

/-- Marks the characters of `rest` that spans cover.  The spans are merged and clipped, and `rest`
begins at `position`. -/
def markFrom (style : MarkStyle) (position : Int) : List Span → (rest : List Char) → List Char
  | [], rest => rest
  | s :: spans, rest =>
    let before := (s.first - position).toNat
    let size := (s.last + 1 - s.first).toNat
    rest.take before ++ style.opening ++ (rest.drop before).take size ++ style.closing ++
      markFrom style (s.last + 1) spans (rest.drop (before + size))

/-- The text with marks around the characters that spans cover. -/
def marked (style : MarkStyle) (text : List Char) (spans : List Span) : List Char :=
  markFrom style 0 (clipSpans text.length spans) text

/-- The text with the marks of a named style around the characters that spans cover. -/
def highlight (text : String) (spans : List Span) (style : String) :
    Except SearchError String := do
  let style ← MarkStyle.ofName style
  return String.ofList (marked style text.toList spans)

example : markFrom .plain 0 [⟨1, 2⟩] "abcd".toList = "a[[bc]]d".toList := by decide

end FuzzySearch
