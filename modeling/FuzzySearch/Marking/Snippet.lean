import FuzzySearch.Marking.Marked
import FuzzySearch.Text.Blank
import FuzzySearch.Text.Occurrence

/-!
# Snippets of matched texts

A snippet is a part of a text of limited length around the first matched run.  `window` chooses the
part: it is centred on the run and does not begin or end inside a word, unless the word belongs to
the run.
-/

namespace FuzzySearch.Snippet

/-- A position of a text of a length: negative ones are counted from the end, and none lies outside
of the text. -/
def place (length : Nat) (i : Int) : Nat :=
  if i < 0 then (i + length).toNat else min i.toNat length

/-- The part of a text between two positions. -/
def part (text : List Char) (first last : Int) : List Char :=
  (text.take (place text.length last)).drop (place text.length first)

/-- The beginning of a window after a partial word, if a blank follows before `limit`. -/
def afterWord (text : List Char) (first limit : Int) : Int :=
  let n := text.length
  match Text.firstIn? ' ' text (place n first) (place n limit) with
  | some k => k + 1
  | none => first

/-- The end of a window before a partial word, if a blank precedes it and is not before `limit`. -/
def beforeWord (text : List Char) (limit last : Int) : Int :=
  let n := text.length
  match Text.lastIn? ' ' text (place n limit) (place n last) with
  | some k => k
  | none => last

/-- The beginning and the end of the part that is shown of a text with a matched run. -/
def window (text : List Char) (run : Span) (maxChars : Int) : Int × Int :=
  let length : Int := text.length
  if length ≤ maxChars then (0, length)
  else
    let middle := (run.first + run.last).fdiv 2
    let start := max 0 (middle - maxChars.fdiv 2)
    let stop := min length (start + maxChars)
    let start := max 0 (stop - maxChars)
    (if 0 < start then afterWord text start run.first else start,
      if stop < length then beforeWord text (run.last + 1) stop else stop)

/-- The spans that reach into a window, as positions of the window. -/
def visible (start stop : Int) (spans : List Span) : List Span :=
  (spans.filter fun s => s.first < stop && start ≤ s.last).map fun s =>
    ⟨max s.first start - start, min s.last (stop - 1) - start⟩

end Snippet

open Snippet in
/-- At most `maxChars` characters of a text around the first matched run, the matched characters in
them being marked, or from its beginning if nothing matched. -/
def snippet (text : String) (spans : List Span) (maxChars : Int) (style : String) :
    Except SearchError String :=
  let letters := text.toList
  let runs := if letters.isEmpty then [] else clipSpans letters.length spans
  match runs with
  | [] => .ok (String.ofList (Text.strip (part letters 0 maxChars)))
  | run :: runs => do
    let (start, stop) := window letters run maxChars
    let style ← MarkStyle.ofName style
    let shown := marked style (part letters start stop) (visible start stop (run :: runs))
    return String.ofList (Text.strip shown)

example : Snippet.window "one two three".toList ⟨4, 6⟩ 8 = (4, 7) := by decide

end FuzzySearch
