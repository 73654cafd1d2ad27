import FuzzySearch.Pattern.Fuzzy
import FuzzySearch.Text.Quoted

/-!
# Terms of the extended syntax

A term is a pattern with a way of comparing it, which is told from the marks around the pattern:

| Term     | A text matches if it …            |
| -------- | --------------------------------- |
| `word`   | is like `word`                    |
| `=word`  | is `word`                         |
| `'word`  | has `word` in it                  |
| `!word`  | does not have `word` in it        |
| `^word`  | begins with `word`                |
| `!^word` | does not begin with `word`        |
| `word$`  | ends with `word`                  |
| `!word$` | does not end with `word`          |

The pattern may stand between double quotes.  A token is first tried as a quoted term of each kind,
then as a bare term of each kind, in the order of `TermKind.all`.
-/

namespace FuzzySearch

open ScoreNumber

/-- How a term compares its pattern. -/
inductive TermKind where
  | equals
  | includes
  | startsWith
  | startsNotWith
  | endsNotWith
  | endsWith
  | excludes
  | fuzzy
  deriving DecidableEq, Repr

namespace TermKind

/-- All kinds, in the order in which a token is tried. -/
def all : List TermKind :=
  [equals, includes, startsWith, startsNotWith, endsNotWith, endsWith, excludes, fuzzy]

/-- The name of a kind. -/
def name : TermKind → String
  | equals => "exact"
  | includes => "include"
  | startsWith => "prefix-exact"
  | startsNotWith => "inverse-prefix-exact"
  | endsNotWith => "inverse-suffix-exact"
  | endsWith => "suffix-exact"
  | excludes => "inverse-exact"
  | fuzzy => "fuzzy"

/-- The mark before the pattern. -/
def opening : TermKind → List Char
  | equals => ['=']
  | includes => [Text.singleQuote]
  | startsWith => ['^']
  | startsNotWith => ['!', '^']
  | endsNotWith | excludes => ['!']
  | endsWith | fuzzy => []

/-- The mark after the pattern. -/
def closing : TermKind → List Char
  | endsNotWith | endsWith => ['$']
  | _ => []

end TermKind

/-- What stands between two marks at the ends of a token, unless it is empty or has a line break. -/
def between? (opening closing token : List Char) : Option (List Char) :=
  if opening.isPrefixOf token then
    let rest := token.drop opening.length
    if closing.isSuffixOf rest then
      let body := rest.take (rest.length - closing.length)
      if body.isEmpty || body.contains '\n' then none else some body
    else none
  else none

namespace TermKind

/-- The pattern of a token that is a quoted term of this kind. -/
def quotedPattern? (kind : TermKind) (token : List Char) : Option (List Char) :=
  between? (kind.opening ++ [Text.doubleQuote]) (Text.doubleQuote :: kind.closing) token

/-- The pattern of a token that is a bare term of this kind. -/
def barePattern? (kind : TermKind) (token : List Char) : Option (List Char) :=
  between? kind.opening kind.closing token

end TermKind

/-- A pattern and how it is compared. -/
structure Term where
  /-- How the pattern is compared. -/
  kind : TermKind
  /-- The pattern. -/
  pattern : List Char
  deriving DecidableEq, Repr

namespace Term

/-- The term that a token spells. -/
def ofToken? (token : List Char) : Option Term :=
  (TermKind.all.findSome? fun kind => (kind.quotedPattern? token).map (Term.mk kind)).or
    (TermKind.all.findSome? fun kind => (kind.barePattern? token).map (Term.mk kind))

variable {α : Type} [ScoreNumber α]

/-- The result of a comparison that holds or does not. -/
def verdict (holds : Bool) (spans : List Span) : Comparison α :=
  ⟨holds, if holds then zero else one, spans⟩

/-- The first `size` positions. -/
def firstPositions (size : Nat) : Span := ⟨0, (size : Int) - 1⟩

/-- The last `part` of `size` positions. -/
def lastPositions (size part : Nat) : Span := ⟨(size : Int) - part, (size : Int) - 1⟩

/-- The spans of the left-to-right, non-overlapping occurrences of a pattern. -/
def occurrenceSpans (pattern text : List Char) : List Span :=
  (Text.occurrences pattern text 0).map fun (start : Nat) =>
    ⟨start, (start : Int) + pattern.length - 1⟩

/-- Compares a term with a text. -/
def matchLetters (options : MatchOptions α) (term : Term) (text : List Char) : Comparison α :=
  let p := term.pattern
  let whole := firstPositions text.length
  match term.kind with
  | .equals => verdict (text = p) [firstPositions p.length]
  | .includes =>
    let spans := occurrenceSpans p text
    verdict (!spans.isEmpty) spans
  | .startsWith => verdict (p.isPrefixOf text) [firstPositions p.length]
  | .startsNotWith => verdict (!p.isPrefixOf text) [whole]
  | .endsNotWith => verdict (!p.isSuffixOf text) [whole]
  | .endsWith => verdict (p.isSuffixOf text) [lastPositions text.length p.length]
  | .excludes => verdict (!Text.contains p text) [whole]
  | .fuzzy => (FuzzyPattern.ofLetters p options).matchLetters text

end Term

end FuzzySearch
