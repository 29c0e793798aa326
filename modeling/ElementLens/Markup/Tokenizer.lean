/-
Tokenizers.

A tokenizer takes the segments of a template and reports the names in them.
It may stop before the end, with a reason, or break down altogether. The
markup of this library is one tokenizer; others are used to see how a failing
one is dealt with.
-/
import ElementLens.Markup.Event

namespace ElementLens.Markup

/-- Why a tokenizer gives no further names. -/
inductive TokenizerError where
  | noTree
  | malformed (fault : Fault)
deriving DecidableEq, Repr

/-- The wording of the reasons. -/
def TokenizerError.message : TokenizerError → String
  | .noTree => "tokenizer produced no tree"
  | .malformed f => s!"malformed markup in segment {f.segment} at offset {f.offset}"

/-- What a tokenizer does with a template: it reports names and perhaps the
reason why it stopped, or it breaks down. -/
inductive Tokenization where
  | reported (events : List Event) (stopped : Option TokenizerError)
  | brokeDown
deriving Repr

/-- A tokenizer takes segments as written. -/
abbrev Tokenizer := List String → Tokenization

/-- The tokenizer that reads markup with a parser. -/
def tokenizeBy (parse : List Char → Syntax.Tree Kind) : Tokenizer := fun segments =>
  let (found, fault) := eventsBy parse segments
  .reported found (fault.map .malformed)

/-- The tokenizer that reads markup. -/
def tokenize : Tokenizer := tokenizeBy parse

end ElementLens.Markup
