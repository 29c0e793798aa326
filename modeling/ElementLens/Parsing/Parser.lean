/-
Parsing with a grammar.

The parser takes a text through the automaton of a grammar. A lexer reads the
next terminal, given what the state can use. Where the automaton leaves a
choice open all answers are followed; of readings that come together again
the better one is kept.

This part knows how to go on while the text fits. A version whose terminal
does not fit is paused; what becomes of it is decided elsewhere.

* **`Parser.reduce`** — finishes a construct on a version;
* **`Parser.accept`** — finishes the text;
* **`Parser.react`** — all that a version does on one terminal.
-/
import ElementLens.Grammar.Automaton
import ElementLens.Parsing.Stack

namespace ElementLens.Parsing

open Grammar

/-- A terminal that was read, or text that no terminal begins with (`none`):
the blanks in front of it, its length in characters, and what the lexer
remembers after it, if it remembers anything new. `isWord` says that it can
also be read as a plain word. -/
structure Reading (μ : Type) where
  terminal : Option Nat
  blank : Nat
  length : Nat
  memory : Option μ
  isWord : Bool

/-- What a lexer is given: the terminals that fit (`none` if the way is lost),
what it remembers, whether it may read an empty terminal, and the text. -/
structure Sight (μ : Type) where
  valid : Option (Array Bool)
  memory : Option μ
  mayBeEmpty : Bool
  text : List Char

/-- A language: the table of its grammar and a lexer. Extras may stand
anywhere; a word is what a keyword can also be; a language is forgiving if
texts with mistakes have a shape too. -/
structure Language (κ μ : Type) where
  table : Table κ
  lex : Sight μ → Reading μ
  isExtra : Nat → Bool
  isVisible : Nat → Bool
  showsConstruct : Nat → Bool
  word : Option Nat
  isForgiving : Bool

/-- A parser: the part of the automaton found so far, the stack, the best
shape of the whole text so far and how many there were. -/
structure Parser (μ : Type) where
  automaton : Automaton
  stack : Stack μ
  finished : Option (Shape μ)
  accepted : Nat

/-- The most versions that are kept from one terminal to the next. -/
def maxVersions : Nat := 6

/-- How many more there may be in between. -/
def spareVersions : Nat := 4

namespace Parser

variable {κ μ : Type} [DecidableEq μ]

/-- The parser before a text. -/
def start (lang : Language κ μ) (cs : List Char) : Parser μ :=
  ⟨Automaton.start lang.table, Stack.start cs, none, 0⟩

/-- Changes the stack. -/
def mapStack (p : Parser μ) (f : Stack μ → Stack μ) : Parser μ :=
  { p with stack := f p.stack }

/-- A bound for loops: larger than any number of steps they need. -/
def bound (p : Parser μ) : Nat := 64 * (p.stack.knots.size + 64)

/-- What a state does on a terminal. An extra that has no other use is
`none`. -/
def actionsOn (lang : Language κ μ) (p : Parser μ) (state terminal : Nat) :
    Option (List Action) × Parser μ :=
  if p.automaton.isValid state terminal then
    let (actions, automaton) := p.automaton.replies lang.table state terminal
    (some actions, { p with automaton })
  else if lang.isExtra terminal then (none, p)
  else (some [], p)

/-- The state after a construct. -/
def moveOver (lang : Language κ μ) (p : Parser μ) (state : Option Nat) (construct : Nat) :
    Option Nat × Parser μ :=
  match state with
  | none => (none, p)
  | some s =>
    let (n, automaton) := p.automaton.move lang.table s (.construct construct)
    (some n, { p with automaton })

/-- The best shape over some alternatives of parts, and the extras behind it. -/
def bestOf (lang : Language κ μ) (fuel construct production : Nat) :
    List (List (Shape μ)) → Shape μ × List (Shape μ)
  | [] => (Shape.group (.construct construct production) (lang.showsConstruct construct) [], [])
  | first :: others =>
    let shapeOf (parts : List (Shape μ)) : Shape μ × List (Shape μ) :=
      let (parts, extras) := Shape.splitExtras parts
      (Shape.group (.construct construct production) (lang.showsConstruct construct) parts, extras)
    others.foldl (fun best parts =>
      let candidate := shapeOf parts
      if Shape.isBetter lang.table.terminals fuel best.1 candidate.1 then candidate else best)
      (shapeOf first)

/-- Finishes a construct on a version. Every knot that the ways down lead to
gives a new version, unless it can be merged. Gives the first new version. -/
def reduce (lang : Language κ μ) (p : Parser μ) (v production construct count : Nat) (rank : Int) :
    Option Nat × Parser μ :=
  let before := p.stack.size
  let halted := (p.stack.versions.filter fun w => w.status.isHalted).size
  let fuel := p.bound
  let p := (p.stack.pop v count).foldl (fun (p : Parser μ) (base, alternatives) =>
    let w := p.stack.size
    if maxVersions + spareVersions + halted < w then p
    else
      let (shape, extras) := bestOf lang fuel construct production alternatives
      let state := (p.stack.knot base).state
      let (next, p) := p.moveOver lang state construct
      p.mapStack fun s =>
        let s := (s.fork v base).push w (some (shape.addRank rank)) next
        let s := s.pushAll w next extras
        match s.partner? w ((List.range w).filter (· != v)) with
        | some u => s.join u w
        | none => s) p
  (if before < p.stack.size then some before else none, p)

/-- Finishes the text on a version with the terminal that ends it. The whole
takes in what stands around the last construct. -/
def accept (lang : Language κ μ) (p : Parser μ) (v : Nat) (lookahead : Shape μ) : Parser μ :=
  let p := p.mapStack fun s => s.push v (some (lookahead.setExtra true)) (some 0)
  let fuel := p.bound
  let wholes := ((p.stack.popAll v).flatMap Prod.snd).filterMap fun (shapes : List (Shape μ)) =>
    let behind := (shapes.reverse.takeWhile fun s => s.summary.extra).reverse
    match (shapes.take (shapes.length - behind.length)).reverse with
    | [] => none
    | last :: before =>
      let visible := match last.label with
        | .construct c _ => lang.showsConstruct c
        | _ => true
      some (Shape.group last.label visible (before.reverse ++ last.parts ++ behind))
  let p := wholes.foldl (fun (p : Parser μ) whole =>
    let finished := match p.finished with
      | none => whole
      | some best =>
        if Shape.isBetter lang.table.terminals fuel best whole then whole else best
    { p with finished := some finished, accepted := p.accepted + 1 }) p
  p.mapStack fun s => s.setStatus v .halted

/-- Puts a terminal on top of a version. -/
def shift (p : Parser μ) (v : Nat) (state : Option Nat) (lookahead : Shape μ) (extra : Bool) :
    Parser μ :=
  p.mapStack fun s =>
    let s := s.push v (some (lookahead.setExtra extra)) state
    s.modify v fun w => { w with
      rest := w.rest.drop lookahead.extent.chars
      memory := lookahead.summary.memory <|> w.memory }

/-- What a version does on a terminal when its answers have been looked up:
it is done with the terminal, goes on with it, or has no answer. -/
inductive Reaction (μ : Type) where
  | done (p : Parser μ)
  | again (p : Parser μ)
  | stuck (p : Parser μ)

/-- Follows the answers of a version: reductions first, then a shift. -/
def follow (lang : Language κ μ) (p : Parser μ) (v : Nat) (lookahead : Shape μ)
    (actions : List Action) : Reaction μ :=
  let (p, last, did) := actions.foldl (fun (p, last, did) a =>
    match a with
    | .reduce production construct count rank =>
      let (fresh, p) := p.reduce lang v production construct count rank
      (p, fresh <|> last, true)
    | _ => (p, last, did)) (p, (none : Option Nat), false)
  let ending? := actions.find? fun
    | .shift _ lengthens => !lengthens
    | .accept => true
    | .reduce _ _ _ _ => false
  match ending? with
  | some (.shift state _) => .done (p.shift v (some state) lookahead false)
  | some .accept => .done (p.accept lang v lookahead)
  | _ =>
    match last with
    | some w => .again (p.mapStack fun s => s.replace w v)
    | none =>
      if did then .done (p.mapStack fun s => s.setStatus v .halted)
      else .stuck p

/-- All that a version does on one terminal: it finishes constructs until the
terminal can be put on top, or finds that it does not fit and is paused. The
terminal is `none` if the text begins with none. -/
def react (lang : Language κ μ) :
    Nat → Parser μ → Nat → Option Nat → Bool → Shape μ → Parser μ
  | 0, p, v, _, _, _ => p.mapStack fun s => s.setStatus v .halted
  | fuel + 1, p, v, terminal, isWord, lookahead =>
    let pause (p : Parser μ) : Parser μ :=
      p.mapStack fun s =>
        let weight := (s.top v).weight
        s.modify v fun w => { w with status := .paused lookahead, weightAtError := weight }
    match (p.stack.top v).state, terminal with
    | some state, some t =>
      match p.actionsOn lang state t with
      | (none, p) => p.shift v (some state) lookahead true
      | (some actions, p) =>
        match p.follow lang v lookahead actions with
        | .done p => p
        | .again p => react lang fuel p v terminal isWord lookahead
        | .stuck p =>
          match lang.word with
          | some word =>
            if isWord && t != word && p.automaton.isValid state word then
              let plain := Shape.leaf (.terminal word) (lang.isVisible word)
                lookahead.summary.blank lookahead.summary.size none false
              react lang fuel p v (some word) false plain
            else pause p
          | none => pause p
    | _, _ => pause p

/-- The terminal at the front of the text of a version. -/
def next (lang : Language κ μ) (p : Parser μ) (v : Nat) : Option (Reading μ × Shape μ) :=
  match p.stack.versions[v]? with
  | none => none
  | some w =>
    let valid := (p.stack.knot w.top).state.map fun s =>
      match p.automaton.states[s]? with
      | some state => state.valid
      | none => #[]
    let r := lang.lex ⟨valid, w.memory, p.stack.hasAdvanced v, w.rest⟩
    let blank := Extent.ofFirst r.blank w.rest
    let size := Extent.ofFirst r.length (w.rest.drop r.blank)
    let (label, visible) := match r.terminal with
      | some t => (Label.terminal t, lang.isVisible t)
      | none => (Label.error, true)
    let changed := r.memory.isSome && r.memory != w.memory
    some (r, Shape.leaf label visible blank size r.memory changed)

end Parser

end ElementLens.Parsing
