/-
The automaton of a grammar.

A state of the automaton is a set of items: productions with a place up to
which they have been read and a set of terminals that may follow them. States
are found when they are first needed and then kept, together with the answers
they gave, so a text only pays for the part of the automaton it visits.

Where a state has several answers for a terminal, levels and sides choose
between them; what they leave open stays open.

* **`Automaton.move`** — the state after a symbol;
* **`Automaton.replies`** — what to do on a terminal.
-/
import ElementLens.Grammar.Table
import Std.Data.HashMap

namespace ElementLens.Grammar

/-- A production read up to a place, and what may follow it. -/
structure Item where
  production : Nat
  dot : Nat
  follow : Nat
deriving DecidableEq, Repr, Hashable

/-- A state: its items, what may follow each construct that begins in it (zero
for those that do not), and which terminals have an answer. -/
structure State where
  items : List Item
  begun : Array Nat
  valid : Array Bool

/-- What to do on a terminal. A shift may also lengthen a repetition, and then
only counts if nothing else does. A reduction names the production and the
construct, the number of steps and the rank. -/
inductive Action where
  | shift (state : Nat) (lengthens : Bool)
  | reduce (production construct steps : Nat) (rank : Int)
  | accept
deriving DecidableEq, Repr

/-- The states found so far and what they answered. -/
structure Automaton where
  states : Array State
  known : Std.HashMap (List Item) Nat
  moves : Std.HashMap Nat Nat
  answers : Std.HashMap Nat (List Action)

namespace Automaton

variable {κ : Type}

/-- Whether a terminal is in a set. -/
def hasTerminal (set t : Nat) : Bool := set.testBit t

/-- What follows the symbol at the dot of an item. -/
def followAfter (table : Table κ) (i : Item) : Nat :=
  match table.productions[i.production]? with
  | none => 0
  | some p =>
    match p.symbol? (i.dot + 1) with
    | some s => Table.firstOf table.first s
    | none => i.follow

/-- The symbol at the dot of an item. -/
def symbolAt? (table : Table κ) (i : Item) : Option Symbol :=
  table.productions[i.production]?.bind fun p => p.symbol? i.dot

/-- What may follow each construct that begins with some items. -/
def begunBy (table : Table κ) (items : List Item) : Array Nat :=
  items.foldl (fun begun i =>
    match symbolAt? table i with
    | some (.construct c) =>
      let follow := followAfter table i
      (table.beginnings.getD c []).foldl (fun begun b =>
        begun.modify b.construct (· ||| b.fixed ||| (if b.last then follow else 0))) begun
    | _ => begun) (Array.replicate table.constructs 0)

/-- The terminals with an answer. -/
def validIn (table : Table κ) (items : List Item) (begun : Array Nat) : Nat :=
  let fromItems := items.foldl (fun set i =>
    match symbolAt? table i with
    | some (.terminal t) => set ||| Table.bit t
    | some (.construct _) => set
    | none => set ||| i.follow) 0
  (List.range table.constructs).foldl (fun set c =>
    match begun.getD c 0 with
    | 0 => set
    | follow =>
      let set := set ||| table.starts.getD c 0
      if (table.empties.getD c []).isEmpty then set else set ||| follow) fromItems

/-- The state with some items. -/
def stateOf (table : Table κ) (items : List Item) : State :=
  let begun := begunBy table items
  let valid := validIn table items begun
  ⟨items, begun, ((List.range table.terminals).map (hasTerminal valid)).toArray⟩

/-- The number of the state with some items. -/
def intern (table : Table κ) (a : Automaton) (items : List Item) : Nat × Automaton :=
  match a.known[items]? with
  | some n => (n, a)
  | none =>
    let n := a.states.size
    (n, { a with
      states := a.states.push (stateOf table items)
      known := a.known.insert items n })

/-- The automaton with its first state only, which has the number zero. -/
def start (table : Table κ) : Automaton :=
  (intern table ⟨#[], ∅, ∅, ∅⟩ [⟨table.whole, 0, Table.bit 0⟩]).2

/-- Items in the order of their productions. -/
def sortItems (items : List Item) : List Item :=
  items.mergeSort fun i j =>
    i.production < j.production || (i.production == j.production && i.dot ≤ j.dot)

/-- The items of a state after a symbol. -/
def advance (table : Table κ) (s : State) (x : Symbol) : List Item :=
  let moved := s.items.filterMap fun i =>
    if symbolAt? table i == some x then some { i with dot := i.dot + 1 } else none
  let leading := match x with
    | .terminal t => table.ledBy.getD t []
    | .construct c => table.led.getD c []
  let entered := leading.filterMap fun p =>
    match s.begun.getD (table.headOf p) 0 with
    | 0 => none
    | follow => some ⟨p, 1, follow⟩
  sortItems (moved ++ entered)

/-- The construct that a state can only rename: every item is a construct that
shows nothing of its own and was spelled by one symbol. -/
def renamed? (table : Table κ) (s : State) : Option Nat :=
  match s.items with
  | [] => none
  | i :: _ =>
    let head := table.headOf i.production
    let isPlain (i : Item) : Bool :=
      match table.productions[i.production]? with
      | none => false
      | some p =>
        i.dot == 1 && p.steps.size == 1 && p.rank == 0 && p.head == head
          && p.steps.all fun step => step.shown.isNone
    if table.transparent.getD head false && s.items.all isPlain then some head else none

/-- The number of a symbol among all symbols. -/
def symbolNumber (table : Table κ) : Symbol → Nat
  | .terminal t => t
  | .construct c => table.terminals + c

/-- The key of a state and a symbol. -/
def key (table : Table κ) (s : Nat) (x : Symbol) : Nat :=
  s * (table.terminals + table.constructs) + symbolNumber table x

/-- The state after a symbol. A state that could only rename what was read is
passed over. The bound is on the number of states passed over in a row. -/
def moveWithin (table : Table κ) : Nat → Automaton → Nat → Symbol → Nat × Automaton
  | 0, a, s, _ => (s, a)
  | fuel + 1, a, s, x =>
    match a.moves[key table s x]? with
    | some n => (n, a)
    | none =>
      match a.states[s]? with
      | none => (s, a)
      | some state =>
        let (n, a) := intern table a (advance table state x)
        let renames := a.states[n]?.bind (renamed? table)
        let (n, a) := match renames with
          | none => (n, a)
          | some c => moveWithin table fuel a s (.construct c)
        (n, { a with moves := a.moves.insert (key table s x) n })

/-- The state after a symbol. -/
def move (table : Table κ) (a : Automaton) (s : Nat) (x : Symbol) : Nat × Automaton :=
  moveWithin table 16 a s x

/-! ### Answers -/

/-- Reductions that are still possible, the level and the constructs they come
from, and the sides that were seen among them. -/
structure Choice where
  reductions : List Item
  level : Option String
  heads : List Nat
  left : Bool
  right : Bool
  none : Bool

/-- No reduction so far. -/
def Choice.empty : Choice := ⟨[], .none, [], false, false, false⟩

/-- The level and the side at the last step of an item. -/
def lastStep (table : Table κ) (i : Item) : Option String × Option Side :=
  match (table.steps i.production)[i.dot - 1]? with
  | some step => if i.dot = 0 then (none, none) else (step.level, step.side)
  | none => (none, none)

/-- Adds a reduction: those of a tighter level replace those of a looser one. -/
def Choice.add (table : Table κ) (c : Choice) (i : Item) : Choice :=
  let head := table.headOf i.production
  let (level, side) := lastStep table i
  let put (c : Choice) (is : List Item) : Choice :=
    { reductions := is
      level
      heads := if c.heads.contains head then c.heads else c.heads ++ [head]
      left := c.left || side == some .left
      right := c.right || side == some .right
      none := c.none || side == .none }
  if c.reductions.isEmpty then put c [i]
  else
    match table.compare level [head] c.level c.heads with
    | .gt => put .empty [i]
    | .eq => put c (c.reductions ++ [i])
    | .lt => c

/-- The finished items of a state that a terminal may follow, in order. -/
def finishedOn (table : Table κ) (s : State) (t : Nat) : List Item :=
  let isFinished (i : Item) : Bool := i.dot == (table.steps i.production).size
  let read := s.items.filter fun i => isFinished i && hasTerminal i.follow t
  let empty := (List.range table.constructs).flatMap fun c =>
    (table.empties.getD c []).filterMap fun p =>
      let follow := s.begun.getD c 0
      if hasTerminal follow t then some ⟨p, 0, follow⟩ else none
  let precedes (i j : Item) : Bool :=
    let a := table.headOf i.production
    let b := table.headOf j.production
    i.dot < j.dot || (i.dot == j.dot && (a < b || (a == b && i.production ≤ j.production)))
  (empty ++ read).mergeSort precedes

/-- The items of a state that go on with a construct or terminal which may
begin with a terminal, something of them having been read. -/
def goingOn (table : Table κ) (s : State) (t : Nat) : List Item :=
  s.items.filter fun i =>
    i.dot != 0 && match symbolAt? table i with
      | some x => hasTerminal (Table.firstOf table.first x) t
      | none => false

/-- How a shift and reductions are settled. -/
inductive Verdict where
  | shift | reduce | both | lengthen

/-- Settles between a shift and some reductions. If only one repetition is
concerned the shift lengthens it. -/
def settle (table : Table κ) (s : State) (t : Nat) (finished : List Item) (c : Choice) : Verdict :=
  let going := goingOn table s t
  let heads := ((finished ++ going).filter fun i => i.production != table.whole).map
    fun i => table.headOf i.production
  match heads.eraseDups with
  | [head] => if table.repeats ≤ head then .lengthen else decideBy going
  | _ => decideBy going
where
  /-- Levels decide first, then sides. -/
  decideBy (going : List Item) : Verdict :=
    let orders := going.map fun i =>
      table.compare (lastStep table i).1 [table.headOf i.production] c.level c.heads
    match orders.contains .gt, orders.contains .lt with
    | true, false => .shift
    | false, true => .reduce
    | true, true => .both
    | false, false =>
      if c.left && !c.none && !c.right then .reduce
      else if c.right && !c.left && !c.none then .shift
      else .both

/-- The action that finishes an item. -/
def finish (table : Table κ) (i : Item) : Action :=
  if i.production = table.whole then .accept
  else
    match table.productions[i.production]? with
    | none => .accept
    | some p => .reduce i.production p.head p.steps.size p.rank

/-- The reductions of a state on a terminal, and whether it can also be
shifted; it can be to lengthen a repetition. -/
def choices (table : Table κ) (state : State) (t : Nat) : List Action × Option Bool :=
  let finished := finishedOn table state t
  let choice := finished.foldl (Choice.add table) .empty
  let reductions := choice.reductions.map (finish table)
  if (advance table state (.terminal t)).isEmpty then (reductions, none)
  else if reductions.isEmpty then ([], some false)
  else
    match settle table state t finished choice with
    | .reduce => (reductions, none)
    | .shift => ([], some false)
    | .both => (reductions, some false)
    | .lengthen => (reductions, some true)

/-- What a state answers on a terminal; reductions come first. -/
def answer (table : Table κ) (a : Automaton) (s t : Nat) : List Action × Automaton :=
  match a.states[s]? with
  | none => ([], a)
  | some state =>
    match choices table state t with
    | (reductions, none) => (reductions, a)
    | (reductions, some lengthens) =>
      let (n, a) := move table a s (.terminal t)
      (reductions ++ [.shift n lengthens], a)

/-- What to do on a terminal. -/
def replies (table : Table κ) (a : Automaton) (s t : Nat) : List Action × Automaton :=
  let k := key table s (.terminal t)
  match a.answers[k]? with
  | some actions => (actions, a)
  | none =>
    let (actions, a) := answer table a s t
    (actions, { a with answers := a.answers.insert k actions })

/-- Whether a state has an answer for a terminal. -/
def isValid (a : Automaton) (s t : Nat) : Bool :=
  match a.states[s]? with
  | none => false
  | some state => state.valid.getD t false

end Automaton

end ElementLens.Grammar
