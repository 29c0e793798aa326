/-
Tables of a grammar.

A grammar lists its terminals and the rules of its constructs. From it a
table is computed once: repetitions become constructs of their own, and every
spelling of a construct becomes a production. The table also knows which
terminals can come first in a construct, and which constructs begin where
another one begins.

Sets of terminals are numbers whose bits are the members.

* **`Table.ofRuleset`** — the table of a grammar;
* **`Table.compare`** — which of two levels binds tighter.
-/
import ElementLens.Grammar.Rule

namespace ElementLens.Grammar

/-- A terminal or a construct, by number. -/
inductive Symbol where
  | terminal (i : Nat)
  | construct (i : Nat)
deriving DecidableEq, Repr, Inhabited

/-- A grammar with terminals `τ` and constructs `ν`. The first terminal is the
end of the text and the first rule that of the whole text. Each line of
`order` lists levels, and constructs as levels of their own, from the one that
binds tightest. -/
structure Ruleset (τ ν κ : Type) where
  terminals : List τ
  rules : List (ν × Rule (τ ⊕ ν) κ)
  transparent : ν → Bool
  order : List (List (String ⊕ ν))

/-- A production: the construct it spells, the steps, and the rank. -/
structure Production (κ : Type) where
  head : Nat
  steps : Array (Step Symbol κ)
  rank : Int
deriving Inhabited

/-- The symbol at a place of a production. -/
def Production.symbol? {κ : Type} (p : Production κ) (i : Nat) : Option Symbol :=
  (p.steps[i]?).map fun s : Step Symbol κ => s.symbol

/-- A construct that begins where another one does. What can follow it is
`fixed`, and also what can follow the other one if it is `last`. -/
structure Beginning where
  construct : Nat
  fixed : Nat
  last : Bool

/-- A grammar in numbers. `repeats` is the number of the first construct that
stands for a repetition. -/
structure Table (κ : Type) where
  terminals : Nat
  constructs : Nat
  repeats : Nat
  productions : Array (Production κ)
  whole : Nat
  empties : Array (List Nat)
  led : Array (List Nat)
  ledBy : Array (List Nat)
  starts : Array Nat
  first : Array Nat
  beginnings : Array (List Beginning)
  transparent : Array Bool
  order : List (List (String ⊕ Nat))

namespace Table

variable {τ ν κ : Type}

/-- The set of one terminal. -/
def bit (t : Nat) : Nat := 1 <<< t

/-- Replaces the repetitions in a rule by constructs, the first of them with
the number `base`. Equal repetitions share one construct. -/
def expand [DecidableEq κ] {σ : Type} (code : σ → Symbol) (base : Nat) (found : Array (Rule Symbol κ)) :
    Rule σ κ → Rule Symbol κ × Array (Rule Symbol κ)
  | .empty => (.empty, found)
  | .symbol s => (.symbol (code s), found)
  | .seq a b =>
    let (a, found) := expand code base found a
    let (b, found) := expand code base found b
    (.seq a b, found)
  | .alt a b =>
    let (a, found) := expand code base found a
    let (b, found) := expand code base found b
    (.alt a b, found)
  | .level name side r =>
    let (r, found) := expand code base found r
    (.level name side r, found)
  | .rank n r =>
    let (r, found) := expand code base found r
    (.rank n r, found)
  | .shown k r =>
    let (r, found) := expand code base found r
    (.shown k r, found)
  | .many r =>
    let (r, found) := expand code base found r
    match found.findIdx? (· == r) with
    | some i => (.opt (.symbol (.construct (base + i))), found)
    | none => (.opt (.symbol (.construct (base + found.size))), found.push r)

/-- The rule of a repetition: two repetitions, or what is repeated. -/
def repetition (i : Nat) (r : Rule Symbol κ) : Rule Symbol κ :=
  .alt (.seq (.symbol (.construct i)) (.symbol (.construct i))) r

/-- The first sets after one more round over the productions. -/
def growFirst (productions : Array (Production κ)) (first : Array Nat) : Array Nat :=
  productions.foldl (fun first p =>
    match p.symbol? 0 with
    | none => first
    | some s =>
      let more := match s with
        | .terminal t => bit t
        | .construct c => first.getD c 0
      first.modify p.head (· ||| more)) first

/-- Rounds until nothing changes, at most so many. -/
def settleFirst (productions : Array (Production κ)) : Nat → Array Nat → Array Nat
  | 0, first => first
  | fuel + 1, first =>
    let next := growFirst productions first
    if next == first then first else settleFirst productions fuel next

/-- The first terminals of a symbol. -/
def firstOf (first : Array Nat) : Symbol → Nat
  | .terminal t => bit t
  | .construct c => first.getD c 0

/-- What is known about the constructs that begin with a construct: whether
they do, what follows them, and whether they can be its last part. -/
abbrev Reach := Array (Option (Nat × Bool))

/-- Notes that a construct begins, and says whether that is news. -/
def Reach.note (r : Reach) (c fixed : Nat) (last : Bool) : Reach × Bool :=
  match r.getD c none with
  | none => (r.setIfInBounds c (some (fixed, last)), true)
  | some (f, l) =>
    if f ||| fixed == f && (l || !last) then (r, false)
    else (r.setIfInBounds c (some (f ||| fixed, l || last)), true)

/-- Follows first symbols from the constructs on the list. -/
def reachFrom (byHead : Array (List (Production κ))) (first : Array Nat) :
    Nat → Reach → List Nat → Reach
  | 0, r, _ => r
  | _, r, [] => r
  | fuel + 1, r, c :: todo =>
    match r.getD c none with
    | none => reachFrom byHead first fuel r todo
    | some (fixed, last) =>
      let follow (acc : Reach × List Nat) (p : Production κ) : Reach × List Nat :=
        match p.symbol? 0 with
        | some (.construct d) =>
          let (r, news) := match p.symbol? 1 with
            | some next => acc.1.note d (firstOf first next) false
            | none => acc.1.note d fixed last
          (r, if news then d :: acc.2 else acc.2)
        | _ => acc
      let (r, todo) := (byHead.getD c []).foldl follow (r, todo)
      reachFrom byHead first fuel r todo

/-- The constructs that begin where a construct begins, itself included. -/
def beginningsOf (byHead : Array (List (Production κ))) (first : Array Nat) (constructs c : Nat) :
    List Beginning :=
  let start : Reach := (Array.replicate constructs none).setIfInBounds c (some (0, true))
  let reach := reachFrom byHead first (64 * (constructs + 1)) start [c]
  (List.range constructs).filterMap fun d =>
    match reach.getD d none with
    | none => none
    | some (fixed, last) => some ⟨d, fixed, last⟩

/-- Groups the numbers of productions by a key below `size`, in order. -/
def index (size : Nat) (key : Production κ → Option Nat) (productions : Array (Production κ)) :
    Array (List Nat) :=
  (List.range productions.size).reverse.foldl (fun groups i =>
    match productions[i]? with
    | none => groups
    | some p =>
      match key p with
      | none => groups
      | some k => groups.modify k (i :: ·)) (Array.replicate size [])

/-- The table of a grammar. -/
def ofRuleset [DecidableEq τ] [DecidableEq ν] [DecidableEq κ] (g : Ruleset τ ν κ) : Table κ :=
  let number : ν → Nat := fun n => g.rules.findIdx fun r => r.1 == n
  let code : τ ⊕ ν → Symbol
    | .inl t => .terminal (g.terminals.findIdx (· == t))
    | .inr n => .construct (number n)
  let base := g.rules.length
  let (rules, found) := g.rules.foldl (fun (rules, found) (_, r) =>
    let (r, found) := expand code base found r
    (rules.push r, found)) ((#[] : Array (Rule Symbol κ)), (#[] : Array (Rule Symbol κ)))
  let rules := rules ++ found.mapIdx fun i r => repetition (base + i) r
  let constructs := rules.size
  let spelled := rules.map Rule.spellings
  let productions : Array (Production κ) :=
    (List.range constructs).foldl (fun (ps : Array (Production κ)) i =>
      (spelled.getD i []).foldl (fun ps s => ps.push ⟨i, s.steps.toArray, s.rank⟩) ps) #[]
  let whole := productions.size
  let all := productions.push ⟨constructs, #[⟨.construct 0, none, none, none⟩], 0⟩
  let first := settleFirst productions (constructs + 1) (Array.replicate constructs 0)
  let byHead : Array (List (Production κ)) :=
    productions.foldl (fun groups p => groups.modify p.head (p :: ·))
      (Array.replicate constructs [])
  let leading (f : Symbol → Option Nat) (p : Production κ) : Option Nat :=
    (p.symbol? 0).bind f
  { terminals := g.terminals.length
    constructs
    repeats := base
    productions := all
    whole
    empties := index constructs (fun p => if p.steps.isEmpty then some p.head else none) productions
    led := index constructs
      (leading fun | .construct c => some c | .terminal _ => none) productions
    ledBy := index g.terminals.length
      (leading fun | .terminal t => some t | .construct _ => none) productions
    starts := productions.foldl (fun starts p =>
      match p.symbol? 0 with
      | some (.terminal t) => starts.modify p.head (· ||| bit t)
      | _ => starts) (Array.replicate constructs 0)
    first
    beginnings := ((List.range constructs).map (beginningsOf byHead first constructs)).toArray
    transparent := (g.rules.map fun r => g.transparent r.1).toArray
      ++ Array.replicate found.size true
    order := g.order.map fun line => line.map fun
      | .inl name => .inl name
      | .inr n => .inr (number n) }

/-- The steps of a production. -/
def steps (t : Table κ) (p : Nat) : Array (Step Symbol κ) :=
  match t.productions[p]? with
  | none => #[]
  | some p => p.steps

/-- The construct that a production spells. -/
def headOf (t : Table κ) (p : Nat) : Nat :=
  match t.productions[p]? with
  | none => t.constructs
  | some p => p.head

/-- Which of two levels binds tighter, as far as one line of the order tells.
Every level comes with the constructs it was found in. -/
def compareIn (a : Option String) (heads : List Nat) (b : Option String) (others : List Nat)
    (seenA seenB : Bool) : List (String ⊕ Nat) → Ordering
  | [] => .eq
  | rung :: rest =>
    let is (level : Option String) (constructs : List Nat) : Bool :=
      match rung with
      | .inl name => level == some name
      | .inr c => constructs.contains c
    if is a heads then
      if seenB then .lt else compareIn a heads b others true seenB rest
    else if is b others then
      if seenA then .gt else compareIn a heads b others seenA true rest
    else compareIn a heads b others seenA seenB rest

/-- Which of two levels binds tighter: `.gt` if it is the first. -/
def compare (t : Table κ) (a : Option String) (heads : List Nat) (b : Option String)
    (others : List Nat) : Ordering :=
  t.order.foldl (fun o line =>
    if o == .eq then compareIn a heads b others false false line else o) .eq

end Table

end ElementLens.Grammar
