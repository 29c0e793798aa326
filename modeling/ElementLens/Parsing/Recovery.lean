/-
Going on after a mistake.

When no version has a use for the next terminal, the parser tries three ways
to go on: it supplies a terminal that the text may lack; it goes back to a
landmark below in whose state the terminal fits, and skips what lies between;
or it skips the terminal itself and stays lost. Every way is a version of its
own with its cost, and ways that are clearly worse than another are given up.

* **`Standing.compare`** — which of two versions is more promising;
* **`Parser.recover`** — what a lost version does on a terminal;
* **`Parser.goAstray`** — how a version gets lost.
-/
import ElementLens.Parsing.Parser

namespace ElementLens.Parsing

open Grammar

/-- How a version stands: its cost, what it has found since it last went
wrong, its rank, and whether it is lost. -/
structure Standing where
  cost : Nat
  progress : Nat
  rank : Int
  isLost : Bool

/-- The outcome of a comparison: one version is kept alone, or it is only
preferred, or there is no difference. -/
inductive Preference where
  | takeLeft | preferLeft | none | preferRight | takeRight
deriving DecidableEq, Repr

/-- How much more a version may cost than another one which has found nothing
since it went wrong; what the other one has found counts against it. -/
def maxDisadvantage : Nat := 18 * prices.skippedShape

namespace Standing

/-- Whether the advantage of the first of two costs is too large to make up
for. -/
def isAhead (cost other progress : Nat) : Bool :=
  maxDisadvantage < (other - cost) * (1 + progress)

/-- Compares two versions. One that is not lost wins against a lost one; then
costs count, then ranks. -/
def compare (a b : Standing) : Preference :=
  match a.isLost, b.isLost with
  | false, true => if a.cost < b.cost then .takeLeft else .preferLeft
  | true, false => if b.cost < a.cost then .takeRight else .preferRight
  | _, _ =>
    if a.cost < b.cost then
      if isAhead a.cost b.cost a.progress then .takeLeft else .preferLeft
    else if b.cost < a.cost then
      if isAhead b.cost a.cost b.progress then .takeRight else .preferRight
    else if b.rank < a.rank then .preferLeft
    else if a.rank < b.rank then .preferRight
    else .none

end Standing

namespace Parser

variable {κ μ : Type} [DecidableEq μ]

/-- How a version stands. Waiting costs a skipped shape. -/
def standing (p : Parser μ) (v : Nat) : Standing :=
  let isPaused := (p.stack.status v).isPaused
  let top := p.stack.top v
  { cost := p.stack.cost v + (if isPaused then prices.skippedShape else 0)
    progress := p.stack.progress v
    rank := top.rank
    isLost := isPaused || top.state.isNone }

/-- Whether some version that is as far is clearly better than version `v`
would be at a given cost. -/
def isOutdone (p : Parser μ) (v cost : Nat) : Bool :=
  let done := match p.finished with
    | some best => decide (best.summary.cost ≤ cost)
    | none => false
  let top := p.stack.top v
  let mine : Standing := ⟨cost, p.stack.progress v, top.rank, false⟩
  done || (List.range p.stack.size).any fun w =>
    w != v && (p.stack.status w).isActive && top.place.bytes ≤ (p.stack.top w).place.bytes
      && match mine.compare (p.standing w) with
        | .takeRight => true
        | .preferRight => p.stack.canMerge w v
        | _ => false

/-- Rebases all versions. -/
def rebaseAll (p : Parser μ) : Parser μ :=
  p.mapStack fun s => (List.range s.size).foldl Stack.rebase s

/-! ### Reductions without a terminal -/

/-- Distinct reductions by construct and length. -/
def addReduction (found : List Action) (a : Action) : List Action :=
  match a with
  | .reduce _ construct count _ =>
    let isSame : Action → Bool
      | .reduce _ c n _ => c == construct && n == count
      | _ => false
    if count == 0 || found.any isSame then found else found ++ [a]
  | _ => found

/-- All reductions of a state on some terminals, and whether one of them can
be shifted. -/
def reductionsOn (lang : Language κ μ) (state : Nat) :
    List Nat → List Action → Bool → Parser μ → List Action × Bool × Parser μ
  | [], found, shifts, p => (found, shifts, p)
  | t :: ts, found, shifts, p =>
    match p.actionsOn lang state t with
    | (none, p) => reductionsOn lang state ts found shifts p
    | (some actions, p) =>
      let canShift := actions.any fun
        | .shift _ lengthens => !lengthens
        | _ => false
      reductionsOn lang state ts (actions.foldl addReduction found) (shifts || canShift) p

/-- Performs every reduction that is possible from version `v` on, for one
terminal or for all of them (`none`), and says whether the terminal can be
shifted then. `from_` is the version to begin with and `initial` the number of
versions before; `round` counts. -/
def reduceAll (lang : Language κ μ) (terminal : Option Nat) (from_ initial : Nat) :
    Nat → Nat → Nat → Bool → Parser μ → Bool × Parser μ
  | 0, _, _, can, p => (can, p)
  | fuel + 1, round, v, can, p =>
    let size := p.stack.size
    if size ≤ v then (can, p)
    else
      match p.stack.partner? v ((List.range v).filter (initial ≤ ·)) with
      | some u =>
        reduceAll lang terminal from_ initial fuel (round + 1) v can
          (p.mapStack fun s => s.join u v)
      | none =>
        match (p.stack.top v).state with
        | none => (can, p)
        | some state =>
          let terminals := match terminal with
            | some t => [t]
            | none => (List.range lang.table.terminals).drop 1
          let (reductions, shifts, p) := reductionsOn lang state terminals [] false p
          let (p, last) := reductions.foldl (fun (p, last) a =>
            match a with
            | .reduce production construct count rank =>
              let (fresh, p) := p.reduce lang v production construct count rank
              (p, fresh)
            | _ => (p, last)) (p, (none : Option Nat))
          let onward (p : Parser μ) (can : Bool) : Bool × Parser μ :=
            let w := if v == from_ then size else v + 1
            reduceAll lang terminal from_ initial fuel (round + 1) w can p
          if shifts then onward p true
          else
            match last with
            | some w =>
              if round < maxVersions then
                reduceAll lang terminal from_ initial fuel (round + 1) v can
                  (p.mapStack fun s => s.replace w v)
              else if terminal.isSome then onward (p.mapStack fun s => s.remove v) can
              else onward p can
            | none =>
              if terminal.isSome then onward (p.mapStack fun s => s.remove v) can
              else onward p can

/-- Performs every reduction from a version on that a terminal allows. The end
of the text allows those of all terminals. -/
def performReductions (lang : Language κ μ) (p : Parser μ) (v : Nat) (terminal : Option Nat) :
    Bool × Parser μ :=
  let terminal := terminal.filter (· != 0)
  reduceAll lang terminal v p.stack.size p.bound 0 v false p

/-! ### Three ways -/

/-- The state after a terminal has been supplied. -/
def stateAfter (lang : Language κ μ) (p : Parser μ) (state t : Nat) : Option Nat × Parser μ :=
  match p.actionsOn lang state t with
  | (none, p) => (none, p)
  | (some actions, p) =>
    match actions.getLast? with
    | some (.shift next _) => (if next == state then none else some next, p)
    | _ => (none, p)

/-- Whether the first answer of a state on a terminal is a reduction. -/
def reducesOn (lang : Language κ μ) (p : Parser μ) (state t : Nat) : Bool × Parser μ :=
  match p.actionsOn lang state t with
  | (some (.reduce _ _ _ _ :: _), p) => (true, p)
  | (_, p) => (false, p)

/-- Tries to supply one of some terminals in front of the lookahead, in a new
version. -/
def supply (lang : Language κ μ) (v state lookahead : Nat) :
    List Nat → Parser μ → Bool × Parser μ
  | [], p => (false, p)
  | t :: ts, p =>
    match p.stateAfter lang state t with
    | (none, p) => supply lang v state lookahead ts p
    | (some next, p) =>
      let (fits, p) := p.reducesOn lang next lookahead
      if fits then
        let p := p.mapStack fun s => s.supply v (Shape.missing t (lang.isVisible t)) next
        let (can, p) := p.performReductions lang (p.stack.size - 1) (some lookahead)
        if can then (true, p) else supply lang v state lookahead ts p
      else supply lang v state lookahead ts p

/-- Goes back from a lost version over so many shapes to a state, and makes
the shapes an error there. Says whether there was such a way. -/
def goBack (p : Parser μ) (v depth state : Nat) : Bool × Parser μ :=
  ((p.stack.pop v depth).filter fun way => (p.stack.knot way.1).state == some state).foldl
    (fun ((_ : Bool), (p : Parser μ)) (base, alternatives) =>
      (true, p.mapStack fun s => s.goBack v base state (alternatives.headD []))) (false, p)

/-- Goes back to the first landmark whose state has a use for the terminal, if
that is not too dear. `known` is the number of versions before; `cost` that of
the lost version. -/
def goBackFor (lang : Language κ μ) (v known cost : Nat) (lookahead : Nat) :
    List Landmark → Parser μ → Bool × Parser μ
  | [], p => (false, p)
  | l :: ls, p =>
    let place := (p.stack.top v).place
    match l.state with
    | none => goBackFor lang v known cost lookahead ls p
    | some state =>
      let isTaken := (List.range known).any fun w =>
        (p.stack.top w).state == some state && (p.stack.top w).place.bytes == place.bytes
      if l.place.bytes == place.bytes || isTaken then
        goBackFor lang v known cost lookahead ls p
      else
        let price := cost + l.depth * prices.skippedShape
          + (place.bytes - l.place.bytes) * prices.skippedByte
          + (place.lines - l.place.lines) * prices.skippedLine
        if p.isOutdone v price then (false, p)
        else
          let p := p.rebaseAll
          match p.actionsOn lang state lookahead with
          | (some [], p) => goBackFor lang v known cost lookahead ls p
          | (_, p) =>
            let depth := if 0 < p.stack.progress v then l.depth + 1 else l.depth
            let (found, p) := p.goBack v depth state
            if found then (true, p) else goBackFor lang v known cost lookahead ls p

/-- Skips the terminal and stays lost. What was skipped right before is
skipped together with it (`joins`). -/
@[noinline] def skip (lang : Language κ μ) (v : Nat) (joins : Bool) (lookahead : Shape μ)
    (p : Parser μ) : Parser μ :=
  let isExtra := match lookahead.label with
    | .terminal t => lang.isExtra t
    | _ => false
  let lookahead := if isExtra then lookahead.setExtra true else lookahead
  p.mapStack fun s => s.skip v joins lookahead

/-- Gives a version up. -/
def halt (p : Parser μ) (v : Nat) : Parser μ :=
  p.mapStack fun s => s.setStatus v .halted

/-- What a lost version does on a terminal once it has tried to go back:
`found` says whether it could, `cost` is what it cost so far. At the end of
the text all becomes one error. -/
@[noinline] def stayLost (lang : Language κ μ) (v : Nat) (terminal : Option Nat)
    (lookahead : Shape μ) (cost : Nat) (found : Bool) (p : Parser μ) : Parser μ :=
  if terminal == some 0 then
    let p := p.mapStack fun s => s.push v (some (Shape.group .error true [])) (some 0)
    p.accept lang v lookahead
  else if found && (maxVersions < p.stack.size || lookahead.summary.changed) then p.halt v
  else
    let price := cost + prices.skippedShape + lookahead.extent.bytes * prices.skippedByte
      + lookahead.extent.lines * prices.skippedLine
    if p.isOutdone v price then p.rebaseAll.halt v
    else
      let p := p.rebaseAll
      skip lang v (0 < p.stack.progress v) lookahead p

/-- Goes back to where a terminal fits, and also skips it, unless that is
pointless. -/
@[noinline] def recoverFrom (lang : Language κ μ) (v : Nat) (terminal : Option Nat)
    (lookahead : Shape μ) (cost : Nat) (landmarks : Option (List Landmark)) (p : Parser μ) :
    Parser μ :=
  let (found, p) := match landmarks, terminal with
    | some ls, some t => p.goBackFor lang v p.stack.size cost t ls
    | _, _ => (false, p)
  stayLost lang v terminal lookahead cost found p

/-- What a lost version does on a terminal. -/
def recover (lang : Language κ μ) (p : Parser μ) (v : Nat) (terminal : Option Nat)
    (lookahead : Shape μ) : Parser μ :=
  let p := p.mapStack fun s => s.rebase v
  let landmarks := match p.stack.versions[v]? with
    | some w => w.landmarks
    | none => none
  recoverFrom lang v terminal lookahead (p.stack.cost v) landmarks p

/-- Marks versions as lost, trying to supply a terminal first until that
succeeds once. -/
def loseAll (lang : Language κ μ) (terminal : Option Nat) :
    List Nat → Bool → Parser μ → Parser μ
  | [], _, p => p
  | v :: vs, supplied, p =>
    let (supplied, p) := match supplied, terminal, (p.stack.top v).state with
      | false, some t, some state =>
        p.supply lang v state t ((List.range lang.table.terminals).drop 1)
      | _, _, _ => (supplied, p)
    loseAll lang terminal vs supplied (p.mapStack fun s => s.push v none none)

/-- The versions from number `before` on get lost together with version `v`
and are merged with it, and recovery begins. -/
@[noinline] def loseWay (lang : Language κ μ) (v before : Nat) (lookahead : Shape μ)
    (p : Parser μ) : Parser μ :=
  let terminal := match lookahead.label with
    | .terminal t => some t
    | _ => none
  let fresh := (List.range p.stack.size).drop before
  let p := loseAll lang terminal (v :: fresh) false p
  let p := fresh.foldl (fun (p : Parser μ) _ =>
    if p.stack.canMerge v before then p.mapStack fun s => s.join v before else p) p
  (p.mapStack fun s => s.recordLandmarks v).recover lang v terminal lookahead

/-- A version gets lost on a terminal: first all reductions are performed,
whatever the terminal. `before` is the number of versions. -/
@[noinline] def goAstrayFrom (lang : Language κ μ) (v before : Nat) (lookahead : Shape μ)
    (p : Parser μ) : Parser μ :=
  loseWay lang v before lookahead (p.performReductions lang v none).2

/-- A version gets lost on a terminal. -/
def goAstray (lang : Language κ μ) (p : Parser μ) (v : Nat) (lookahead : Shape μ) : Parser μ :=
  goAstrayFrom lang v p.stack.size lookahead p

end Parser

end ElementLens.Parsing
