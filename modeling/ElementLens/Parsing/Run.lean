/-
Running the parser over a text.

In every round each version reads one terminal. Then the versions are put in
order, those that agree are merged and those that are clearly worse are given
up. If the best version waits with a terminal that does not fit, a forgiving
language goes on with it, and any other language gives up.

* **`shapeOf?`** — the shape of a text in a language.
-/
import ElementLens.Parsing.Recovery

namespace ElementLens.Parsing

open Grammar

namespace Parser

variable {κ μ : Type} [DecidableEq μ]

/-- A version reads the next terminal. -/
def advance (lang : Language κ μ) (p : Parser μ) (v : Nat) : Parser μ :=
  match p.next lang v with
  | none => p
  | some (r, lookahead) =>
    if (p.stack.top v).state.isNone then p.recover lang v r.terminal lookahead
    else p.react lang p.bound v r.terminal r.isWord lookahead

/-- A version reads terminals until it is past the furthest place so far; a
later version only has to draw level. -/
def advancePast (lang : Language κ μ) (v : Nat) : Nat → Parser μ → Nat → Parser μ × Nat
  | 0, p, furthest => (p, furthest)
  | fuel + 1, p, furthest =>
    if (p.stack.status v).isActive && v < p.stack.size then
      let p := p.advance lang v
      let place := (p.stack.top v).place.bytes
      if furthest < place || (0 < v && place == furthest) then (p, place)
      else advancePast lang v fuel p furthest
    else (p, furthest)

/-- All versions from `v` on read on, those that come up in between too. -/
def advanceAll (lang : Language κ μ) : Nat → Nat → Parser μ → Nat → Parser μ × Nat
  | 0, _, p, furthest => (p, furthest)
  | fuel + 1, v, p, furthest =>
    if p.stack.size ≤ v then (p, furthest)
    else
      let (p, furthest) := p.advancePast lang v p.bound furthest
      advanceAll lang fuel (v + 1) p furthest

/-- Compares a version with the versions before it, from `w` on; `mine` is how
it stood at first. Gives the next version to look at. -/
def place (mine : Standing) : Nat → Nat → Nat → Parser μ → Nat × Parser μ
  | 0, v, _, p => (v + 1, p)
  | fuel + 1, v, w, p =>
    if v ≤ w then (v + 1, p)
    else
      let p := p.mapStack fun s => s.rebase w
      match (p.standing w).compare mine with
      | .takeLeft => (v, p.mapStack fun s => s.remove v)
      | .preferLeft | .none =>
        if p.stack.canMerge w v then (v, p.mapStack fun s => s.join w v)
        else place mine fuel v (w + 1) p
      | .preferRight =>
        if p.stack.canMerge w v then (v, p.mapStack fun s => s.join w v)
        else place mine fuel v (w + 1) (p.mapStack fun s => s.swap v w)
      | .takeRight => place mine fuel (v - 1) w (p.mapStack fun s => s.remove w)

/-- Puts the versions from `v` on in order and finds the least cost of a
version that is not lost. -/
def order : Nat → Nat → Option Nat → Parser μ → Option Nat × Parser μ
  | 0, _, least, p => (least, p)
  | fuel + 1, v, least, p =>
    if p.stack.size ≤ v then (least, p)
    else if (p.stack.status v).isHalted then
      order fuel v least (p.mapStack fun s => s.remove v)
    else
      let p := p.mapStack fun s => s.rebase v
      let mine := p.standing v
      let least := if mine.isLost then least
        else match least with
          | none => some mine.cost
          | some n => some (min n mine.cost)
      let (next, p) := place mine (fuel + 1) v 0 p
      order fuel next least p

/-- Goes on with the first version if it waits; versions that wait behind one
that does not are given up. The result is `none` if the language is not
forgiving. -/
def resume (lang : Language κ μ) :
    Nat → Nat → Bool → Option Nat → Parser μ → Option (Option Nat × Parser μ)
  | 0, _, _, least, p => some (least, p)
  | fuel + 1, v, goesOn, least, p =>
    if p.stack.size ≤ v then some (least, p)
    else
      match p.stack.status v with
      | .paused lookahead =>
        if !goesOn && p.accepted < maxVersions then
          if lang.isForgiving then
            let least := p.stack.cost v
            let p := p.mapStack fun s => s.setStatus v .active
            resume lang fuel (v + 1) true (some least) (p.goAstray lang v lookahead)
          else none
        else resume lang fuel v goesOn least (p.mapStack fun s => s.remove v)
      | _ => resume lang fuel (v + 1) true least p

/-- Rounds until nothing better can come. -/
def run (lang : Language κ μ) : Nat → Parser μ → Nat → Option (Shape μ)
  | 0, p, _ => p.finished
  | fuel + 1, p, furthest =>
    let (p, furthest) := p.advanceAll lang (64 * (maxVersions + 1)) 0 furthest
    let (least, p) := order (16 * (p.stack.size + 1)) 0 none p
    let p := p.mapStack fun s => { s with versions := s.versions.take maxVersions }
    let finished := p.finished
    match p.resume lang (16 * (p.stack.size + 1)) 0 false least with
    | none => finished
    | some (least, p) =>
      let isDone := match p.finished, least with
        | some best, some n => decide (best.summary.cost < n)
        | some _, none => true
        | none, _ => false
      if isDone || p.stack.size == 0 then p.finished
      else run lang fuel p furthest

end Parser

/-- The shape of a text. Every round reads text or supplies a terminal, so the
bound on the number of rounds is not reached. -/
def shapeOf? {κ μ : Type} [DecidableEq μ] (lang : Language κ μ) (cs : List Char) :
    Option (Shape μ) :=
  (Parser.start lang cs).run lang (64 * (cs.length + 64)) 0

end ElementLens.Parsing
