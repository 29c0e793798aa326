/-
Stacks that share their lower parts.

While a text has several readings, the parser follows them side by side. Each
reading is a *version* of the stack; versions that come to the same state at
the same place are merged again. So the stack is a graph: a *knot* is a state
at a place of the text, and its links lead to the knots below, each over the
shape that was read between the two. A version is the knot at its top.

A knot without a state is a place where the parser has lost its way.

* **`Stack.push`**, **`Stack.pop`** — the two directions; from one knot there
  may be several ways down;
* **`Stack.join`** — two versions that agree become one.
-/
import ElementLens.Parsing.Shape

namespace ElementLens.Parsing

/-- A way down from a knot. There is no shape where the parser lost its way. -/
structure Link (μ : Type) where
  below : Nat
  shape : Option (Shape μ)

/-- A state at a place of the text. `cost`, `weight` and `rank` sum up the
shapes below; of several ways down the one with the most counts. -/
structure Knot (μ : Type) where
  state : Option Nat
  links : List (Link μ)
  place : Extent
  cost : Nat
  weight : Nat
  rank : Int
deriving Inhabited

/-- The knot at the bottom. -/
def Knot.bottom (μ : Type) : Knot μ := ⟨some 0, [], .zero, 0, 0, 0⟩

/-- A state that lies below the place where the parser lost its way, and how
many shapes lie between. -/
structure Landmark where
  place : Extent
  depth : Nat
  state : Option Nat

/-- A version goes on, or waits with a terminal that does not fit, or is given
up. -/
inductive Status (μ : Type) where
  | active
  | paused (lookahead : Shape μ)
  | halted

/-- A version: its top knot, what the lexer remembers, the text that is left,
the weight when it last went wrong, and the landmarks below that place. -/
structure Version (μ : Type) where
  top : Nat
  status : Status μ
  memory : Option μ
  rest : List Char
  weightAtError : Nat
  landmarks : Option (List Landmark)

/-- The knots and the versions, the most promising one first. -/
structure Stack (μ : Type) where
  knots : Array (Knot μ)
  versions : Array (Version μ)

namespace Status

variable {μ : Type}

/-- Whether a version goes on. -/
def isActive : Status μ → Bool
  | active => true
  | _ => false

/-- Whether a version waits. -/
def isPaused : Status μ → Bool
  | paused _ => true
  | _ => false

/-- Whether a version is given up. -/
def isHalted : Status μ → Bool
  | halted => true
  | _ => false

end Status

namespace Stack

variable {μ : Type}

/-- The stack before a text. -/
def start (cs : List Char) : Stack μ :=
  ⟨#[Knot.bottom μ], #[⟨0, .active, none, cs, 0, none⟩]⟩

/-- The number of versions. -/
def size (s : Stack μ) : Nat := s.versions.size

/-- A knot. -/
def knot (s : Stack μ) (k : Nat) : Knot μ :=
  s.knots.getD k (Knot.bottom μ)

/-- The top knot of a version. -/
def top (s : Stack μ) (v : Nat) : Knot μ :=
  match s.versions[v]? with
  | none => Knot.bottom μ
  | some w => s.knot w.top

/-- The status of a version. -/
def status (s : Stack μ) (v : Nat) : Status μ :=
  match s.versions[v]? with
  | none => .halted
  | some w => w.status

/-- Changes a version. -/
def modify (s : Stack μ) (v : Nat) (f : Version μ → Version μ) : Stack μ :=
  { s with versions := s.versions.modify v f }

/-- Sets the status of a version. -/
def setStatus (s : Stack μ) (v : Nat) (status : Status μ) : Stack μ :=
  s.modify v fun w => { w with status }

/-- Takes a version out. -/
def remove (s : Stack μ) (v : Nat) : Stack μ :=
  { s with versions := s.versions.eraseIdxIfInBounds v }

/-- Exchanges two versions. -/
def swap (s : Stack μ) (v w : Nat) : Stack μ :=
  { s with versions := s.versions.swapIfInBounds v w }

/-- Puts a shape on top of a version, or the mark that it lost its way. -/
def push (s : Stack μ) (v : Nat) (shape : Option (Shape μ)) (state : Option Nat) : Stack μ :=
  match s.versions[v]? with
  | none => s
  | some w =>
    let below := s.knot w.top
    let knot : Knot μ := match shape with
      | none => { below with state, links := [⟨w.top, none⟩] }
      | some x =>
        { state
          links := [⟨w.top, some x⟩]
          place := below.place + x.extent
          cost := below.cost + x.summary.cost
          weight := below.weight + x.weight
          rank := below.rank + x.summary.rank }
    let n := s.knots.size
    { knots := s.knots.push knot
      versions := s.versions.modify v fun w => { w with
        top := n
        weightAtError := if shape.isNone then knot.weight else w.weightAtError } }

/-- Puts shapes on top of a version, all in one state. -/
def pushAll (s : Stack μ) (v : Nat) (state : Option Nat) (shapes : List (Shape μ)) : Stack μ :=
  shapes.foldl (fun s x => s.push v (some x) state) s

/-- A new version with a given top, which otherwise is like another one. -/
def fork (s : Stack μ) (v top : Nat) : Stack μ :=
  match s.versions[v]? with
  | none => s
  | some w =>
    { s with versions := s.versions.push { w with top, status := .active, landmarks := none } }

/-- Puts version `v` in the place of the earlier version `w`. Landmarks are
kept. -/
def replace (s : Stack μ) (v w : Nat) : Stack μ :=
  if v == w then s
  else
    match s.versions[v]?, s.versions[w]? with
    | some source, some target =>
      let landmarks := match source.landmarks with
        | some l => some l
        | none => target.landmarks
      (s.modify w fun _ => { source with landmarks }).remove v
    | _, _ => s

/-! ### Ways down -/

/-- Someone on the way down: the knot reached, the shapes passed, the lowest
one first, and how many of them are no extras. -/
structure Walker (μ : Type) where
  knot : Nat
  passed : List (Shape μ)
  count : Nat

/-- The walker after a link. -/
def Walker.follow (w : Walker μ) (l : Link μ) : Walker μ :=
  match l.shape with
  | none => ⟨l.below, w.passed, w.count + 1⟩
  | some x => ⟨l.below, x :: w.passed, if x.summary.extra then w.count else w.count + 1⟩

/-- The most walkers at one time. -/
def maxWalkers : Nat := 64

/-- The ways found so far: the knots where they end, and for each the shapes
passed on the ways there. -/
abbrev Ways (μ : Type) := List (Nat × List (List (Shape μ)))

/-- Adds a way. -/
def Ways.add (ways : Ways μ) (knot : Nat) (passed : List (Shape μ)) : Ways μ :=
  match ways with
  | [] => [(knot, [passed])]
  | (k, all) :: rest =>
    if k == knot then (k, all ++ [passed]) :: rest else (k, all) :: Ways.add rest knot passed

/-- One step of every walker. Those at their goal end there; where the ways
part, new walkers go the other ways. `stay` and `fresh` are in reverse; `left`
counts the walkers that have not moved yet. -/
def stepAll (s : Stack μ) (isGoal : Walker μ → Bool) (ways : Ways μ) (left : Nat)
    (stay fresh : List (Walker μ)) : List (Walker μ) → Ways μ × List (Walker μ)
  | [] => (ways, stay.reverse ++ fresh.reverse)
  | w :: ws =>
    if isGoal w then stepAll s isGoal (ways.add w.knot w.passed) (left - 1) stay fresh ws
    else
      match (s.knot w.knot).links with
      | [] => stepAll s isGoal ways (left - 1) stay fresh ws
      | l :: ls =>
        let room := maxWalkers - (left + stay.length + fresh.length)
        let others := (ls.take room).map w.follow
        stepAll s isGoal ways (left - 1) (w.follow l :: stay) (others.reverse ++ fresh) ws

/-- Steps until no walker is left. -/
def walk (s : Stack μ) (isGoal : Walker μ → Bool) :
    Nat → Ways μ → List (Walker μ) → Ways μ
  | 0, ways, _ => ways
  | _, ways, [] => ways
  | fuel + 1, ways, w :: ws =>
    let (ways, next) := stepAll s isGoal ways (ws.length + 1) [] [] (w :: ws)
    walk s isGoal fuel ways next

/-- All ways down from the top of a version to where `isGoal` holds. -/
def ways (s : Stack μ) (v : Nat) (isGoal : Walker μ → Bool) : Ways μ :=
  match s.versions[v]? with
  | none => []
  | some w => s.walk isGoal (s.knots.size + 1) [] [⟨w.top, [], 0⟩]

/-- All ways down over so many shapes. Extras on the way are not counted. -/
def pop (s : Stack μ) (v count : Nat) : Ways μ :=
  s.ways v fun w => w.count == count

/-- All ways down to the bottom. -/
def popAll (s : Stack μ) (v : Nat) : Ways μ :=
  s.ways v fun w => (s.knot w.knot).links.isEmpty

/-- How far down landmarks are looked for. -/
def maxDepth : Nat := 16

/-- Whether a landmark is already known. The last one found comes first. -/
def isKnown (depth : Nat) (state : Option Nat) : List Landmark → Bool
  | [] => false
  | l :: ls =>
    if l.depth < depth then false
    else (l.depth == depth && l.state == state) || isKnown depth state ls

/-- One step of every walker that looks for landmarks. -/
def surveyAll (s : Stack μ) (found : List Landmark) (left : Nat)
    (stay fresh : List (Walker μ)) : List (Walker μ) → List Landmark × List (Walker μ)
  | [] => (found, stay.reverse ++ fresh.reverse)
  | w :: ws =>
    if maxDepth < w.count then surveyAll s found (left - 1) stay fresh ws
    else
      let k := s.knot w.knot
      let found :=
        if isKnown w.count k.state found then found
        else ⟨k.place, w.count, k.state⟩ :: found
      match k.links with
      | [] => surveyAll s found (left - 1) stay fresh ws
      | l :: ls =>
        let room := maxWalkers - (left + stay.length + fresh.length)
        let others := (ls.take room).map w.follow
        surveyAll s found (left - 1) (w.follow l :: stay) (others.reverse ++ fresh) ws

/-- Steps until no walker is left. -/
def survey (s : Stack μ) : Nat → List Landmark → List (Walker μ) → List Landmark
  | 0, found, _ => found
  | _, found, [] => found
  | fuel + 1, found, w :: ws =>
    let (found, next) := surveyAll s found (ws.length + 1) [] [] (w :: ws)
    survey s fuel found next

/-- Looks for landmarks below a version. -/
def recordLandmarks (s : Stack μ) (v : Nat) : Stack μ :=
  match s.versions[v]? with
  | none => s
  | some w =>
    let found := s.survey (s.knots.size + 1) [] [⟨w.top, [], 0⟩]
    s.modify v fun w => { w with landmarks := some found.reverse }

/-- Takes text that fits nowhere off the top of a version, and gives its
parts. -/
def popError (s : Stack μ) (v : Nat) : List (Shape μ) × Stack μ :=
  let isError (l : Link μ) : Bool := match l.shape with
    | some x => x.isError
    | none => false
  match (s.top v).links.find? isError with
  | some ⟨below, some x⟩ => (x.parts, s.modify v fun w => { w with top := below })
  | _ => ([], s)

/-! ### Ways out of a mistake -/

/-- A new version like version `v`, with a terminal on top that the text
lacks. -/
def supply (s : Stack μ) (v : Nat) (terminal : Shape μ) (state : Nat) : Stack μ :=
  match s.versions[v]? with
  | none => s
  | some source =>
    let w := s.versions.size
    let s := { s with versions := s.versions.push { source with landmarks := none } }
    s.push w (some terminal) (some state)

/-- A new version that goes back from version `v` to a knot with a state: the
shapes on the way become an error there. -/
def goBack (s : Stack μ) (v base state : Nat) (shapes : List (Shape μ)) : Stack μ :=
  let w := s.versions.size
  let (earlier, s) := (s.fork v base).popError w
  let (parts, extras) := Shape.splitExtras (earlier ++ shapes)
  let s := if parts.isEmpty then s
    else s.push w (some ((Shape.group .error true parts).setExtra true)) (some state)
  s.pushAll w (some state) extras

/-- Takes the last thing that was skipped off the top of a version. -/
def popSkipped (s : Stack μ) (v : Nat) : Option (List (Shape μ)) × Stack μ :=
  match s.pop v 1 with
  | (base, before) :: _ =>
    (some (before.headD []), s.modify v fun w => { w with top := base, status := .active })
  | [] => (none, s)

/-- Puts something that is skipped on top of a version, together with what was
skipped right before (`joins`). -/
def skip (s : Stack μ) (v : Nat) (joins : Bool) (lookahead : Shape μ) : Stack μ :=
  let skipped := Shape.group .skipped false [lookahead]
  let (before, s) := if joins then s.popSkipped v else (none, s)
  let skipped := match before with
    | none => skipped
    | some shapes => Shape.group .skipped false (shapes ++ [skipped])
  let s := s.push v (some skipped) none
  s.modify v fun w => { w with
    rest := w.rest.drop lookahead.extent.chars
    memory := lookahead.summary.memory <|> w.memory }

/-! ### Merging -/

/-- The most ways down from one knot. -/
def maxLinks : Nat := 8

/-- What happens when a link is added to a knot: nothing, an equivalent link
is replaced, the links of the knot below are added to another knot, or the
link is new. -/
inductive Joining where
  | none
  | replace (at_ : Nat)
  | descend (into : Nat)
  | new

/-- How a link joins the links of a knot, from the `i`-th on. -/
def joining [DecidableEq μ] (s : Stack μ) (l : Link μ) (i : Nat) : List (Link μ) → Joining
  | [] => .new
  | e :: rest =>
    let equivalent := match e.shape, l.shape with
      | some x, some y => x.isEquivalent y
      | none, none => true
      | _, _ => false
    let rankOf (x : Link μ) : Int := match x.shape with
      | some y => y.summary.rank
      | none => 0
    if equivalent then
      if e.below == l.below then
        if rankOf e < rankOf l then .replace i else .none
      else
        let a := s.knot e.below
        let b := s.knot l.below
        if a.state == b.state && a.place.bytes == b.place.bytes && a.cost == b.cost then
          .descend e.below
        else joining s l (i + 1) rest
    else joining s l (i + 1) rest

/-- The weight and the rank at the upper end of a link. -/
def Link.totals (s : Stack μ) (l : Link μ) : Nat × Int :=
  let below := s.knot l.below
  match l.shape with
  | none => (below.weight, below.rank)
  | some x => (below.weight + x.weight, below.rank + x.summary.rank)

/-- Adds links to knots, merging the knots below where the links are
equivalent. -/
def addLinks [DecidableEq μ] : Nat → Stack μ → List (Nat × Link μ) → Stack μ
  | 0, s, _ => s
  | _, s, [] => s
  | fuel + 1, s, (k, l) :: rest =>
    if l.below == k then addLinks fuel s rest
    else
      let knot := s.knot k
      let (weight, rank) := Link.totals s l
      match joining s l 0 knot.links with
      | .none => addLinks fuel s rest
      | .replace i =>
        let s := { s with knots := s.knots.modify k fun x => { x with
          links := x.links.set i l, rank } }
        addLinks fuel s rest
      | .descend into =>
        let s := { s with knots := s.knots.modify k fun x => { x with rank := max x.rank rank } }
        addLinks fuel s ((s.knot l.below).links.map (into, ·) ++ rest)
      | .new =>
        if maxLinks ≤ knot.links.length then addLinks fuel s rest
        else
          let s := { s with knots := s.knots.modify k fun x => { x with
            links := x.links ++ [l], weight := max x.weight weight, rank := max x.rank rank } }
          addLinks fuel s rest

/-- Whether two versions can be merged. -/
def canMerge [DecidableEq μ] (s : Stack μ) (v w : Nat) : Bool :=
  match s.versions[v]?, s.versions[w]? with
  | some a, some b =>
    let x := s.knot a.top
    let y := s.knot b.top
    a.status.isActive && b.status.isActive && x.state == y.state
      && x.place.bytes == y.place.bytes && x.cost == y.cost && a.memory == b.memory
  | _, _ => false

/-- Adds the ways down from version `w` to those from version `v`, and takes
version `w` out. -/
def join [DecidableEq μ] (s : Stack μ) (v w : Nat) : Stack μ :=
  match s.versions[v]? with
  | none => s
  | some a =>
    let links := (s.top w).links
    let fuel := 64 * (s.knots.size + 1)
    let s := addLinks fuel s (links.map (a.top, ·))
    let top := s.knot a.top
    let s := if top.state.isNone then
        s.modify v fun a => { a with weightAtError := top.weight }
      else s
    s.remove w

/-- The first of some versions that version `w` can be merged into. -/
def partner? [DecidableEq μ] (s : Stack μ) (w : Nat) (versions : List Nat) : Option Nat :=
  versions.find? fun v => s.canMerge v w

/-! ### Costs -/

/-- The cost of a version. Having lost its way costs a recovery in advance. -/
def cost (s : Stack μ) (v : Nat) : Nat :=
  let top := s.top v
  let isLost := top.state.isNone && match top.links with
    | ⟨_, none⟩ :: _ => true
    | _ => false
  if (s.status v).isPaused || isLost then top.cost + prices.recovery else top.cost

/-- A version that fell back behind where it last went wrong starts to count
from where it is now. -/
def rebase (s : Stack μ) (v : Nat) : Stack μ :=
  match s.versions[v]? with
  | none => s
  | some w =>
    let weight := (s.knot w.top).weight
    if weight < w.weightAtError then
      s.modify v fun w => { w with weightAtError := weight }
    else s

/-- How much a version has found since it last went wrong. -/
def progress (s : Stack μ) (v : Nat) : Nat :=
  match s.versions[v]? with
  | none => 0
  | some w => (s.knot w.top).weight - w.weightAtError

/-- Whether text has been read since the last mistake, looking down from a
knot. -/
def readsText (s : Stack μ) (weightAtError : Nat) : Nat → Nat → Bool
  | 0, _ => false
  | fuel + 1, k =>
    let knot := s.knot k
    match knot.links with
    | ⟨below, some x⟩ :: _ =>
      if 0 < x.extent.bytes then true
      else if weightAtError < knot.weight && x.summary.cost == 0 then
        readsText s weightAtError fuel below
      else false
    | _ => false

/-- Whether a version has read text since it last went wrong. -/
def hasAdvanced (s : Stack μ) (v : Nat) : Bool :=
  match s.versions[v]? with
  | none => true
  | some w =>
    (s.knot w.top).cost == 0 || s.readsText w.weightAtError (s.knots.size + 1) w.top

end Stack

end ElementLens.Parsing
