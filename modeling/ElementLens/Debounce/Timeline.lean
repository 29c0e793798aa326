/-
Debouncing on a clock.

Requests are made at given times and their work takes given times. A request
sleeps for the delay; everything that can happen at a moment happens before
the clock moves on. At one moment requests are made first, then work ends,
then sleepers wake.

* **`timeline`** — when the work of each request began and ended, if it was
  done at all.
-/
import ElementLens.Debounce.Basic

namespace ElementLens.Debouncer

variable {K : Type} [DecidableEq K]

/-- The usual delay, in milliseconds. -/
def standardDelay : Nat := 150

/-- A request: when it is made, its key, and how long its work takes. -/
structure Request (K : Type) where
  time : Nat
  key : K
  duration : Nat
deriving Repr

/-- The clock, the debouncer, the times at which sleepers wake, the times at
which work ends, with when it began, and the work that is done. Times stand
with the generation they belong to. -/
structure Timeline (K : Type) where
  clock : Nat
  debouncer : Debouncer K
  alarms : List (Nat × Nat)
  ends : List (Nat × Nat × Nat)
  finished : List (Nat × Nat × Nat)

/-- The earliest of some times. -/
def earliest? (times : List Nat) : Option Nat :=
  times.foldl (fun best t => match best with
    | none => some t
    | some b => some (min b t)) none

namespace Timeline

/-- Before the first request. -/
def start : Timeline K := ⟨0, Debouncer.empty, [], [], []⟩

/-- Lets tasks take free locks, at most the given number of them. Work begins
now. -/
def settle (duration : Nat → Nat) : Nat → Timeline K → Timeline K
  | 0, l => l
  | fuel + 1, l =>
    match l.debouncer.ready? with
    | none => l
    | some g =>
      let debouncer := l.debouncer.enter g
      let ends := if debouncer.isRunning g
        then l.ends ++ [(l.clock + duration g, g, l.clock)] else l.ends
      settle duration fuel { l with debouncer, ends }

/-- A request is made. -/
def request (delay : Nat) (l : Timeline K) (r : Request K) : Timeline K :=
  let debouncer := l.debouncer.schedule r.key
  { l with
    clock := r.time
    debouncer
    alarms := l.alarms ++ [(r.time + delay, debouncer.generation)] }

/-- The next moment at which something happens by itself. -/
def next? (l : Timeline K) : Option Nat :=
  earliest? (l.alarms.map Prod.fst ++ l.ends.map Prod.fst)

/-- What happens by itself at the next moment: one piece of work ends, or one
sleeper wakes. -/
def tick (duration : Nat → Nat) (l : Timeline K) (time : Nat) : Timeline K :=
  let l := { l with clock := time }
  let fuel := l.debouncer.tasks.length
  match l.ends.find? fun e => e.1 = time with
  | some (stop, g, began) =>
    settle duration fuel { l with
      debouncer := l.debouncer.finish g
      ends := l.ends.filter fun e => e.2.1 ≠ g
      finished := (g, began, stop) :: l.finished }
  | none =>
    match l.alarms.find? fun a => a.1 = time with
    | none => l
    | some (_, g) =>
      settle duration fuel { l with
        debouncer := l.debouncer.wake g
        alarms := l.alarms.filter fun a => a.2 ≠ g }

/-- Lets everything happen that happens by itself before a time, or at all if
none is given. -/
def runUntil (duration : Nat → Nat) (limit : Option Nat) : Nat → Timeline K → Timeline K
  | 0, l => l
  | fuel + 1, l =>
    match l.next? with
    | none => l
    | some time =>
      if limit.any (· ≤ time) then l else runUntil duration limit fuel (l.tick duration time)

end Timeline

/-- When the work of each request began and ended. Requests are in the order
of time; the work of the request at index `i` belongs to generation `i + 1`. -/
def timeline (delay : Nat) (requests : List (Request K)) : List (Option (Nat × Nat)) :=
  let table := requests.toArray
  let duration := fun g => ((table[g - 1]?).map Request.duration).getD 0
  let fuel := 2 * requests.length
  let made := requests.foldl (fun l r =>
    (l.runUntil duration (some r.time) fuel).request delay r) Timeline.start
  let finished := (made.runUntil duration none fuel).finished
  (List.range requests.length).map fun i => finished.lookup (i + 1)

end ElementLens.Debouncer
