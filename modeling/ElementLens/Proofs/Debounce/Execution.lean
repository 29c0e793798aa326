/-
Executions of a debouncer.

Calls come at any time, and the tasks move in any order that the clock allows.
A task does not sleep longer than the delay, and no time passes while a task
could move, except that work may take any time. What happens is kept in a
history (`Event`), from which the newest call of a key (`lastCall?`) and the end
of its last work (`lastEnd`) can be read off:

* **`Clockwork.take`** — what one action does, if it can be taken;
* **`Clockwork.run`** — actions one after the other.
-/
import ElementLens.Debounce.Basic

namespace ElementLens.Debouncer

/-- What happens to a task: it is called for; its time is up, and it is the
newest of its key or not; its work begins, or is refused once it has the lock;
its work ends; it answers whether it did its work. -/
inductive Kind where
  | called
  | woke (newest : Bool)
  | started
  | refused
  | ended
  | answered (ran : Bool)
deriving DecidableEq, Repr

/-- Something that happened to a task at some time. -/
structure Event (K : Type) where
  time : Nat
  generation : Nat
  key : K
  kind : Kind
deriving DecidableEq, Repr

/-- What happened so far, the last thing first. -/
abbrev History (K : Type) := List (Event K)

namespace History

variable {K : Type}

/-- The last call for a key. -/
def lastCall? [DecidableEq K] (h : History K) (k : K) : Option (Event K) :=
  h.find? fun e => e.kind = .called ∧ e.key = k

/-- The time at which work of a key ended last, or the beginning of time. -/
def lastEnd [DecidableEq K] (h : History K) (k : K) : Nat :=
  ((h.find? fun e => e.kind = .ended ∧ e.key = k).map Event.time).getD 0

/-- The time at which a task of a generation wakes up. -/
def alarm (h : History K) (delay g : Nat) : Nat :=
  ((h.find? fun e => e.kind = .called ∧ e.generation = g).map (·.time + delay)).getD 0

/-- What happened to the task of a generation, the last thing first. -/
def story (h : History K) (g : Nat) : List Kind :=
  (h.filter fun e => e.generation = g).map Event.kind

end History

/-- A debouncer with a clock and the history of its tasks. -/
structure Clockwork (K : Type) where
  clock : Nat
  debouncer : Debouncer K
  history : History K
deriving DecidableEq, Repr

/-- What may come next: a call, a step of the task of a generation, or some time
that passes. -/
inductive Action (K : Type) where
  | call (k : K)
  | move (g : Nat)
  | pass (time : Nat)
deriving DecidableEq, Repr

namespace Clockwork

variable {K : Type} [DecidableEq K]

/-- Before the first call. -/
def start : Clockwork K := ⟨0, Debouncer.empty, []⟩

/-- Something that happens now. -/
def event (c : Clockwork K) (t : Task K) (kind : Kind) : Event K :=
  ⟨c.clock, t.generation, t.key, kind⟩

/-- A call. -/
def call (c : Clockwork K) (k : K) : Clockwork K :=
  let debouncer := c.debouncer.schedule k
  { c with debouncer, history := ⟨c.clock, debouncer.generation, k, .called⟩ :: c.history }

/-- What happens in the next step of a task. -/
def occurs (c : Clockwork K) (t : Task K) : List Kind :=
  match t.phase with
  | .sleeping => if c.debouncer.isNewest t then [.woke true] else [.answered false, .woke false]
  | .admitted _ => [if c.debouncer.isNewest t then .started else .refused]
  | .running _ => [.ended]
  | .released _ ran => [.answered ran]
  | .due | .waiting _ | .done _ | .settled _ | .leaving _ _ => []

/-- The next step of a task. -/
def move (c : Clockwork K) (t : Task K) : Clockwork K :=
  { c with
    debouncer := c.debouncer.step t
    history := (c.occurs t).map (c.event t) ++ c.history }

/-- Whether a task can move now. Work may end at any time. -/
def canMove (delay : Nat) (c : Clockwork K) (t : Task K) : Bool :=
  match t.phase with
  | .sleeping => c.history.alarm delay t.generation ≤ c.clock
  | .waiting lock => !c.debouncer.isHeld lock
  | _ => true

/-- Whether a task can stay where it is for some time. -/
def canRest (delay : Nat) (c : Clockwork K) (time : Nat) (t : Task K) : Bool :=
  match t.phase with
  | .sleeping => c.clock + time ≤ c.history.alarm delay t.generation
  | .waiting lock => c.debouncer.isHeld lock
  | .running _ => true
  | _ => false

/-- What an action does, if it can be taken. -/
def take (delay : Nat) (c : Clockwork K) : Action K → Option (Clockwork K)
  | .call k => some (c.call k)
  | .move g =>
    match c.debouncer.task? g with
    | none => none
    | some t => if c.canMove delay t then some (c.move t) else none
  | .pass time =>
    if c.debouncer.tasks.all (c.canRest delay time) then some { c with clock := c.clock + time }
    else none

/-- Actions one after the other. -/
def run (delay : Nat) (c : Clockwork K) : List (Action K) → Option (Clockwork K)
  | [] => some c
  | a :: actions => (c.take delay a).bind fun c => c.run delay actions

end Clockwork

end ElementLens.Debouncer
