/-
Debouncing.

Work is asked for under a key, often in bursts, and is done once per burst: a
task sleeps for a while and only goes on if nothing newer was asked for under
its key in the meantime. The work of one key is never done twice at the same
time: a task takes the lock of its key first, waits for it if need be, and
looks once more whether it is still the newest.

Tasks move in small steps, one at a time, and the steps of different tasks may
come in any order:

* **`schedule`** — a task begins to sleep; it is the newest of its key;
* **`step`** — what a task does next, up to where another task may come in
  between.

Locks are things of their own, told apart by number: a key whose lock was
dropped gets a new one when it needs one. Several steps of one task are put
together in `wake`, `enter` and `finish`.
-/

namespace ElementLens

namespace Debouncer

/-- Where a task stands. At first it sleeps. Once its time is up, and if it is
the newest of its key, it is due for the lock of its key. It waits for the
lock, and when it has the lock it is admitted and looks again. Then it is at
work, and done. What is kept for its key is settled in two parts, first the
newest generation, then the lock. It leaves, having done its work or not: it
gives the lock back, and holds on to it no longer when it ends. -/
inductive Phase where
  | sleeping
  | due
  | waiting (lock : Nat)
  | admitted (lock : Nat)
  | running (lock : Nat)
  | done (lock : Nat)
  | settled (lock : Nat)
  | leaving (lock : Nat) (ran : Bool)
  | released (lock : Nat) (ran : Bool)
deriving DecidableEq, Repr

/-- The lock that a task holds on to, whether it has it or not. -/
def Phase.lock? : Phase → Option Nat
  | .sleeping | .due => none
  | .waiting l | .admitted l | .running l | .done l | .settled l | .leaving l _
  | .released l _ => some l

/-- The lock that a task has. -/
def Phase.held? : Phase → Option Nat
  | .sleeping | .due | .waiting _ | .released _ _ => none
  | .admitted l | .running l | .done l | .settled l | .leaving l _ => some l

/-- A task that has not ended. Its generation tells it from all others. -/
structure Task (K : Type) where
  generation : Nat
  key : K
  phase : Phase
deriving DecidableEq, Repr

end Debouncer

/-- The number of tasks so far; the newest generation of each key that has
one; the locks of keys; the number of locks so far; the tasks, those that wait
for a lock in the order of their arrival. -/
structure Debouncer (K : Type) where
  generation : Nat
  newest : List (K × Nat)
  locks : List (K × Nat)
  nextLock : Nat
  tasks : List (Debouncer.Task K)
deriving Repr, DecidableEq

namespace Debouncer

variable {K : Type} [DecidableEq K]

/-- A debouncer without tasks. -/
def empty : Debouncer K := ⟨0, [], [], 0, []⟩

/-- The value under a key. -/
def lookup (table : List (K × Nat)) (k : K) : Option Nat :=
  (table.find? fun e => e.1 = k).map Prod.snd

/-- Removes a key. -/
def erase (table : List (K × Nat)) (k : K) : List (K × Nat) :=
  table.filter fun e => e.1 ≠ k

/-- Sets the value under a key. -/
def insert (table : List (K × Nat)) (k : K) (n : Nat) : List (K × Nat) :=
  (k, n) :: erase table k

/-- The task of a generation. -/
def task? (d : Debouncer K) (g : Nat) : Option (Task K) :=
  d.tasks.find? fun t => t.generation = g

/-- The tasks but one. -/
def others (d : Debouncer K) (g : Nat) : List (Task K) :=
  d.tasks.filter fun t => t.generation ≠ g

/-- Whether a task is the newest of its key. -/
def isNewest (d : Debouncer K) (t : Task K) : Bool :=
  lookup d.newest t.key == some t.generation

/-- Whether a task has a lock. -/
def isHeld (d : Debouncer K) (lock : Nat) : Bool :=
  d.tasks.any fun t => t.phase.held? == some lock

/-- The task that is first in line for a lock. -/
def first? (d : Debouncer K) (lock : Nat) : Option (Task K) :=
  d.tasks.find? fun t => t.phase == .waiting lock

/-- The number of tasks that hold on to a lock. -/
def holders (d : Debouncer K) (lock : Nat) : Nat :=
  (d.tasks.filter fun t => t.phase.lock? == some lock).length

/-! ### Steps -/

/-- Asks for work. -/
def schedule (d : Debouncer K) (k : K) : Debouncer K :=
  let g := d.generation + 1
  { d with
    generation := g
    newest := insert d.newest k g
    tasks := d.tasks ++ [⟨g, k, .sleeping⟩] }

/-- A task ends. -/
def drop (d : Debouncer K) (g : Nat) : Debouncer K :=
  { d with tasks := d.others g }

/-- A task comes to stand somewhere else. -/
def advance (d : Debouncer K) (g : Nat) (phase : Phase) : Debouncer K :=
  { d with tasks := d.tasks.map fun t => if t.generation = g then { t with phase } else t }

/-- A task joins the line for a lock. -/
def queue (d : Debouncer K) (t : Task K) (lock : Nat) : Debouncer K :=
  { d with tasks := d.others t.generation ++ [{ t with phase := .waiting lock }] }

/-- A task joins the line for the lock of its key, which is made if there is
none. -/
def join (d : Debouncer K) (t : Task K) : Debouncer K :=
  match lookup d.locks t.key with
  | some lock => d.queue t lock
  | none =>
    { d with
      locks := insert d.locks t.key d.nextLock
      nextLock := d.nextLock + 1 }.queue t d.nextLock

/-- Forgets the newest generation of a key, if it is the given one. -/
def forgetNewest (d : Debouncer K) (k : K) (g : Nat) : Debouncer K :=
  if lookup d.newest k = some g then { d with newest := erase d.newest k } else d

/-- Forgets the lock of a key, if only one task holds on to it. -/
def forgetLock (d : Debouncer K) (k : K) : Debouncer K :=
  match lookup d.locks k with
  | none => d
  | some lock => if d.holders lock = 1 then { d with locks := erase d.locks k } else d

/-- The next step of a task. A task that waits for a lock stays where it is
while another one has the lock. -/
def step (d : Debouncer K) (t : Task K) : Debouncer K :=
  match t.phase with
  | .sleeping => if d.isNewest t then d.advance t.generation .due else d.drop t.generation
  | .due => d.join t
  | .waiting lock => if d.isHeld lock then d else d.advance t.generation (.admitted lock)
  | .admitted lock =>
    d.advance t.generation (if d.isNewest t then .running lock else .leaving lock false)
  | .running lock => d.advance t.generation (.done lock)
  | .done lock => (d.forgetNewest t.key t.generation).advance t.generation (.settled lock)
  | .settled lock => (d.forgetLock t.key).advance t.generation (.leaving lock true)
  | .leaving lock ran => d.advance t.generation (.released lock ran)
  | .released _ _ => d.drop t.generation

/-- The next step of the task of a generation. -/
def move (d : Debouncer K) (g : Nat) : Debouncer K :=
  match d.task? g with
  | none => d
  | some t => d.step t

/-! ### Steps put together -/

/-- The time of a sleeping task is up: it ends, or joins the line for its
lock. -/
def wake (d : Debouncer K) (g : Nat) : Debouncer K :=
  match (d.task? g).map Task.phase with
  | some .sleeping => (d.move g).move g
  | _ => d

/-- A task that is first in line for a free lock takes it: its work begins, or
it ends. -/
def enter (d : Debouncer K) (g : Nat) : Debouncer K :=
  match d.task? g with
  | none => d
  | some t =>
    match t.phase with
    | .waiting lock =>
      if d.isHeld lock || d.first? lock ≠ some t then d
      else if d.isNewest t then (d.move g).move g
      else (((d.move g).move g).move g).move g
    | _ => d

/-- The work of a task is done. -/
def finish (d : Debouncer K) (g : Nat) : Debouncer K :=
  match (d.task? g).map Task.phase with
  | some (.running _) => ((((d.move g).move g).move g).move g).move g
  | _ => d

/-! ### Questions -/

/-- Whether a task is at work. -/
def isRunning (d : Debouncer K) (g : Nat) : Bool :=
  match (d.task? g).map Task.phase with
  | some (.running _) => true
  | _ => false

/-- A task that may take its lock. -/
def ready? (d : Debouncer K) : Option Nat :=
  (d.tasks.find? fun t =>
    match t.phase with
    | .waiting lock => !d.isHeld lock && d.first? lock == some t
    | _ => false).map Task.generation

end Debouncer

end ElementLens
