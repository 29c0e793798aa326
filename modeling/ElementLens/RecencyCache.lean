/-
A cache that forgets what was not used for longest.

Every use of a key gives it a new stamp, counted up by a clock. `order` lists
the stamps in use, smallest first, so the key to forget stands at its front.
Before a key is added to a cache that holds more than its capacity one key is
forgotten, so a cache of capacity `c` holds up to `c + 1` keys.

* **`RecencyCache.get`** — looks a key up and creates it if it is not there;
  either way the key is the one used last;
* **`RecencyCache.peek?`**, **`RecencyCache.contains`** — look without using.
-/

namespace ElementLens

/-- A value and the stamp of its last use. -/
structure Slot (V : Type) where
  value : V
  stamp : Nat
deriving Repr

/-- A cache from keys to values. -/
structure RecencyCache (K V : Type) where
  capacity : Nat
  entries : List (K × Slot V)
  order : List (Nat × K)
  clock : Nat
deriving Repr

namespace RecencyCache

variable {K V : Type} [DecidableEq K]

/-- An empty cache. -/
def empty (capacity : Nat) : RecencyCache K V := ⟨capacity, [], [], 0⟩

/-- The number of keys. -/
def size (c : RecencyCache K V) : Nat := c.entries.length

/-- Whether there is no key. -/
def isEmpty (c : RecencyCache K V) : Bool := c.entries.isEmpty

/-- The slot of a key. -/
def slot? (c : RecencyCache K V) (k : K) : Option (Slot V) :=
  (c.entries.find? fun e => e.1 = k).map Prod.snd

/-- Whether a key is there. -/
def contains (c : RecencyCache K V) (k : K) : Bool := (c.slot? k).isSome

/-- The value of a key. -/
def peek? (c : RecencyCache K V) (k : K) : Option V := (c.slot? k).map Slot.value

/-- The keys, the one not used for longest first. -/
def keys (c : RecencyCache K V) : List K := c.order.map Prod.snd

/-- Changes the slot of a key. -/
def mapSlot (c : RecencyCache K V) (k : K) (f : Slot V → Slot V) : RecencyCache K V :=
  { c with entries := c.entries.map fun e => if e.1 = k then (e.1, f e.2) else e }

/-- Moves the key under one stamp to the end, under a later stamp. -/
def restamp (order : List (Nat × K)) (previous stamp : Nat) : List (Nat × K) :=
  match order.find? fun e => e.1 = previous with
  | none => order
  | some e => (order.filter fun e => e.1 ≠ previous) ++ [(stamp, e.2)]

/-- Gives a key that is there a new stamp. -/
def touch (c : RecencyCache K V) (k : K) : RecencyCache K V :=
  let stamp := c.clock + 1
  match c.slot? k with
  | none => { c with clock := stamp }
  | some slot =>
    { c.mapSlot k fun s => { s with stamp } with
      order := restamp c.order slot.stamp stamp
      clock := stamp }

/-- Forgets the key not used for longest. -/
def evictOldest (c : RecencyCache K V) : RecencyCache K V :=
  match c.order with
  | [] => c
  | (_, k) :: order => { c with entries := c.entries.filter fun e => e.1 ≠ k, order }

/-- Adds a key under a new stamp. -/
def push (c : RecencyCache K V) (k : K) (v : V) : RecencyCache K V :=
  let stamp := c.clock + 1
  { c with
    entries := c.entries ++ [(k, ⟨v, stamp⟩)]
    order := c.order ++ [(stamp, k)]
    clock := stamp }

/-- Adds a key that is not there; one key is forgotten if there are too
many. -/
def add (c : RecencyCache K V) (k : K) (v : V) : RecencyCache K V :=
  (if c.capacity < c.size then c.evictOldest else c).push k v

/-- Sets the value of a key. -/
def set (c : RecencyCache K V) (k : K) (v : V) : RecencyCache K V :=
  if c.contains k then (c.mapSlot k fun s => { s with value := v }).touch k else c.add k v

/-- Uses a key; one that is not there is added with the given value. -/
def use (c : RecencyCache K V) (k : K) (default : V) : RecencyCache K V :=
  if c.contains k then c.touch k else c.add k default

/-- Changes the value of a key, which is added with the given value if it is
not there. -/
def modify (c : RecencyCache K V) (k : K) (default : V) (f : V → V) : RecencyCache K V :=
  (c.use k default).mapSlot k fun s => { s with value := f s.value }

/-- The value of a key, which is added with the given value if it is not
there. -/
def get (c : RecencyCache K V) (k : K) (default : V) : V × RecencyCache K V :=
  let c := c.use k default
  ((c.peek? k).getD default, c)

/-- Forgets all keys. The clock goes on. -/
def clear (c : RecencyCache K V) : RecencyCache K V := { c with entries := [], order := [] }

end RecencyCache

end ElementLens
