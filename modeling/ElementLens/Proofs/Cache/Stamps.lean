/-
The stamps of a cache.

Every key has one stamp and every stamp in use one key, so the two tables of a cache are
each other's inverse. A stamp is given once, to the key that is used, and is the clock's
number at that moment. So the key used last has the greatest stamp, whatever was forgotten
to make room for it, and a look-up finds the key that it has just brought in:

* **`Linked.keyAt?_eq_some_iff`** — keys and stamps;
* **`Operation.getLast?_order`** — the stamp of the key that an operation uses;
* **`getLast?_order_run`** — the last stamp after a run;
* **`run_stamped`** — all of it for the caches that operations lead to.
-/
import ElementLens.Proofs.Cache.Recency

namespace ElementLens

namespace RecencyCache

variable {K V : Type}

/-- The key under a stamp. -/
def keyAt? (c : RecencyCache K V) (s : Nat) : Option K :=
  (c.order.find? fun e => e.1 = s).map Prod.snd

variable [DecidableEq K]

/-- The stamp of a key. -/
def stamp? (c : RecencyCache K V) (k : K) : Option Nat := (c.slot? k).map Slot.stamp

namespace Linked

variable {c : RecencyCache K V} {k : K} {s : Nat}

/-! ### Keys and stamps -/

omit [DecidableEq K] in
theorem keyAt?_eq_some_iff (h : c.Linked) : c.keyAt? s = some k ↔ (s, k) ∈ c.order :=
  lookup_eq_some_iff_of_nodup h.nodup_stamps

theorem stamp?_eq_some_iff (h : c.Linked) : c.stamp? k = some s ↔ (s, k) ∈ c.order := by
  rw [stamp?, Option.map_eq_some_iff, h.link]
  constructor
  · rintro ⟨⟨v, _⟩, hslot, rfl⟩
    exact ⟨v, (slot?_eq_some_iff h.nodup).1 hslot⟩
  · rintro ⟨v, hmem⟩
    exact ⟨_, (slot?_eq_some_iff h.nodup).2 hmem, rfl⟩

theorem stamp?_le_clock (h : c.Linked) (hs : c.stamp? k = some s) : s ≤ c.clock :=
  h.le_clock _ (h.stamp?_eq_some_iff.1 hs)

omit [DecidableEq K] in
/-- No two slots have the same stamp. -/
theorem nodup_slot_stamps (h : c.Linked) : (c.entries.map fun e => e.2.stamp).Nodup := by
  refine h.nodup.of_map.map_on ?_
  rintro ⟨k, v, s⟩ hmem ⟨k', v', s'⟩ hmem' (rfl : s = s')
  have hsame := h.eq_of_stamp ((h.link s k).2 ⟨v, hmem⟩) ((h.link s k').2 ⟨v', hmem'⟩) rfl
  exact List.inj_on_of_nodup_map h.nodup hmem hmem' (congrArg Prod.snd hsame)

/-- The key under the last stamp has the clock's number, the others have earlier ones. -/
theorem stamp?_of_getLast? (h : c.Linked) (hlast : c.order.getLast? = some (c.clock, k)) :
    c.stamp? k = some c.clock ∧ ∀ j s, j ≠ k → c.stamp? j = some s → s < c.clock := by
  have hmem := List.mem_of_getLast? hlast
  refine ⟨h.stamp?_eq_some_iff.2 hmem, fun j s hj hs => ?_⟩
  refine Nat.lt_of_le_of_ne (h.stamp?_le_clock hs) ?_
  rintro rfl
  exact hj (congrArg Prod.snd (h.eq_of_stamp (h.stamp?_eq_some_iff.1 hs) hmem rfl))

/-! ### The stamp of the key in use -/

theorem getLast?_order_touch (h : c.Linked) (hk : k ∈ c.keys) :
    (c.touch k).order.getLast? = some (c.clock + 1, k) := by
  rw [h.order_touch hk, List.getLast?_concat]

theorem getLast?_order_add (c : RecencyCache K V) (k : K) (v : V) :
    (c.add k v).order.getLast? = some (c.clock + 1, k) := by
  unfold add
  split
  · rw [RecencyCache.push, List.getLast?_concat, clock_evictOldest]
  · exact List.getLast?_concat ..

theorem getLast?_order_use (h : c.Linked) (k : K) (default : V) :
    (c.use k default).order.getLast? = some (c.clock + 1, k) := by
  unfold use
  split
  · next hk => exact h.getLast?_order_touch (h.contains_iff.1 hk)
  · exact getLast?_order_add c k default

theorem getLast?_order_set (h : c.Linked) (k : K) (v : V) :
    (c.set k v).order.getLast? = some (c.clock + 1, k) := by
  unfold set
  split
  · next hk => exact (h.mapValue k fun _ => v).getLast?_order_touch (h.contains_iff.1 hk)
  · exact getLast?_order_add c k v

end Linked

/-- The key that an operation uses goes under the last stamp, the clock's number. -/
theorem Operation.getLast?_order {c : RecencyCache K V} (h : c.Linked) (default : V)
    {op : Operation K V} {k : K} (hk : op.key? = some k) :
    (op.apply default c).order.getLast? = some (c.clock + 1, k) := by
  cases op with
  | get j =>
    obtain rfl : j = k := Option.some.inj hk
    exact h.getLast?_order_use j default
  | modify j f =>
    obtain rfl : j = k := Option.some.inj hk
    exact h.getLast?_order_use j default
  | set j v =>
    obtain rfl : j = k := Option.some.inj hk
    exact h.getLast?_order_set j v
  | peek j | contains j | clear => exact absurd hk (by simp [key?])

/-! ### Runs -/

/-- The key used last since all keys were forgotten is under the last stamp, the clock's
number. -/
theorem getLast?_order_run (capacity : Nat) (default : V) (ops : List (Operation K V)) {k : K}
    (hk : (usesSinceClear ops).getLast? = some k) :
    (run capacity default ops).order.getLast?
      = some ((run capacity default ops).clock, k) := by
  induction ops using List.reverseRecOn with
  | nil => simp [usesSinceClear] at hk
  | append_singleton ops op ih =>
    have hlinked := linked_run capacity default ops
    rw [run_concat]
    rcases op.apply_cases hlinked default with
      ⟨j, hj, hclear, hputs⟩ | ⟨-, hclear, -⟩ | ⟨hj, hclear, heq⟩
    · rw [usesSinceClear_concat_of_key hj hclear, List.getLast?_concat] at hk
      rw [hputs.clock, Operation.getLast?_order hlinked default (hj.trans hk)]
    · rw [usesSinceClear_concat_of_clear hclear] at hk
      exact absurd hk (by simp)
    · rw [usesSinceClear_concat_of_none hj hclear] at hk
      rw [heq]
      exact ih hk

/-- **The stamps of a cache.** After any operations on an empty cache, of whatever capacity,
the two tables are each other's inverse: a stamp belongs to a key exactly if the key has this
stamp. No key has two slots, the stamps rise along the order, no two slots have the same one,
and none is later than the clock, which counts the uses. The tables are of one size, at most
one more than the capacity. The key used last since all keys were forgotten has the greatest
stamp, the clock's number. A look-up hands out what is there after the key was used, which is
never missing. -/
theorem run_stamped (capacity : Nat) (default : V) (ops : List (Operation K V)) :
    let c := run capacity default ops
    (∀ s k, c.keyAt? s = some k ↔ c.stamp? k = some s)
      ∧ (c.entries.map Prod.fst).Nodup
      ∧ c.order.Pairwise (fun e e' => e.1 < e'.1)
      ∧ (c.entries.map fun e => e.2.stamp).Nodup
      ∧ (∀ k s, c.stamp? k = some s → s ≤ c.clock)
      ∧ c.clock = (ops.filterMap Operation.key?).length
      ∧ c.size = c.order.length
      ∧ c.size ≤ capacity + 1
      ∧ (∀ k, (usesSinceClear ops).getLast? = some k →
        c.stamp? k = some c.clock ∧ ∀ j s, j ≠ k → c.stamp? j = some s → s < c.clock)
      ∧ ∀ k, ∃ v, (c.use k default).peek? k = some v
        ∧ (c.use k default).stamp? k = some (c.clock + 1)
        ∧ c.get k default = (v, c.use k default) := by
  intro c
  obtain ⟨hlinked, hcapacity, hclock, -⟩ := keys_run capacity default ops
  refine ⟨fun s k => hlinked.keyAt?_eq_some_iff.trans hlinked.stamp?_eq_some_iff.symm,
    hlinked.nodup, hlinked.rising, hlinked.nodup_slot_stamps, fun k s => hlinked.stamp?_le_clock,
    hclock, ?_, hcapacity ▸ hlinked.size_le, fun k hk => ?_, fun k => ?_⟩
  · rw [hlinked.size_eq, keys, List.length_map]
  · exact hlinked.stamp?_of_getLast? (getLast?_order_run capacity default ops hk)
  · have hputs := hlinked.puts_use k default
    have hlast := hlinked.getLast?_order_use k default
    refine ⟨_, hputs.value, ?_, ?_⟩
    · exact hputs.linked.stamp?_eq_some_iff.2 (List.mem_of_getLast? hlast)
    · rw [get, hputs.value, Option.getD_some]

/-- In a cache of capacity zero the key that is looked up takes the place of the other one,
and the clock goes on when all keys are forgotten. -/
theorem run_stamped_zero :
    let ops : List (Operation String Nat) :=
      [.set "a" 1, .get "b", .clear, .set "c" 2, .modify "a" (· + 1), .peek "c"]
    (usesSinceClear ops).getLast? = some "a"
      ∧ (run 0 0 ops).keys = ["a"]
      ∧ (run 0 0 ops).clock = 4
      ∧ (run 0 0 ops).stamp? "a" = some (run 0 0 ops).clock
      ∧ ∃ v, ((run 0 0 ops).use "b" 0).peek? "b" = some v
        ∧ ((run 0 0 ops).use "b" 0).stamp? "b" = some ((run 0 0 ops).clock + 1)
        ∧ (run 0 0 ops).get "b" 0 = (v, (run 0 0 ops).use "b" 0) := by
  intro ops
  have hlast : (usesSinceClear ops).getLast? = some "a" := by decide
  obtain ⟨-, -, -, -, -, -, -, -, hnewest, hget⟩ := run_stamped 0 0 ops
  exact ⟨hlast, by decide, by decide, (hnewest "a" hlast).1, hget "b"⟩

end RecencyCache

end ElementLens
