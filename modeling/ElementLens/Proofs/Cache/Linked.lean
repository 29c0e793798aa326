/-
The two tables of a cache belong together.

A cache keeps the values in one table and the order of use in another, linked by
stamps. In a linked cache (`RecencyCache.Linked`) the two tables speak of the
same keys, and the stamps rise along the order. Whatever is done with a key of a
linked cache, it has the same effect on the keys (`RecencyCache.Puts`): the key
goes to the end, and as many of the last keys stay as fit.

* **`Linked.puts_use`**, **`Linked.puts_modify`**, **`Linked.puts_set`** — the
  three ways to use a key;
* **`Linked.keys_nodup`**, **`Linked.size_eq`**, **`Linked.contains_iff`** — the
  list of keys against the table of values.
-/
import ElementLens.Proofs.Table
import ElementLens.RecencyCache
import Mathlib.Data.List.DropRight
import Mathlib.Data.List.Perm.Basic

namespace ElementLens

namespace RecencyCache

variable {K V : Type}

/-- The two tables of a cache belong together: no key has two slots, the stamps
rise along the order up to the clock, a stamp stands for the key whose slot has
it, and there are no more keys than fit. -/
structure Linked (c : RecencyCache K V) : Prop where
  nodup : (c.entries.map Prod.fst).Nodup
  rising : c.order.Pairwise fun e e' => e.1 < e'.1
  le_clock : ∀ e ∈ c.order, e.1 ≤ c.clock
  link : ∀ s k, (s, k) ∈ c.order ↔ ∃ v, (k, ⟨v, s⟩) ∈ c.entries
  size_le : c.size ≤ c.capacity + 1

/-! ### The list of keys -/

namespace Linked

variable {c : RecencyCache K V} {k : K} {v : V}

theorem empty (capacity : Nat) : (RecencyCache.empty capacity : RecencyCache K V).Linked where
  nodup := List.nodup_nil
  rising := List.Pairwise.nil
  le_clock := by simp [RecencyCache.empty]
  link := by simp [RecencyCache.empty]
  size_le := Nat.zero_le _

theorem clear (c : RecencyCache K V) : c.clear.Linked where
  nodup := List.nodup_nil
  rising := List.Pairwise.nil
  le_clock := by simp [RecencyCache.clear]
  link := by simp [RecencyCache.clear]
  size_le := Nat.zero_le _

theorem mem_keys_iff (h : c.Linked) : k ∈ c.keys ↔ ∃ slot, (k, slot) ∈ c.entries := by
  rw [keys, List.mem_map]
  constructor
  · rintro ⟨⟨s, _⟩, he, rfl⟩
    obtain ⟨v, hv⟩ := (h.link s _).1 he
    exact ⟨_, hv⟩
  · rintro ⟨⟨v, s⟩, hslot⟩
    exact ⟨_, (h.link s k).2 ⟨v, hslot⟩, rfl⟩

theorem nodup_stamps (h : c.Linked) : (c.order.map Prod.fst).Nodup :=
  List.pairwise_map.2 (h.rising.imp fun hlt => Nat.ne_of_lt hlt)

theorem eq_of_stamp (h : c.Linked) {e e' : Nat × K} (he : e ∈ c.order) (he' : e' ∈ c.order)
    (hs : e.1 = e'.1) : e = e' :=
  List.inj_on_of_nodup_map h.nodup_stamps he he' hs

theorem eq_of_key (h : c.Linked) {e e' : Nat × K} (he : e ∈ c.order) (he' : e' ∈ c.order)
    (hk : e.2 = e'.2) : e = e' := by
  obtain ⟨v, hv⟩ := (h.link e.1 e.2).1 he
  obtain ⟨v', hv'⟩ := (h.link e'.1 e'.2).1 he'
  have := List.inj_on_of_nodup_map h.nodup hv hv' hk
  exact h.eq_of_stamp he he' (congrArg (·.2.stamp) this)

theorem keys_nodup (h : c.Linked) : c.keys.Nodup := by
  refine List.pairwise_map.2 (h.rising.imp_of_mem fun {e e'} he he' hlt hk => ?_)
  rw [h.eq_of_key he he' hk] at hlt
  exact Nat.lt_irrefl _ hlt

theorem size_eq (h : c.Linked) : c.size = c.keys.length := by
  classical
  have hperm : (c.entries.map Prod.fst).Perm c.keys := by
    rw [List.perm_ext_iff_of_nodup h.nodup h.keys_nodup]
    intro k
    simp [h.mem_keys_iff]
  rw [size, ← hperm.length_eq, List.length_map]

theorem length_keys_le (h : c.Linked) : c.keys.length ≤ c.capacity + 1 :=
  h.size_eq ▸ h.size_le

end Linked

/-! ### Slots -/

variable [DecidableEq K]

/-- Changes the value of a key. -/
def mapValue (c : RecencyCache K V) (k : K) (f : V → V) : RecencyCache K V :=
  c.mapSlot k fun s => { s with value := f s.value }

section Slots

variable {c : RecencyCache K V} {k : K}

theorem slot?_eq_some_iff (h : (c.entries.map Prod.fst).Nodup) {slot : Slot V} :
    c.slot? k = some slot ↔ (k, slot) ∈ c.entries :=
  lookup_eq_some_iff_of_nodup h

theorem slot?_eq_none_iff : c.slot? k = none ↔ ∀ slot, (k, slot) ∉ c.entries := by
  rw [slot?, Option.map_eq_none_iff, List.find?_eq_none]
  constructor
  · intro h slot hmem
    simpa using h _ hmem
  · rintro h ⟨k', slot⟩ hmem hk
    obtain rfl : k' = k := by simpa using hk
    exact h slot hmem

theorem peek?_eq_some_iff (h : (c.entries.map Prod.fst).Nodup) {v : V} :
    c.peek? k = some v ↔ ∃ s, (k, ⟨v, s⟩) ∈ c.entries := by
  rw [peek?, Option.map_eq_some_iff]
  constructor
  · rintro ⟨⟨_, s⟩, hslot, rfl⟩
    exact ⟨s, (slot?_eq_some_iff h).1 hslot⟩
  · rintro ⟨s, hmem⟩
    exact ⟨_, (slot?_eq_some_iff h).2 hmem, rfl⟩

/-- Two caches in which a key has the same values show the same value. -/
theorem peek?_congr {c' : RecencyCache K V} (h : (c.entries.map Prod.fst).Nodup)
    (h' : (c'.entries.map Prod.fst).Nodup)
    (hsame : ∀ v, (∃ s, (k, ⟨v, s⟩) ∈ c'.entries) ↔ ∃ s, (k, ⟨v, s⟩) ∈ c.entries) :
    c'.peek? k = c.peek? k := by
  ext v
  rw [peek?_eq_some_iff h', peek?_eq_some_iff h, hsame]

theorem mem_mapSlot {f : Slot V → Slot V} {j : K} {slot : Slot V} :
    (j, slot) ∈ (c.mapSlot k f).entries
      ↔ if j = k then ∃ s, (k, s) ∈ c.entries ∧ slot = f s else (j, slot) ∈ c.entries := by
  simp only [mapSlot, List.mem_map, Prod.exists]
  by_cases hj : j = k
  · subst hj
    grind
  · grind

@[simp] theorem map_fst_mapSlot (f : Slot V → Slot V) :
    (c.mapSlot k f).entries.map Prod.fst = c.entries.map Prod.fst := by
  rw [mapSlot, List.map_map]
  refine List.map_congr_left fun e _ => ?_
  by_cases he : e.1 = k <;> simp [he]

@[simp] theorem size_mapSlot (f : Slot V → Slot V) : (c.mapSlot k f).size = c.size := by
  simp [mapSlot, size]

theorem slot?_mapSlot (f : Slot V → Slot V) (j : K) :
    (c.mapSlot k f).slot? j = if j = k then (c.slot? k).map f else c.slot? j := by
  rw [slot?, mapSlot, find?_map_ite Prod.fst (f := fun e => (e.1, f e.2)) fun _ => rfl]
  split
  · next hj =>
    subst hj
    rw [slot?, Option.map_map, Option.map_map]
    rfl
  · rfl

theorem peek?_mapValue_self {f : V → V} {v : V} (hv : c.peek? k = some v) :
    (c.mapValue k f).peek? k = some (f v) := by
  obtain ⟨slot, hslot, rfl⟩ := Option.map_eq_some_iff.1 hv
  rw [peek?, mapValue, slot?_mapSlot, if_pos rfl, hslot]
  rfl

theorem peek?_mapValue_ne {f : V → V} {j : K} (hj : j ≠ k) :
    (c.mapValue k f).peek? j = c.peek? j := by
  rw [peek?, mapValue, slot?_mapSlot, if_neg hj, peek?]

theorem peek?_touch_self (k : K) : (c.touch k).peek? k = c.peek? k := by
  unfold peek? touch
  cases hslot : c.slot? k with
  | none => exact congrArg _ hslot
  | some slot =>
    have hnew := slot?_mapSlot (c := c) (k := k) (fun s => { s with stamp := c.clock + 1 }) k
    rw [if_pos rfl, hslot] at hnew
    show ((c.mapSlot k fun s => { s with stamp := c.clock + 1 }).slot? k).map Slot.value = _
    rw [hnew]
    rfl

theorem peek?_add_self (hk : c.slot? k = none) (v : V) : (c.add k v).peek? k = some v := by
  have hevicted : c.evictOldest.slot? k = none := by
    rw [slot?_eq_none_iff] at hk ⊢
    unfold evictOldest
    split
    · exact hk
    · exact fun slot hmem => hk slot (List.mem_of_mem_filter hmem)
  have hpush (c : RecencyCache K V) (hk : c.slot? k = none) : (c.push k v).peek? k = some v := by
    rw [slot?, Option.map_eq_none_iff] at hk
    rw [peek?, slot?, push, List.find?_append, hk]
    simp
  unfold add
  split
  · exact hpush _ hevicted
  · exact hpush _ hk

/-- A key that is used has its value, or the given one if it was not there. -/
theorem peek?_use_self (k : K) (default : V) :
    (c.use k default).peek? k = some ((c.peek? k).getD default) := by
  unfold use contains
  cases hslot : c.slot? k with
  | none =>
    rw [if_neg (by simp), peek?_add_self hslot, peek?, hslot]
    rfl
  | some slot =>
    rw [if_pos (by simp), peek?_touch_self, peek?, hslot]
    rfl

/-- What a look-up hands out is what is there. -/
theorem get_fst (c : RecencyCache K V) (k : K) (default : V) :
    (c.get k default).1 = (c.peek? k).getD default := by
  rw [get, peek?_use_self, Option.getD_some]

end Slots

namespace Linked

variable {c : RecencyCache K V} {k : K}

theorem contains_iff (h : c.Linked) : c.contains k = true ↔ k ∈ c.keys := by
  rw [contains, Option.isSome_iff_exists, h.mem_keys_iff]
  exact exists_congr fun _ => slot?_eq_some_iff h.nodup

theorem contains_eq_false_iff (h : c.Linked) : c.contains k = false ↔ k ∉ c.keys := by
  rw [← h.contains_iff, Bool.not_eq_true]

theorem peek?_eq_none (h : c.Linked) (hk : k ∉ c.keys) : c.peek? k = none := by
  rw [peek?, slot?_eq_none_iff.2, Option.map_none]
  intro slot hmem
  exact hk (h.mem_keys_iff.2 ⟨slot, hmem⟩)

theorem exists_peek? (h : c.Linked) (hk : k ∈ c.keys) : ∃ v, c.peek? k = some v := by
  obtain ⟨⟨v, s⟩, hmem⟩ := h.mem_keys_iff.1 hk
  exact ⟨v, (peek?_eq_some_iff h.nodup).2 ⟨s, hmem⟩⟩

end Linked

/-! ### Using a key -/

/-- The keys after a key was used: it goes to the end, and as many of the last
keys stay as there is room for. -/
def keysAfter (room : Nat) (keys : List K) (k : K) : List K :=
  (keys.filter (· ≠ k) ++ [k]).rtake room

theorem keysAfter_succ (room : Nat) (keys : List K) (k : K) :
    keysAfter (room + 1) keys k = (keys.filter (· ≠ k)).rtake room ++ [k] :=
  List.rtake_concat_succ ..

theorem keysAfter_of_notMem {room : Nat} {keys : List K} {k : K} (hk : k ∉ keys) :
    keysAfter (room + 1) keys k = keys.rtake room ++ [k] := by
  rw [keysAfter_succ, List.filter_eq_self.2]
  intro j hj
  simpa using fun heq : j = k => hk (heq ▸ hj)

/-- A key was used and has a value now; the other keys that are still there have
the values they had. -/
structure Puts (c : RecencyCache K V) (k : K) (v : V) (c' : RecencyCache K V) : Prop where
  linked : c'.Linked
  capacity : c'.capacity = c.capacity
  clock : c'.clock = c.clock + 1
  keys : c'.keys = keysAfter (c.capacity + 1) c.keys k
  value : c'.peek? k = some v
  others : ∀ j ∈ c'.keys, j ≠ k → c'.peek? j = c.peek? j

namespace Linked

variable {c : RecencyCache K V} {k : K} {v : V}

theorem mapValue (h : c.Linked) (k : K) (f : V → V) : (c.mapValue k f).Linked where
  nodup := by
    rw [RecencyCache.mapValue, map_fst_mapSlot]
    exact h.nodup
  rising := h.rising
  le_clock := h.le_clock
  link s j := by
    rw [show (c.mapValue k f).order = c.order from rfl, h.link, RecencyCache.mapValue]
    simp only [mem_mapSlot]
    by_cases hj : j = k
    · subst hj
      simp only [if_true]
      constructor
      · rintro ⟨v, hv⟩
        exact ⟨f v, _, hv, rfl⟩
      · rintro ⟨_, ⟨v, s'⟩, hmem, heq⟩
        obtain ⟨-, rfl⟩ := Slot.mk.inj heq
        exact ⟨v, hmem⟩
    · simp [hj]
  size_le := by
    rw [RecencyCache.mapValue, size_mapSlot]
    exact h.size_le

theorem capacity_touch : (c.touch k).capacity = c.capacity := by
  unfold RecencyCache.touch
  split <;> rfl

theorem clock_touch : (c.touch k).clock = c.clock + 1 := by
  unfold RecencyCache.touch
  split <;> rfl

theorem order_touch (h : c.Linked) (hk : k ∈ c.keys) :
    (c.touch k).order = (c.order.filter fun e => e.2 ≠ k) ++ [(c.clock + 1, k)] := by
  obtain ⟨⟨v, s⟩, hmem⟩ := h.mem_keys_iff.1 hk
  have horder : (s, k) ∈ c.order := (h.link s k).2 ⟨v, hmem⟩
  -- the only pair under the old stamp is the one of the key
  have hiff : ∀ e ∈ c.order, e.1 = s ↔ e.2 = k := by
    intro e he
    constructor
    · intro hs
      rw [h.eq_of_stamp he horder hs]
    · intro hk
      rw [h.eq_of_key he horder hk]
  have hfind : c.order.find? (fun e => e.1 = s) = some (s, k) :=
    (find?_eq_some_iff_of_nodup h.nodup_stamps).2 ⟨horder, rfl⟩
  rw [RecencyCache.touch, (slot?_eq_some_iff h.nodup).2 hmem]
  simp only [restamp, hfind]
  refine congrArg (· ++ _) (List.filter_congr fun e he => ?_)
  simp [hiff e he]

theorem entries_touch (h : c.Linked) (hk : k ∈ c.keys) :
    (c.touch k).entries = (c.mapSlot k fun s => { s with stamp := c.clock + 1 }).entries := by
  obtain ⟨slot, hmem⟩ := h.mem_keys_iff.1 hk
  rw [RecencyCache.touch, (slot?_eq_some_iff h.nodup).2 hmem]

theorem touch (h : c.Linked) (hk : k ∈ c.keys) : (c.touch k).Linked where
  nodup := by
    rw [h.entries_touch hk, map_fst_mapSlot]
    exact h.nodup
  rising := by
    rw [h.order_touch hk, List.pairwise_append]
    refine ⟨h.rising.filter _, List.pairwise_singleton _ _, ?_⟩
    -- no stamp in use is later than the clock, so the new one is the last
    intro e he e' he'
    have := h.le_clock e (List.mem_of_mem_filter he)
    rw [List.mem_singleton.1 he']
    exact Nat.lt_succ_of_le this
  le_clock := by
    rw [h.order_touch hk, clock_touch]
    intro e he
    rcases List.mem_append.1 he with he | he
    · exact Nat.le_succ_of_le (h.le_clock e (List.mem_of_mem_filter he))
    · rw [List.mem_singleton.1 he]
  link s j := by
    rw [h.order_touch hk, h.entries_touch hk]
    simp only [mem_mapSlot, List.mem_append, List.mem_filter, List.mem_singleton, Prod.mk.injEq,
      h.link]
    -- the key has its new stamp only, the others have theirs
    by_cases hj : j = k
    · subst hj
      obtain ⟨⟨v, s'⟩, hmem⟩ := h.mem_keys_iff.1 hk
      simp only [if_true]
      constructor
      · rintro (⟨-, hne⟩ | ⟨rfl, -⟩)
        · simp at hne
        · exact ⟨v, _, hmem, rfl⟩
      · rintro ⟨_, _, -, heq⟩
        exact .inr ⟨(Slot.mk.inj heq).2, trivial⟩
    · simp [hj]
  size_le := by
    rw [size, h.entries_touch hk, ← size, size_mapSlot, capacity_touch]
    exact h.size_le

theorem peek?_touch (h : c.Linked) (hk : k ∈ c.keys) (j : K) : (c.touch k).peek? j = c.peek? j := by
  refine peek?_congr h.nodup (h.touch hk).nodup fun v => ?_
  rw [h.entries_touch hk]
  simp only [mem_mapSlot]
  by_cases hj : j = k
  · subst hj
    simp only [if_true]
    constructor
    · rintro ⟨_, slot, hmem, heq⟩
      obtain ⟨rfl, -⟩ := Slot.mk.inj heq
      exact ⟨slot.stamp, hmem⟩
    · rintro ⟨s, hmem⟩
      exact ⟨_, _, hmem, rfl⟩
  · simp [hj]

theorem keys_touch (h : c.Linked) (hk : k ∈ c.keys) :
    (c.touch k).keys = keysAfter (c.capacity + 1) c.keys k := by
  have hkeys : (c.touch k).keys = c.keys.filter (· ≠ k) ++ [k] := by
    rw [keys, h.order_touch hk, List.map_append, keys, List.filter_map]
    rfl
  have hshort : (c.keys.filter (· ≠ k)).length < c.keys.length :=
    List.length_filter_lt_length_iff_exists.2 ⟨k, hk, by simp⟩
  have hle := h.length_keys_le
  rw [hkeys, keysAfter_succ, List.rtake, Nat.sub_eq_zero_of_le (by omega), List.drop_zero]

theorem puts_touch (h : c.Linked) (hv : c.peek? k = some v) : Puts c k v (c.touch k) := by
  have hk : k ∈ c.keys := by
    by_contra hk
    rw [h.peek?_eq_none hk] at hv
    exact Option.some_ne_none v hv.symm
  exact {
    linked := h.touch hk
    capacity := capacity_touch
    clock := clock_touch
    keys := h.keys_touch hk
    value := by rw [h.peek?_touch hk, hv]
    others := fun j _ _ => h.peek?_touch hk j }

/-! ### Adding a key -/

theorem evictOldest (h : c.Linked) : c.evictOldest.Linked := by
  unfold RecencyCache.evictOldest
  split
  · exact h
  · next s₀ k₀ order horder =>
    have hhead : (s₀, k₀) ∈ c.order := horder ▸ List.mem_cons_self
    have hrising : ∀ e ∈ order, s₀ < e.1 := (List.pairwise_cons.1 (horder ▸ h.rising)).1
    -- the oldest key stands nowhere else
    have hrest : ∀ e ∈ order, e.2 ≠ k₀ := by
      intro e he hk
      have heq := h.eq_of_key (horder ▸ List.mem_cons_of_mem _ he) hhead hk
      have hlt := hrising e he
      rw [heq] at hlt
      exact Nat.lt_irrefl _ hlt
    exact {
      nodup := h.nodup.sublist (List.filter_sublist.map Prod.fst)
      rising := (List.pairwise_cons.1 (horder ▸ h.rising)).2
      le_clock := fun e he => h.le_clock e (horder ▸ List.mem_cons_of_mem _ he)
      link := fun s k => by
        have hlink := h.link s k
        rw [horder, List.mem_cons] at hlink
        simp only [List.mem_filter, decide_not, Bool.not_eq_eq_eq_not, Bool.not_true,
          decide_eq_false_iff_not, exists_and_right, ← hlink]
        constructor
        · intro he
          exact ⟨.inr he, hrest _ he⟩
        · rintro ⟨heq | he, hne⟩
          · exact absurd (congrArg Prod.snd heq) hne
          · exact he
      size_le := (List.length_filter_le _ _).trans h.size_le }

theorem capacity_evictOldest : c.evictOldest.capacity = c.capacity := by
  unfold RecencyCache.evictOldest
  split <;> rfl

theorem clock_evictOldest : c.evictOldest.clock = c.clock := by
  unfold RecencyCache.evictOldest
  split <;> rfl

theorem keys_evictOldest (c : RecencyCache K V) : c.evictOldest.keys = c.keys.tail := by
  unfold RecencyCache.evictOldest keys
  split
  · next horder => rw [horder]; rfl
  · next horder => rw [horder]; rfl

theorem peek?_evictOldest (h : c.Linked) {j : K} (hj : j ∈ c.evictOldest.keys) :
    c.evictOldest.peek? j = c.peek? j := by
  refine peek?_congr h.nodup h.evictOldest.nodup fun v => ?_
  obtain ⟨slot, hmem⟩ := h.evictOldest.mem_keys_iff.1 hj
  have hsub : c.evictOldest.entries ⊆ c.entries := by
    unfold RecencyCache.evictOldest
    split
    · exact List.Subset.refl _
    · exact List.filter_subset_self _
  constructor
  · rintro ⟨s, hs⟩
    exact ⟨s, hsub hs⟩
  · rintro ⟨s, hs⟩
    have heq := List.inj_on_of_nodup_map h.nodup hs (hsub hmem) rfl
    rw [← (Prod.mk.inj heq).2] at hmem
    exact ⟨s, hmem⟩

theorem size_evictOldest (h : c.Linked) (hfull : c.capacity < c.size) :
    c.evictOldest.size = c.capacity := by
  have := h.size_le
  rw [h.evictOldest.size_eq, keys_evictOldest, List.length_tail, ← h.size_eq]
  omega

omit [DecidableEq K] in
theorem push (h : c.Linked) (hk : k ∉ c.keys) (hroom : c.size ≤ c.capacity) :
    (c.push k v).Linked where
  nodup := by
    rw [RecencyCache.push, List.map_append, List.nodup_append]
    refine ⟨h.nodup, List.nodup_singleton _, ?_⟩
    rintro a ha b hb rfl
    obtain ⟨⟨a, slot⟩, hmem, rfl⟩ := List.mem_map.1 ha
    obtain rfl : a = k := List.mem_singleton.1 hb
    exact hk (h.mem_keys_iff.2 ⟨slot, hmem⟩)
  rising := by
    refine List.pairwise_append.2 ⟨h.rising, List.pairwise_singleton _ _, ?_⟩
    intro e he e' he'
    rw [List.mem_singleton.1 he']
    exact Nat.lt_succ_of_le (h.le_clock e he)
  le_clock := by
    intro e he
    rcases List.mem_append.1 he with he | he
    · exact Nat.le_succ_of_le (h.le_clock e he)
    · rw [List.mem_singleton.1 he]
      exact Nat.le_refl _
  link s j := by
    simp only [RecencyCache.push, List.mem_append, List.mem_singleton, Prod.mk.injEq, Slot.mk.injEq,
      h.link, exists_or]
    refine or_congr Iff.rfl ?_
    constructor
    · rintro ⟨rfl, rfl⟩
      exact ⟨v, rfl, rfl, rfl⟩
    · rintro ⟨_, rfl, -, rfl⟩
      exact ⟨rfl, rfl⟩
  size_le := by
    rw [size, RecencyCache.push, List.length_append, List.length_singleton]
    exact Nat.succ_le_succ hroom

theorem peek?_push_self (h : c.Linked) (hk : k ∉ c.keys) (hroom : c.size ≤ c.capacity) :
    (c.push k v).peek? k = some v :=
  (peek?_eq_some_iff (h.push hk hroom).nodup).2
    ⟨c.clock + 1, List.mem_append_right _ (List.mem_singleton_self _)⟩

theorem peek?_push_ne (h : c.Linked) (hk : k ∉ c.keys) (hroom : c.size ≤ c.capacity) {j : K}
    (hj : j ≠ k) : (c.push k v).peek? j = c.peek? j := by
  refine peek?_congr h.nodup (h.push hk hroom).nodup fun v' => ?_
  simp [RecencyCache.push, hj]

omit [DecidableEq K] in
theorem keys_push (c : RecencyCache K V) (k : K) (v : V) : (c.push k v).keys = c.keys ++ [k] := by
  rw [RecencyCache.push, keys, List.map_append]
  rfl

theorem puts_add (h : c.Linked) (hk : k ∉ c.keys) (v : V) : Puts c k v (c.add k v) := by
  by_cases hfull : c.capacity < c.size
  · -- the oldest key has to go first
    have hroom : c.evictOldest.size ≤ c.evictOldest.capacity := by
      rw [h.size_evictOldest hfull, capacity_evictOldest]
    have hk' : k ∉ c.evictOldest.keys := by
      rw [keys_evictOldest]
      exact fun hmem => hk (List.mem_of_mem_tail hmem)
    rw [add, if_pos hfull]
    exact {
      linked := h.evictOldest.push hk' hroom
      capacity := capacity_evictOldest
      clock := congrArg (· + 1) clock_evictOldest
      keys := by
        -- there was one key too many for a further one, and the first one is gone
        have hone : c.keys.length - c.capacity = 1 := by
          have := h.size_le
          rw [← h.size_eq]
          omega
        rw [keys_push, keys_evictOldest, keysAfter_of_notMem hk, List.rtake, hone, List.drop_one]
      value := h.evictOldest.peek?_push_self hk' hroom
      others := fun j hj hne => by
        rw [keys_push, List.mem_append, List.mem_singleton] at hj
        rw [h.evictOldest.peek?_push_ne hk' hroom hne,
          h.peek?_evictOldest (hj.resolve_right hne)] }
  · have hroom : c.size ≤ c.capacity := Nat.le_of_not_lt hfull
    rw [add, if_neg hfull]
    exact {
      linked := h.push hk hroom
      capacity := rfl
      clock := rfl
      keys := by
        rw [keys_push, keysAfter_of_notMem hk, List.rtake, ← h.size_eq,
          Nat.sub_eq_zero_of_le hroom, List.drop_zero]
      value := h.peek?_push_self hk hroom
      others := fun j _ hne => h.peek?_push_ne hk hroom hne }

/-! ### The ways to use a key -/

theorem puts_use (h : c.Linked) (k : K) (default : V) :
    Puts c k ((c.peek? k).getD default) (c.use k default) := by
  by_cases hk : k ∈ c.keys
  · obtain ⟨v, hv⟩ := h.exists_peek? hk
    rw [use, if_pos (h.contains_iff.2 hk), hv]
    exact h.puts_touch hv
  · rw [use, h.contains_eq_false_iff.2 hk, h.peek?_eq_none hk]
    exact h.puts_add hk default

theorem puts_set (h : c.Linked) (k : K) (v : V) : Puts c k v (c.set k v) := by
  by_cases hk : k ∈ c.keys
  · obtain ⟨v', hv'⟩ := h.exists_peek? hk
    have hput := (h.mapValue k fun _ => v).puts_touch (peek?_mapValue_self hv')
    rw [set, if_pos (h.contains_iff.2 hk)]
    exact { hput with
      others := fun j hj hne => (hput.others j hj hne).trans (peek?_mapValue_ne hne) }
  · rw [set, h.contains_eq_false_iff.2 hk]
    exact h.puts_add hk v

theorem puts_modify (h : c.Linked) (k : K) (default : V) (f : V → V) :
    Puts c k (f ((c.peek? k).getD default)) (c.modify k default f) := by
  have hput := h.puts_use k default
  exact { hput with
    linked := hput.linked.mapValue k f
    value := peek?_mapValue_self hput.value
    others := fun j hj hne => (peek?_mapValue_ne hne).trans (hput.others j hj hne) }

end Linked

end RecencyCache

end ElementLens
