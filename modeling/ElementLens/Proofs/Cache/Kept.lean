/-
Keys that a cache keeps.

A cache with capacity `c` forgets a key only for the sake of `c + 1` other keys
used later. So as long as all keys in use are among `c + 1` keys, those used
before, since whenever, stay with their values:

* **`Puts.recent`**, **`Puts.peek?_recent`** — a key stays, with its value, if
  it was used after all but a few keys (`RecencyCache.Recent`);
* **`Puts.within`**, **`Puts.peek?_within`** — nothing is forgotten if there are
  few keys in all (`RecencyCache.Within`).
-/
import ElementLens.Proofs.Cache.Linked
import Mathlib.Data.Finset.Card

namespace ElementLens

namespace RecencyCache

variable {K V : Type} {few : Finset K} {c c' : RecencyCache K V} {j k : K} {v : V}

/-- A key is there, and only some given keys were used since it was. -/
def Recent (few : Finset K) (c : RecencyCache K V) (k : K) : Prop :=
  ∃ old recent, c.keys = old ++ k :: recent ∧ ∀ j ∈ k :: recent, j ∈ few

/-- There are no keys but some given ones. -/
def Within (few : Finset K) (c : RecencyCache K V) : Prop := ∀ k ∈ c.keys, k ∈ few

theorem Recent.mem (h : Recent few c k) : k ∈ c.keys := by
  obtain ⟨old, recent, hkeys, -⟩ := h
  rw [hkeys]
  exact List.mem_append_right _ List.mem_cons_self

theorem Within.recent (h : Within few c) (hk : k ∈ c.keys) : Recent few c k := by
  obtain ⟨old, recent, hkeys⟩ := List.append_of_mem hk
  refine ⟨old, recent, hkeys, fun j hj => h j ?_⟩
  rw [hkeys]
  exact List.mem_append_right _ hj

theorem rtake_append_of_length_le {α : Type} {n : Nat} (a : List α) {b : List α}
    (h : b.length ≤ n) : (a ++ b).rtake n = a.rtake (n - b.length) ++ b := by
  rw [List.rtake, List.rtake, List.drop_append, List.length_append]
  have hleft : a.length + b.length - n = a.length - (n - b.length) := by omega
  have hright : a.length + b.length - n - a.length = 0 := by omega
  rw [hright, hleft, List.drop_zero]

variable [DecidableEq K]

/-- The keys used last of all are as many as there is room for. -/
theorem recent_keysAfter {capacity : Nat} {old recent : List K}
    (hnodup : (old ++ j :: recent).Nodup) (hfew : ∀ i ∈ j :: recent, i ∈ few)
    (hroom : few.card ≤ capacity + 1) (hk : k ∈ few) (hj : j ≠ k) :
    ∃ old' recent', keysAfter (capacity + 1) (old ++ j :: recent) k = old' ++ j :: recent'
      ∧ ∀ i ∈ j :: recent', i ∈ few := by
  obtain ⟨rest, hrest⟩ : ∃ rest, rest = (j :: recent).filter (· ≠ k) := ⟨_, rfl⟩
  have hcons : rest = j :: recent.filter (· ≠ k) := by
    rw [hrest, List.filter_cons_of_pos (by simpa using hj)]
  have hsub : ∀ i ∈ rest, i ∈ few := by
    intro i hi
    rw [hrest] at hi
    exact hfew i (List.mem_of_mem_filter hi)
  -- the key and those used after it are among the given ones, so they are few
  have hlength : rest.length ≤ capacity := by
    have hdistinct : (k :: rest).Nodup := by
      refine List.nodup_cons.2 ⟨?_, ?_⟩
      · rw [hrest]
        simp
      · rw [hrest]
        exact (List.Nodup.of_append_right hnodup).filter _
    have hle : (k :: rest).toFinset.card ≤ few.card := by
      refine Finset.card_le_card fun i hi => ?_
      rcases List.mem_cons.1 (List.mem_toFinset.1 hi) with rfl | hi
      · exact hk
      · exact hsub i hi
    rw [List.toFinset_card_of_nodup hdistinct, List.length_cons] at hle
    omega
  refine ⟨(old.filter (· ≠ k)).rtake (capacity - rest.length), recent.filter (· ≠ k) ++ [k], ?_, ?_⟩
  · rw [keysAfter_succ, List.filter_append, ← hrest, rtake_append_of_length_le _ hlength,
      List.append_assoc, hcons, List.cons_append]
  · intro i hi
    rw [← List.cons_append, ← hcons, List.mem_append, List.mem_singleton] at hi
    rcases hi with hi | rfl
    · exact hsub i hi
    · exact hk

namespace Puts

theorem mem_keys (h : Puts c k v c') (hj : j ∈ c'.keys) : j ∈ c.keys ∨ j = k := by
  rw [h.keys, keysAfter_succ, List.mem_append, List.mem_singleton] at hj
  exact hj.imp_left fun hmem => List.mem_of_mem_filter ((List.drop_sublist _ _).subset hmem)

theorem recent_self (h : Puts c k v c') (hk : k ∈ few) : Recent few c' k := by
  refine ⟨_, [], by rw [h.keys, keysAfter_succ], fun j hj => ?_⟩
  rwa [List.mem_singleton.1 hj]

/-- A key stays if it was used after all but a few keys. -/
theorem recent (h : Puts c k v c') (hlinked : c.Linked) (hroom : few.card ≤ c.capacity + 1)
    (hk : k ∈ few) (hj : Recent few c j) : Recent few c' j := by
  by_cases hjk : j = k
  · rw [hjk]
    exact h.recent_self hk
  · obtain ⟨old, recent, hkeys, hfew⟩ := hj
    have hnodup := hlinked.keys_nodup
    rw [hkeys] at hnodup
    unfold Recent
    rw [h.keys, hkeys]
    exact recent_keysAfter hnodup hfew hroom hk hjk

theorem peek?_recent (h : Puts c k v c') (hlinked : c.Linked) (hroom : few.card ≤ c.capacity + 1)
    (hk : k ∈ few) (hj : Recent few c j) (hjk : j ≠ k) : c'.peek? j = c.peek? j :=
  h.others j (h.recent hlinked hroom hk hj).mem hjk

theorem within (h : Puts c k v c') (hk : k ∈ few) (hwithin : Within few c) : Within few c' := by
  intro j hj
  rcases h.mem_keys hj with hj | rfl
  · exact hwithin j hj
  · exact hk

/-- Nothing is forgotten if there are few keys in all. -/
theorem peek?_within (h : Puts c k v c') (hlinked : c.Linked) (hroom : few.card ≤ c.capacity + 1)
    (hk : k ∈ few) (hwithin : Within few c) (hjk : j ≠ k) : c'.peek? j = c.peek? j := by
  by_cases hj : j ∈ c.keys
  · exact h.peek?_recent hlinked hroom hk (hwithin.recent hj) hjk
  · have hj' : j ∉ c'.keys := fun hmem => (h.mem_keys hmem).elim hj hjk
    rw [hlinked.peek?_eq_none hj, h.linked.peek?_eq_none hj']

end Puts

end RecencyCache

end ElementLens
