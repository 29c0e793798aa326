/-
A cache keeps the keys used last, with their values.

Whatever was done to a cache so far (a list of `RecencyCache.Operation`s), the
keys in it can be read off the uses since it was last cleared: each key counts
at its last use, and the last of these keys are the ones that are kept. The
value of such a key is what the operations made of it since the key was last
missing:

* **`keys_run`** — the keys after a run;
* **`value_run`** — their values;
* **`run_keeps_recent`** — both, and the size of the cache.
-/
import ElementLens.Proofs.Cache.Linked
import Mathlib.Data.List.Dedup
import Mathlib.Data.List.Induction

namespace ElementLens

namespace RecencyCache

/-- What can be done to a cache. A key that is looked up may get a new value on
this occasion; to peek at a key or to ask for it leaves the cache alone. -/
inductive Operation (K V : Type) where
  | get (k : K)
  | modify (k : K) (f : V → V)
  | set (k : K) (v : V)
  | peek (k : K)
  | contains (k : K)
  | clear

namespace Operation

variable {K V : Type}

/-- The key that an operation uses. -/
def key? : Operation K V → Option K
  | get k | modify k _ | set k _ => some k
  | peek _ | contains _ | clear => none

/-- Whether an operation forgets all keys. -/
def isClear : Operation K V → Bool
  | clear => true
  | _ => false

variable [DecidableEq K]

/-- The cache after an operation. Keys that are created by a look-up begin with
the default value. -/
def apply (default : V) (c : RecencyCache K V) : Operation K V → RecencyCache K V
  | get k => (c.get k default).2
  | modify k f => c.modify k default f
  | set k v => c.set k v
  | peek _ | contains _ => c
  | clear => c.clear

/-- What an operation makes of the value of a key. -/
def write (k : K) (v : V) : Operation K V → V
  | modify j f => if j = k then f v else v
  | set j w => if j = k then w else v
  | get _ | peek _ | contains _ | clear => v

end Operation

variable {K V : Type} [DecidableEq K]

/-- The cache after operations on an empty one. -/
def run (capacity : Nat) (default : V) (ops : List (Operation K V)) : RecencyCache K V :=
  ops.foldl (Operation.apply default) (empty capacity)

/-- The keys used since all keys were last forgotten, once for each use. -/
def usesSinceClear (ops : List (Operation K V)) : List K :=
  (ops.rtakeWhile fun op => !op.isClear).filterMap Operation.key?

/-- The keys in the order of their last uses since all keys were forgotten. -/
def usedKeys (ops : List (Operation K V)) : List K := (usesSinceClear ops).dedup

/-! ### Last uses -/

/-- Keys that are used again move behind those that are not. -/
theorem dedup_append_eq (ks more : List K) :
    (ks ++ more).dedup = ks.dedup.filter (· ∉ more) ++ more.dedup := by
  induction ks with
  | nil => rfl
  | cons j ks ih =>
    by_cases hj : j ∈ ks
    · rw [List.cons_append, List.dedup_cons_of_mem (by simp [hj]), ih, List.dedup_cons_of_mem hj]
    · by_cases hmore : j ∈ more
      · rw [List.cons_append, List.dedup_cons_of_mem (by simp [hmore]), ih,
          List.dedup_cons_of_notMem hj, List.filter_cons_of_neg (by simpa using hmore)]
      · rw [List.cons_append, List.dedup_cons_of_notMem (by simp [hj, hmore]), ih,
          List.dedup_cons_of_notMem hj, List.filter_cons_of_pos (by simpa using hmore)]
        rfl

/-- What matters of some uses is the order of the last ones. -/
theorem dedup_append_congr {ks ks' more more' : List K} (h : ks.dedup = ks'.dedup)
    (hmore : more.dedup = more'.dedup) : (ks ++ more).dedup = (ks' ++ more').dedup := by
  have hmem (j : K) : j ∈ more ↔ j ∈ more' := by
    rw [← List.mem_dedup, hmore, List.mem_dedup]
  rw [dedup_append_eq, dedup_append_eq, h, hmore]
  simp only [hmem]

/-- Making the same uses once more does not matter. -/
theorem dedup_append_self {ks more : List K} (h : more.dedup = ks.dedup) :
    (ks ++ more).dedup = ks.dedup := by
  have hgone : ks.dedup.filter (· ∉ more) = [] := by
    refine List.filter_eq_nil_iff.2 fun j hj => ?_
    rw [← h, List.mem_dedup] at hj
    simpa using hj
  rw [dedup_append_eq, hgone, h, List.nil_append]

/-- A further use moves a key to the end. -/
theorem dedup_concat (ks : List K) (k : K) :
    (ks ++ [k]).dedup = ks.dedup.filter (· ≠ k) ++ [k] := by
  simp [dedup_append_eq]

theorem rtake_of_length_le {α : Type} {n : Nat} {l : List α} (h : l.length ≤ n) : l.rtake n = l := by
  rw [List.rtake, Nat.sub_eq_zero_of_le h, List.drop_zero]

theorem rtake_append_of_le {α : Type} {n : Nat} (a : List α) {b : List α} (h : n ≤ b.length) :
    (a ++ b).rtake n = b.rtake n := by
  rw [List.rtake, List.rtake, List.length_append, List.drop_append,
    List.drop_eq_nil_of_le (by omega), List.nil_append]
  congr 1
  omega

theorem length_filter_ne_of_nodup {ks : List K} (h : ks.Nodup) (k : K) :
    ks.length ≤ (ks.filter (· ≠ k)).length + 1 := by
  have herase := List.length_erase (a := k) (l := ks)
  rw [h.erase_eq_filter] at herase
  have hsame : (fun x : K => x != k) = fun x => decide (x ≠ k) := by
    funext x
    by_cases hx : x = k <;> simp [hx]
  rw [hsame] at herase
  split at herase <;> omega

/-- Keys that did not fit do not matter for what fits after a further use. -/
theorem keysAfter_rtake (n : Nat) {ks : List K} (h : ks.Nodup) (k : K) :
    keysAfter (n + 1) (ks.rtake (n + 1)) k = keysAfter (n + 1) ks k := by
  by_cases hshort : ks.length ≤ n + 1
  · rw [rtake_of_length_le hshort]
  · obtain ⟨gone, kept, rfl, hkept⟩ : ∃ gone kept, ks = gone ++ kept ∧ kept.length = n + 1 :=
      ⟨ks.take (ks.length - (n + 1)), ks.drop (ks.length - (n + 1)),
        (List.take_append_drop _ _).symm, by rw [List.length_drop]; omega⟩
    have hlast : (gone ++ kept).rtake (n + 1) = kept := by
      rw [rtake_append_of_le _ (Nat.le_of_eq hkept.symm), rtake_of_length_le (Nat.le_of_eq hkept)]
    -- at most one of the keys that are kept is the key itself
    have hrest : n ≤ (kept.filter (· ≠ k)).length := by
      have := length_filter_ne_of_nodup (List.nodup_append.1 h).2.1 k
      omega
    rw [hlast, keysAfter_succ, keysAfter_succ, List.filter_append, rtake_append_of_le _ hrest]

/-! ### Runs -/

theorem run_concat (capacity : Nat) (default : V) (ops : List (Operation K V))
    (op : Operation K V) :
    run capacity default (ops ++ [op]) = op.apply default (run capacity default ops) := by
  rw [run, List.foldl_concat]
  rfl

namespace Operation

variable {c : RecencyCache K V}

/-- An operation uses a key, forgets all keys or does nothing. -/
theorem apply_cases (h : c.Linked) (default : V) (op : Operation K V) :
    (∃ k, op.key? = some k ∧ op.isClear = false
        ∧ Puts c k (op.write k ((c.peek? k).getD default)) (op.apply default c))
      ∨ (op.key? = none ∧ op.isClear = true ∧ op.apply default c = c.clear)
      ∨ (op.key? = none ∧ op.isClear = false ∧ op.apply default c = c) := by
  cases op with
  | get k => exact .inl ⟨k, rfl, rfl, h.puts_use k default⟩
  | modify k f =>
    refine .inl ⟨k, rfl, rfl, ?_⟩
    rw [write, if_pos rfl]
    exact h.puts_modify k default f
  | set k v =>
    refine .inl ⟨k, rfl, rfl, ?_⟩
    rw [write, if_pos rfl]
    exact h.puts_set k v
  | peek k => exact .inr (.inr ⟨rfl, rfl, rfl⟩)
  | contains k => exact .inr (.inr ⟨rfl, rfl, rfl⟩)
  | clear => exact .inr (.inl ⟨rfl, rfl, rfl⟩)

/-- An operation leaves the values of other keys alone. -/
theorem write_of_ne {op : Operation K V} {k j : K} (hk : op.key? = some k) (hj : j ≠ k) (v : V) :
    op.write j v = v := by
  cases op <;> simp_all [key?, write, eq_comm]

theorem write_of_none {op : Operation K V} (hk : op.key? = none) (j : K) (v : V) :
    op.write j v = v := by
  cases op <;> simp_all [key?, write]

end Operation

theorem usedKeys_nil : usedKeys ([] : List (Operation K V)) = [] := by
  simp [usedKeys, usesSinceClear]

omit [DecidableEq K] in
theorem usesSinceClear_concat_of_key {ops : List (Operation K V)} {op : Operation K V} {k : K}
    (hk : op.key? = some k) (hclear : op.isClear = false) :
    usesSinceClear (ops ++ [op]) = usesSinceClear ops ++ [k] := by
  rw [usesSinceClear, List.rtakeWhile_concat_pos _ _ _ (by simp [hclear]),
    List.filterMap_append, List.filterMap_cons_some hk, List.filterMap_nil]
  rfl

omit [DecidableEq K] in
theorem usesSinceClear_concat_of_clear {ops : List (Operation K V)} {op : Operation K V}
    (hclear : op.isClear = true) : usesSinceClear (ops ++ [op]) = [] := by
  rw [usesSinceClear, List.rtakeWhile_concat_neg _ _ _ (by simp [hclear]), List.filterMap_nil]

omit [DecidableEq K] in
theorem usesSinceClear_concat_of_none {ops : List (Operation K V)} {op : Operation K V}
    (hk : op.key? = none) (hclear : op.isClear = false) :
    usesSinceClear (ops ++ [op]) = usesSinceClear ops := by
  rw [usesSinceClear, List.rtakeWhile_concat_pos _ _ _ (by simp [hclear]),
    List.filterMap_append, List.filterMap_cons_none hk, List.filterMap_nil, List.append_nil]
  rfl

theorem usedKeys_concat_of_key {ops : List (Operation K V)} {op : Operation K V} {k : K}
    (hk : op.key? = some k) (hclear : op.isClear = false) :
    usedKeys (ops ++ [op]) = (usedKeys ops).filter (· ≠ k) ++ [k] := by
  rw [usedKeys, usesSinceClear_concat_of_key hk hclear, dedup_concat]
  rfl

theorem usedKeys_concat_of_clear {ops : List (Operation K V)} {op : Operation K V}
    (hclear : op.isClear = true) : usedKeys (ops ++ [op]) = [] := by
  rw [usedKeys, usesSinceClear_concat_of_clear hclear, List.dedup_nil]

theorem usedKeys_concat_of_none {ops : List (Operation K V)} {op : Operation K V}
    (hk : op.key? = none) (hclear : op.isClear = false) : usedKeys (ops ++ [op]) = usedKeys ops := by
  rw [usedKeys, usesSinceClear_concat_of_none hk hclear]
  rfl

/-- The keys of a cache are the last ones of those used since all keys were
forgotten, in the order of their last uses. The clock counts all uses. -/
theorem keys_run (capacity : Nat) (default : V) (ops : List (Operation K V)) :
    (run capacity default ops).Linked
      ∧ (run capacity default ops).capacity = capacity
      ∧ (run capacity default ops).clock = (ops.filterMap Operation.key?).length
      ∧ (run capacity default ops).keys = (usedKeys ops).rtake (capacity + 1) := by
  -- along the operations, the last one being the one that is added
  induction ops using List.reverseRecOn with
  | nil =>
    refine ⟨.empty capacity, rfl, rfl, ?_⟩
    rw [usedKeys_nil, List.rtake_nil]
    rfl
  | append_singleton ops op ih =>
    obtain ⟨hlinked, hcapacity, hclock, hkeys⟩ := ih
    rw [run_concat, List.filterMap_append]
    rcases op.apply_cases hlinked default with
      ⟨k, hk, hclear, hputs⟩ | ⟨hk, hclear, heq⟩ | ⟨hk, hclear, heq⟩
    · refine ⟨hputs.linked, hputs.capacity.trans hcapacity, ?_, ?_⟩
      · rw [hputs.clock, hclock, List.filterMap_cons_some hk]
        simp
      · -- what was forgotten before does not fit now either
        rw [hputs.keys, hcapacity, hkeys, usedKeys_concat_of_key hk hclear]
        exact keysAfter_rtake capacity (List.nodup_dedup _) k
    · rw [heq, usedKeys_concat_of_clear hclear, List.filterMap_cons_none hk, List.rtake_nil]
      refine ⟨.clear _, hcapacity, ?_, rfl⟩
      simpa [RecencyCache.clear] using hclock
    · rw [heq, usedKeys_concat_of_none hk hclear, List.filterMap_cons_none hk]
      refine ⟨hlinked, hcapacity, ?_, hkeys⟩
      simpa using hclock

theorem linked_run (capacity : Nat) (default : V) (ops : List (Operation K V)) :
    (run capacity default ops).Linked := (keys_run capacity default ops).1

/-! ### Values -/

/-- A key was last missing between two parts of a run: it was not there after
the first part, and was there from the first operation of the second part on. -/
structure LastMissing (capacity : Nat) (default : V) (k : K)
    (before after : List (Operation K V)) : Prop where
  missing : (run capacity default before).contains k = false
  present : ∀ first, first <+: after → first ≠ [] →
    (run capacity default (before ++ first)).contains k = true

theorem LastMissing.concat {capacity : Nat} {default : V} {k : K}
    {before after : List (Operation K V)} (h : LastMissing capacity default k before after)
    {op : Operation K V}
    (hk : (run capacity default (before ++ after ++ [op])).contains k = true) :
    LastMissing capacity default k before (after ++ [op]) := by
  refine ⟨h.missing, fun first hfirst hne => ?_⟩
  rcases List.prefix_concat_iff.1 hfirst with rfl | hfirst
  · rwa [← List.append_assoc]
  · exact h.present first hfirst hne

/-- The value of a key is what was made of it since it was last missing. -/
theorem value_run (capacity : Nat) (default : V) (ops : List (Operation K V)) {k : K}
    (hk : k ∈ (run capacity default ops).keys) :
    ∃ before after, ops = before ++ after ∧ LastMissing capacity default k before after
      ∧ (run capacity default ops).peek? k
        = some (after.foldl (Operation.write k) default) := by
  induction ops using List.reverseRecOn with
  | nil => exact absurd hk List.not_mem_nil
  | append_singleton ops op ih =>
    have hlinked := linked_run capacity default ops
    have hthere := (linked_run capacity default (ops ++ [op])).contains_iff.2 hk
    by_cases hold : k ∈ (run capacity default ops).keys
    · -- the key stayed
      obtain ⟨before, after, rfl, hmissing, hvalue⟩ := ih hold
      refine ⟨before, after ++ [op], (List.append_assoc ..), hmissing.concat hthere, ?_⟩
      rw [List.foldl_concat]
      rw [run_concat] at hk ⊢
      rcases op.apply_cases hlinked default with
        ⟨j, hj, -, hputs⟩ | ⟨-, -, heq⟩ | ⟨hj, -, heq⟩
      · by_cases hkj : k = j
        · subst hkj
          rw [hputs.value, hvalue, Option.getD_some]
        · rw [hputs.others k hk hkj, hvalue, Operation.write_of_ne hj hkj]
      · rw [heq] at hk
        exact absurd hk List.not_mem_nil
      · rw [heq, hvalue, Operation.write_of_none hj]
    · -- the last operation has brought the key
      refine ⟨ops, [op], rfl, ⟨hlinked.contains_eq_false_iff.2 hold, ?_⟩, ?_⟩
      · intro first hfirst hne
        obtain ⟨rest, hrest⟩ := hfirst
        obtain rfl : first = [op] := by
          cases first with
          | nil => exact absurd rfl hne
          | cons a as => simp_all
        exact hthere
      · rw [run_concat] at hk ⊢
        rcases op.apply_cases hlinked default with
          ⟨j, -, -, hputs⟩ | ⟨-, -, heq⟩ | ⟨-, -, heq⟩
        · obtain rfl : k = j := by
            rw [hputs.keys, keysAfter_succ, List.mem_append, List.mem_singleton] at hk
            refine hk.resolve_left fun hmem => hold ?_
            exact List.mem_of_mem_filter ((List.drop_sublist _ _).subset hmem)
          rw [hputs.value, hlinked.peek?_eq_none hold]
          rfl
        · rw [heq] at hk
          exact absurd hk List.not_mem_nil
        · rw [heq] at hk
          exact absurd hk hold

/-- **A cache keeps the keys used last.** After any operations on an empty cache
of capacity `c`, the keys are the last `c + 1` of those used since all keys were
forgotten, in the order of their last uses, or all of them if there are fewer.
The other answers of the cache belong to these keys, and the value of each key
is what was made of it since it was last missing. The clock counts the uses. -/
theorem run_keeps_recent (capacity : Nat) (default : V) (ops : List (Operation K V)) :
    let c := run capacity default ops
    c.keys = (usedKeys ops).rtake (min (capacity + 1) (usedKeys ops).length)
      ∧ (∀ k, c.contains k = true ↔ k ∈ c.keys)
      ∧ c.size = c.keys.length
      ∧ c.clock = (ops.filterMap Operation.key?).length
      ∧ (∀ k, k ∉ c.keys → c.peek? k = none)
      ∧ ∀ k ∈ c.keys, ∃ before after, ops = before ++ after
        ∧ LastMissing capacity default k before after
        ∧ c.peek? k = some (after.foldl (Operation.write k) default) := by
  intro c
  obtain ⟨hlinked, -, hclock, hkeys⟩ := keys_run capacity default ops
  refine ⟨?_, fun _ => hlinked.contains_iff, hlinked.size_eq, hclock, fun _ => hlinked.peek?_eq_none,
    fun _ hk => value_run capacity default ops hk⟩
  rw [hkeys, List.rtake, List.rtake]
  congr 1
  omega

/-- In a cache of capacity one the third key takes the place of the second one,
because the first one was looked up in between. -/
theorem run_keeps_recent_three :
    let ops : List (Operation String Nat) :=
      [.set "a" 1, .set "b" 2, .modify "a" (· + 10), .set "c" 3, .peek "b", .get "a"]
    "a" ∈ (run 1 0 ops).keys
      ∧ (run 1 0 ops).keys = ["c", "a"]
      ∧ (run 1 0 ops).contains "b" = false
      ∧ ∃ before after, ops = before ++ after ∧ LastMissing 1 0 "a" before after
        ∧ (run 1 0 ops).peek? "a" = some (after.foldl (Operation.write "a") 0) := by
  intro ops
  have hmem : "a" ∈ (run 1 0 ops).keys := by decide
  exact ⟨hmem, by decide, by decide, (run_keeps_recent 1 0 ops).2.2.2.2.2 "a" hmem⟩

end RecencyCache

end ElementLens
