/-
Searching an ordered range by halving.

A test on numbers that holds up to some point and fails from there on has
that point found in few steps.

* **`bisect_eq`** — the search ends at the point where the test turns.
-/

namespace ElementLens

/-- Halves the range from `lo` to `hi` until it holds the first number at
which the test fails. The test holds before `lo` and fails from `hi` on. -/
def bisect (test : Nat → Bool) (lo hi : Nat) : Nat :=
  if _ : lo < hi then
    let mid := (lo + hi) / 2
    if test mid then bisect test (mid + 1) hi else bisect test lo mid
  else lo
termination_by hi - lo

theorem bisect_eq {test : Nat → Bool} {k lo hi : Nat} (hlo : lo ≤ k) (hhi : k ≤ hi)
    (holds : ∀ j < k, test j = true) (fails : ∀ j, k ≤ j → j < hi → test j = false) :
    bisect test lo hi = k := by
  fun_induction bisect test lo hi with
  | case1 lo hi _ mid h ih =>
    refine ih (Nat.lt_of_not_le fun hle => ?_) hhi fails
    rw [fails mid hle (by omega)] at h
    exact Bool.noConfusion h
  | case2 lo hi _ mid h ih =>
    have hk : k ≤ mid := Nat.le_of_not_lt fun hlt => h (holds mid hlt)
    exact ih hlo hk fun j hj hm => fails j hj (by omega)
  | case3 lo hi _ => omega

end ElementLens
