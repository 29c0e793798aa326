/-
Progress of a debouncer.

* **`Consistent.goesOn`** — while there are tasks, one of them can move, at
  once or after some time;
* **`Clockwork.count_move_run`** — and every task ends after a few steps,
  whatever else is called for.
-/
import ElementLens.Proofs.Debounce.Chronicle
import Mathlib.Data.List.MinMax

namespace ElementLens.Debouncer

namespace Clockwork.Consistent

variable {K : Type} [DecidableEq K] {delay : Nat} {c : Clockwork K}

omit [DecidableEq K] in
theorem canMove_of_held {t : Task K} {l : Nat} (hl : t.phase.held? = some l) :
    c.canMove delay t = true := by
  unfold canMove
  cases hp : t.phase <;> simp [hp, Phase.held?] at hl ⊢

theorem take_move (h : c.Consistent delay) {t : Task K} (ht : t ∈ c.debouncer.tasks)
    (hmove : c.canMove delay t = true) : c.take delay (.move t.generation) = some (c.move t) := by
  have htask := (task?_eq_some_iff h.ordered.nodup).2 ⟨ht, rfl⟩
  simp [Clockwork.take, htask, hmove]

/-- **Nothing is stuck.** While there are tasks, one of them can move, at once
or after some time. -/
theorem goesOn (h : c.Consistent delay) (hne : c.debouncer.tasks ≠ []) :
    ∃ actions c', c.run delay actions = some c' ∧ (∀ k, .call k ∉ actions)
      ∧ ∃ g, .move g ∈ actions := by
  by_cases hsome : ∃ t ∈ c.debouncer.tasks, c.canMove delay t = true
  · obtain ⟨t, ht, hmove⟩ := hsome
    exact ⟨[.move t.generation], c.move t, by simp [Clockwork.run, h.take_move ht hmove], by simp,
      t.generation, by simp⟩
  -- whoever has a lock can move, so all tasks are asleep
  have hstay : ∀ t ∈ c.debouncer.tasks, c.canMove delay t = false := by
    intro t ht
    simpa using fun hmove => hsome ⟨t, ht, hmove⟩
  have hasleep : ∀ t ∈ c.debouncer.tasks, t.phase = .sleeping := by
    intro t ht
    have hstill := hstay t ht
    cases hp : t.phase with
    | sleeping => rfl
    | waiting l =>
      have hheld : c.debouncer.isHeld l = true := by simpa [canMove, hp] using hstill
      obtain ⟨u, hu, hl⟩ := List.any_eq_true.1 hheld
      have hmove : c.canMove delay u = true := canMove_of_held (by simpa using hl)
      exact absurd hmove (by simp [hstay u hu])
    | _ => simp [canMove, hp] at hstill
  -- the first alarm is the next thing to happen
  obtain ⟨t, hmin⟩ := Option.ne_none_iff_exists'.1 fun hnone =>
    hne (List.argmin_eq_none (f := fun u : Task K => c.history.alarm delay u.generation).1 hnone)
  have ht := List.argmin_mem hmin
  have hle := h.asleep t ht (hasleep t ht)
  obtain ⟨time, htime⟩ : ∃ time, c.clock + time = c.history.alarm delay t.generation :=
    ⟨_, Nat.add_sub_cancel' hle⟩
  obtain ⟨c', hc'⟩ : ∃ c', c' = { c with clock := c.clock + time } := ⟨_, rfl⟩
  have hpass : c.take delay (.pass time) = some c' := by
    have hrest : c.debouncer.tasks.all (c.canRest delay time) = true := by
      refine List.all_eq_true.2 fun u hu => ?_
      have hfirst := List.le_of_mem_argmin hu hmin
      simp only [canRest, hasleep u hu, decide_eq_true_eq]
      omega
    rw [Clockwork.take, if_pos hrest, hc']
  have hmove : c'.canMove delay t = true := by simp [canMove, hasleep t ht, hc', htime]
  have ht' : t ∈ c'.debouncer.tasks := by rw [hc']; exact ht
  refine ⟨[.pass time, .move t.generation], c'.move t, ?_, by simp, t.generation, by simp⟩
  simp [Clockwork.run, hpass, (h.take hpass).take_move ht' hmove]

end Clockwork.Consistent

/-! ### Steps that are left -/

/-- The number of steps that a task can still take. -/
def Phase.stepsLeft : Phase → Nat
  | .sleeping => 9
  | .due => 8
  | .waiting _ => 7
  | .admitted _ => 6
  | .running _ => 5
  | .done _ => 4
  | .settled _ => 3
  | .leaving _ _ => 2
  | .released _ _ => 1

theorem Phase.stepsLeft_pos (p : Phase) : 0 < p.stepsLeft := by
  cases p <;> simp [stepsLeft]

theorem Phase.stepsLeft_le (p : Phase) : p.stepsLeft ≤ 9 := by
  cases p <;> simp [stepsLeft]

theorem stepsLeft_next {K : Type} [DecidableEq K] {d : Debouncer K} {t : Task K} {p : Phase}
    (hp : next? d t = some p) : p.stepsLeft < t.phase.stepsLeft := by
  unfold next? at hp
  cases hphase : t.phase with
  | sleeping =>
    simp only [hphase] at hp
    split at hp
    · obtain rfl := Option.some.inj hp
      decide
    · exact absurd hp (by simp)
  | admitted l =>
    simp only [hphase] at hp
    obtain rfl := Option.some.inj hp
    split <;> simp [Phase.stepsLeft]
  | released l ran => simp [hphase] at hp
  | _ =>
    simp only [hphase] at hp
    obtain rfl := Option.some.inj hp
    simp [Phase.stepsLeft]

namespace Clockwork

variable {K : Type} [DecidableEq K] {delay : Nat} {c c' : Clockwork K}

/-- The number of steps that the task of a generation can still take, whether
it was called for already or not. -/
def stepsLeft (c : Clockwork K) (g : Nat) : Nat :=
  if c.debouncer.generation < g then 9
  else ((c.debouncer.task? g).map (·.phase.stepsLeft)).getD 0

theorem stepsLeft_of_mem (h : c.Consistent delay) {t : Task K} (ht : t ∈ c.debouncer.tasks) :
    c.stepsLeft t.generation = t.phase.stepsLeft := by
  have hle := h.ordered.generation_le t ht
  rw [stepsLeft, if_neg (by omega), (task?_eq_some_iff h.ordered.nodup).2 ⟨ht, rfl⟩]
  rfl

omit [DecidableEq K] in
theorem stepsLeft_le {g n : Nat} (hg : g ≤ c.debouncer.generation)
    (hle : ∀ t ∈ c.debouncer.tasks, t.generation = g → t.phase.stepsLeft ≤ n) :
    c.stepsLeft g ≤ n := by
  rw [stepsLeft, if_neg (by omega)]
  cases htask : c.debouncer.task? g with
  | none => exact Nat.zero_le n
  | some t =>
    rw [task?] at htask
    exact hle t (List.mem_of_find?_eq_some htask) (by simpa using List.find?_some htask)

/-- An action takes nothing but the step that it is. -/
theorem stepsLeft_take (h : c.Consistent delay) {a : Action K} (ha : c.take delay a = some c')
    (g : Nat) : c'.stepsLeft g + (if a = .move g then 1 else 0) ≤ c.stepsLeft g := by
  cases a with
  | call k =>
    -- the task that is called for has all its steps left, as it had before
    obtain rfl := Option.some.inj ha
    rw [if_neg (by simp), Nat.add_zero]
    by_cases hnew : c.debouncer.generation < g
    · rw [show c.stepsLeft g = 9 from if_pos hnew, stepsLeft]
      split
      · exact Nat.le_refl _
      · cases (c.call k).debouncer.task? g with
        | none => simp
        | some t => exact t.phase.stepsLeft_le
    · refine stepsLeft_le (by simp only [call, schedule]; omega) fun t ht hg => ?_
      rcases Consistent.mem_call.1 ht with ht | rfl
      · rw [← hg, stepsLeft_of_mem h ht]
      · simp only at hg
        omega
  | pass time =>
    obtain ⟨-, rfl⟩ := Consistent.of_take_pass ha
    simp [stepsLeft]
  | move g' =>
    obtain ⟨t, ht, rfl, hmove, rfl⟩ := h.exists_of_take_move ha
    have hmem (u : Task K) := h.ordered.mem_step (u := u) ht (Consistent.canMove_waiting hmove)
    have hgeneration : (c.move t).debouncer.generation = c.debouncer.generation :=
      generation_step c.debouncer t
    have hold {u : Task K} (hu : u ∈ c.debouncer.tasks) := stepsLeft_of_mem h hu
    by_cases hnew : c.debouncer.generation < g
    · have hg : g ≠ t.generation := by
        have := h.ordered.generation_le t ht
        omega
      rw [if_neg (fun heq => hg (Action.move.inj heq).symm), stepsLeft, if_pos (by omega), stepsLeft,
        if_pos hnew]
    · by_cases hg : g = t.generation
      · -- the task itself goes on, or ends
        subst hg
        rw [if_pos rfl, hold ht]
        have hpos := t.phase.stepsLeft_pos
        suffices (c.move t).stepsLeft t.generation ≤ t.phase.stepsLeft - 1 by omega
        refine stepsLeft_le (by omega) fun u hu hug => ?_
        rcases (hmem u).1 hu with ⟨-, hne⟩ | ⟨p, hnext, rfl⟩
        · exact absurd hug hne
        · exact Nat.le_pred_of_lt (stepsLeft_next hnext)
      · rw [if_neg (fun heq => hg (Action.move.inj heq).symm)]
        refine stepsLeft_le (by omega) fun u hu hug => ?_
        rcases (hmem u).1 hu with ⟨hu, -⟩ | ⟨p, -, rfl⟩
        · rw [← hug, hold hu]
        · exact absurd hug.symm hg

/-- **Every task ends after a few steps.** -/
theorem count_move_run (h : c.Consistent delay) {actions : List (Action K)}
    (hrun : c.run delay actions = some c') (g : Nat) :
    c'.stepsLeft g + actions.count (.move g) ≤ c.stepsLeft g := by
  induction actions generalizing c with
  | nil =>
    obtain rfl := Option.some.inj hrun
    simp
  | cons a actions ih =>
    obtain ⟨c₁, ha, hrest⟩ := Option.bind_eq_some_iff.1 hrun
    have hfirst := stepsLeft_take h ha g
    have hlater := ih (h.take ha) hrest
    rw [List.count_cons]
    simp only [beq_iff_eq]
    omega

end Clockwork

end ElementLens.Debouncer
