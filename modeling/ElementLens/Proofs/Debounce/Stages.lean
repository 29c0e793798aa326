/-
Steps put together.

When a task wakes up, enters its work or finishes it, it takes several steps at
once. In an execution these steps are taken one after the other. What comes of
them is that the task stands somewhere else, or has ended, and that all others
are where they were (`Clockwork.Moved`):

* **`Consistent.wake`**, **`Consistent.enter`**, **`Consistent.finish`** — the
  three kinds of steps put together;
* **`Moved.weight`** — how the sum over all tasks changes.
-/
import ElementLens.Proofs.Debounce.Progress
import Mathlib

namespace ElementLens.Debouncer

/-- The calls, the last one first. -/
def History.calls {K : Type} (h : History K) : History K := h.filter fun e => e.kind = .called

namespace Clockwork

variable {K : Type} [DecidableEq K] {delay : Nat} {c c' c'' : Clockwork K} {t : Task K} {p : Phase}
  {p? : Option Phase} {kinds more : List Kind}

/-- Some actions, but no calls, lead from here to there. -/
def Reaches (delay : Nat) (c c' : Clockwork K) : Prop :=
  ∃ actions, c.run delay actions = some c' ∧ ∀ k, .call k ∉ actions

theorem run_append (actions more : List (Action K)) :
    c.run delay (actions ++ more) = (c.run delay actions).bind fun c => c.run delay more := by
  induction actions generalizing c with
  | nil => rfl
  | cons a actions ih =>
    simp only [List.cons_append, run, Option.bind_assoc]
    exact congrArg _ (funext fun c => ih)

theorem calls_take {a : Action K} (h : c.take delay a = some c') (ha : ∀ k, a ≠ .call k) :
    c'.history.calls = c.history.calls ∧ c'.debouncer.generation = c.debouncer.generation := by
  cases a with
  | call k => exact absurd rfl (ha k)
  | pass time =>
    obtain ⟨-, rfl⟩ := Consistent.of_take_pass h
    exact ⟨rfl, rfl⟩
  | move g =>
    unfold Clockwork.take at h
    cases htask : c.debouncer.task? g with
    | none => simp [htask] at h
    | some t =>
      simp only [htask] at h
      split at h
      · obtain rfl := Option.some.inj h
        refine ⟨?_, generation_step _ _⟩
        rw [Clockwork.move, History.calls, List.filter_append, List.filter_eq_nil_iff.2,
          List.nil_append, ← History.calls]
        intro e he
        obtain ⟨kind, hk, rfl⟩ := List.mem_map.1 he
        exact fun hcalled => Consistent.kind_ne_of_mem_occurs hk (of_decide_eq_true hcalled)
      · exact absurd h (by simp)

namespace Reaches

theorem refl (c : Clockwork K) : c.Reaches delay c := ⟨[], rfl, by simp⟩

theorem of_take {a : Action K} (h : c.take delay a = some c') (ha : ∀ k, a ≠ .call k) :
    c.Reaches delay c' :=
  ⟨[a], by rw [run, h]; rfl, by simpa [eq_comm] using ha⟩

theorem trans (h : c.Reaches delay c') (h' : c'.Reaches delay c'') : c.Reaches delay c'' := by
  obtain ⟨actions, hrun, hcall⟩ := h
  obtain ⟨more, hrun', hcall'⟩ := h'
  refine ⟨actions ++ more, by rw [run_append, hrun]; exact hrun', fun k hk => ?_⟩
  exact (List.mem_append.1 hk).elim (hcall k) (hcall' k)

theorem consistent (h : c.Reaches delay c') (hc : c.Consistent delay) : c'.Consistent delay := by
  obtain ⟨actions, hrun, -⟩ := h
  exact hc.run hrun

/-- Without a call nothing is called for. -/
theorem calls (h : c.Reaches delay c') :
    c'.history.calls = c.history.calls ∧ c'.debouncer.generation = c.debouncer.generation := by
  obtain ⟨actions, hrun, hcall⟩ := h
  induction actions generalizing c with
  | nil =>
    obtain rfl := Option.some.inj hrun
    exact ⟨rfl, rfl⟩
  | cons a actions ih =>
    obtain ⟨c₁, ha, hrest⟩ := Option.bind_eq_some_iff.1 hrun
    obtain ⟨hcalls, hgeneration⟩ := ih hrest fun k hk => hcall k (List.mem_cons_of_mem _ hk)
    obtain ⟨hcalls₁, hgeneration₁⟩ := calls_take ha fun k hk => hcall k (hk ▸ List.mem_cons_self)
    exact ⟨hcalls.trans hcalls₁, hgeneration.trans hgeneration₁⟩

end Reaches

/-- A task has come to stand somewhere else, or has ended, and some things have
happened to it, the last one first. The others are where they were. -/
structure Moved (delay : Nat) (c : Clockwork K) (t : Task K) (p? : Option Phase)
    (kinds : List Kind) (c' : Clockwork K) : Prop where
  reaches : c.Reaches delay c'
  clock : c'.clock = c.clock
  mem : ∀ u, u ∈ c'.debouncer.tasks ↔ (u ∈ c.debouncer.tasks ∧ u.generation ≠ t.generation)
    ∨ ∃ p, p? = some p ∧ u = { t with phase := p }
  history : c'.history = kinds.map (c.event t) ++ c.history
  uncalled : ∀ kind ∈ kinds, kind ≠ .called

namespace Moved

theorem trans (h : Moved delay c t (some p) kinds c')
    (h' : Moved delay c' { t with phase := p } p? more c'') :
    Moved delay c t p? (more ++ kinds) c'' where
  reaches := h.reaches.trans h'.reaches
  clock := h'.clock.trans h.clock
  mem u := by
    rw [h'.mem, h.mem]
    constructor
    · rintro (⟨hu | ⟨q, -, rfl⟩, hg⟩ | hu)
      · exact .inl hu
      · exact absurd rfl hg
      · exact .inr hu
    · rintro (hu | hu)
      · exact .inl ⟨.inl hu, hu.2⟩
      · exact .inr hu
  history := by
    have hevent : c'.event { t with phase := p } = c.event t := by
      funext kind
      rw [event, event, h.clock]
    rw [h'.history, h.history, hevent, List.map_append, List.append_assoc]
  uncalled kind hk := (List.mem_append.1 hk).elim (h'.uncalled kind) (h.uncalled kind)

theorem consistent (h : Moved delay c t p? kinds c') (hc : c.Consistent delay) :
    c'.Consistent delay := h.reaches.consistent hc

theorem self_mem (h : Moved delay c t (some p) kinds c') :
    { t with phase := p } ∈ c'.debouncer.tasks :=
  (h.mem _).2 (.inr ⟨p, rfl, rfl⟩)

/-- The task is gone once it has ended. -/
theorem task?_eq_none (h : Moved delay c t none kinds c') :
    c'.debouncer.task? t.generation = none := by
  refine List.find?_eq_none.2 fun u hu => ?_
  rcases (h.mem u).1 hu with ⟨-, hg⟩ | ⟨p, hp, -⟩
  · simpa using hg
  · exact absurd hp (by simp)

theorem eq_of_move_none (h : Moved delay c t none kinds c') :
    c'.debouncer.move t.generation = c'.debouncer := by
  rw [Debouncer.move, h.task?_eq_none]

end Moved

namespace Consistent

/-- One step, as one of several that are put together. -/
theorem moved (h : c.Consistent delay) (ht : t ∈ c.debouncer.tasks)
    (hmove : c.canMove delay t = true) :
    ∃ c', c'.debouncer = c.debouncer.move t.generation
      ∧ Moved delay c t (next? c.debouncer t) (c.occurs t) c' := by
  have htask := (task?_eq_some_iff h.ordered.nodup).2 ⟨ht, rfl⟩
  refine ⟨c.move t, by rw [Debouncer.move, htask]; rfl, ?_⟩
  exact {
    reaches := .of_take (h.take_move ht hmove) (by simp)
    clock := rfl
    mem := fun u => h.ordered.mem_step ht (canMove_waiting hmove)
    history := rfl
    uncalled := fun _ => kind_ne_of_mem_occurs }

theorem isNewest_move (h : c.Consistent delay) (ht : t ∈ c.debouncer.tasks)
    (hp : ∀ l, t.phase ≠ .done l) (p : Phase) :
    (c.debouncer.move t.generation).isNewest { t with phase := p } = c.debouncer.isNewest t := by
  have htask := (task?_eq_some_iff h.ordered.nodup).2 ⟨ht, rfl⟩
  have hnewest : (c.debouncer.move t.generation).newest = c.debouncer.newest := by
    rw [Debouncer.move, htask]
    exact (newest_step c.debouncer t).resolve_right fun ⟨⟨l, hl⟩, _⟩ => hp l hl
  rw [isNewest, hnewest]
  rfl

/-- A sleeper whose time is up joins the line for its lock, or ends. -/
theorem wake (h : c.Consistent delay) (ht : t ∈ c.debouncer.tasks) (hp : t.phase = .sleeping)
    (htime : c.history.alarm delay t.generation ≤ c.clock) :
    ∃ c', c'.debouncer = c.debouncer.wake t.generation
      ∧ ((∃ l, Moved delay c t (some (.waiting l)) [.woke true] c')
        ∨ Moved delay c t none [.answered false, .woke false] c') := by
  have htask := (task?_eq_some_iff h.ordered.nodup).2 ⟨ht, rfl⟩
  have hwake : c.debouncer.wake t.generation
      = (c.debouncer.move t.generation).move t.generation := by
    simp only [Debouncer.wake, htask, Option.map_some, hp]
  obtain ⟨c₁, heq₁, h₁⟩ := h.moved ht (by simpa [canMove, hp] using htime)
  rw [hwake, ← heq₁]
  cases hnewest : c.debouncer.isNewest t with
  | true =>
    simp only [next?, occurs, hp, hnewest, if_true] at h₁
    obtain ⟨c₂, heq₂, h₂⟩ := (h₁.consistent h).moved h₁.self_mem (by simp [canMove])
    exact ⟨c₂, heq₂, .inl ⟨_, h₁.trans h₂⟩⟩
  | false =>
    simp only [next?, occurs, hp, hnewest, Bool.false_eq_true, if_false] at h₁
    exact ⟨c₁, h₁.eq_of_move_none.symm, .inr h₁⟩

/-- A task that is first in line for a free lock begins its work, or ends. -/
theorem enter (h : c.Consistent delay) (ht : t ∈ c.debouncer.tasks) {l : Nat}
    (hp : t.phase = .waiting l) (hfree : c.debouncer.isHeld l = false)
    (hfirst : c.debouncer.first? l = some t) :
    ∃ c', c'.debouncer = c.debouncer.enter t.generation
      ∧ (Moved delay c t (some (.running l)) [.started] c'
        ∨ Moved delay c t none [.answered false, .refused] c') := by
  have htask := (task?_eq_some_iff h.ordered.nodup).2 ⟨ht, rfl⟩
  obtain ⟨c₁, heq₁, h₁⟩ := h.moved ht (by simp [canMove, hp, hfree])
  simp only [next?, occurs, hp] at h₁
  obtain ⟨c₂, heq₂, h₂⟩ := (h₁.consistent h).moved h₁.self_mem (by simp [canMove])
  have hsame := h.isNewest_move ht (by simp [hp]) (.admitted l)
  rw [← heq₁] at hsame
  simp only [next?, occurs, hsame] at h₂
  simp only at heq₂
  cases hnewest : c.debouncer.isNewest t with
  | true =>
    simp only [hnewest, if_true] at h₂
    refine ⟨c₂, ?_, .inl (h₁.trans h₂)⟩
    simp [Debouncer.enter, htask, hp, hfree, hfirst, hnewest, heq₂, heq₁]
  | false =>
    simp only [hnewest, Bool.false_eq_true, if_false] at h₂
    -- it was overtaken, so it gives the lock back and ends
    have hc₂ := h₂.consistent (h₁.consistent h)
    obtain ⟨c₃, heq₃, h₃⟩ := hc₂.moved h₂.self_mem (by simp [canMove])
    obtain ⟨c₄, heq₄, h₄⟩ := (h₃.consistent hc₂).moved h₃.self_mem (by simp [canMove])
    refine ⟨c₄, ?_, .inr (((h₁.trans h₂).trans h₃).trans h₄)⟩
    simp only at heq₃ heq₄
    simp [Debouncer.enter, htask, hp, hfree, hfirst, hnewest, heq₄, heq₃, heq₂, heq₁]

/-- A task whose work is done ends. -/
theorem finish (h : c.Consistent delay) (ht : t ∈ c.debouncer.tasks) {l : Nat}
    (hp : t.phase = .running l) :
    ∃ c', c'.debouncer = c.debouncer.finish t.generation
      ∧ Moved delay c t none [.answered true, .ended] c' := by
  have htask := (task?_eq_some_iff h.ordered.nodup).2 ⟨ht, rfl⟩
  obtain ⟨c₁, heq₁, h₁⟩ := h.moved ht (by simp [canMove, hp])
  simp only [next?, occurs, hp] at h₁
  have hc₁ := h₁.consistent h
  obtain ⟨c₂, heq₂, h₂⟩ := hc₁.moved h₁.self_mem (by simp [canMove])
  have hc₂ := h₂.consistent hc₁
  obtain ⟨c₃, heq₃, h₃⟩ := hc₂.moved h₂.self_mem (by simp [canMove])
  have hc₃ := h₃.consistent hc₂
  obtain ⟨c₄, heq₄, h₄⟩ := hc₃.moved h₃.self_mem (by simp [canMove])
  obtain ⟨c₅, heq₅, h₅⟩ := (h₄.consistent hc₃).moved h₄.self_mem (by simp [canMove])
  refine ⟨c₅, ?_, (((h₁.trans h₂).trans h₃).trans h₄).trans h₅⟩
  simp only at heq₂ heq₃ heq₄ heq₅
  simp only [Debouncer.finish, htask, Option.map_some, hp, heq₅, heq₄, heq₃, heq₂, heq₁]

end Consistent

/-! ### Weights -/

/-- The sum of the weights of all tasks. -/
def weight (w : Phase → Nat) (c : Clockwork K) : Nat :=
  (c.debouncer.tasks.map fun t => w t.phase).sum

/-- Only the weight of the task that moves changes. -/
theorem Moved.weight (h : Moved delay c t p? kinds c') (hc : c.Consistent delay)
    (ht : t ∈ c.debouncer.tasks) (w : Phase → Nat) :
    c'.weight w + w t.phase = c.weight w + (p?.map w).getD 0 := by
  have hnodup := hc.ordered.nodup.of_map
  have hnodup' := (h.consistent hc).ordered.nodup.of_map
  have hothers : (c.debouncer.others t.generation).Nodup := hnodup.filter _
  have hmem (u : Task K) : u ∈ c.debouncer.others t.generation
      ↔ u ∈ c.debouncer.tasks ∧ u.generation ≠ t.generation := by
    simp [others]
  -- both lists are the other tasks, with the one that moves before and after
  have hperm : c.debouncer.tasks.Perm (t :: c.debouncer.others t.generation) := by
    refine (List.perm_ext_iff_of_nodup hnodup (List.nodup_cons.2 ⟨?_, hothers⟩)).2 fun u => ?_
    · simp [hmem]
    · rw [List.mem_cons, hmem]
      constructor
      · intro hu
        by_cases hg : u.generation = t.generation
        · exact .inl (hc.ordered.eq_of_generation hu ht hg)
        · exact .inr ⟨hu, hg⟩
      · rintro (rfl | ⟨hu, -⟩)
        · exact ht
        · exact hu
  have hsum := (hperm.map fun u => w u.phase).sum_eq
  rw [List.map_cons, List.sum_cons] at hsum
  cases p? with
  | none =>
    have hperm' : c'.debouncer.tasks.Perm (c.debouncer.others t.generation) := by
      refine (List.perm_ext_iff_of_nodup hnodup' hothers).2 fun u => ?_
      simp [h.mem, hmem]
    have hsum' := (hperm'.map fun u => w u.phase).sum_eq
    simp only [weight, Option.map_none, Option.getD_none]
    omega
  | some p =>
    have hperm' : c'.debouncer.tasks.Perm ({ t with phase := p } :: c.debouncer.others t.generation) := by
      refine (List.perm_ext_iff_of_nodup hnodup' (List.nodup_cons.2 ⟨?_, hothers⟩)).2 fun u => ?_
      · simp [hmem]
      · rw [h.mem, List.mem_cons, hmem]
        simp [or_comm]
    have hsum' := (hperm'.map fun u => w u.phase).sum_eq
    simp only [List.map_cons, List.sum_cons] at hsum'
    simp only [weight, Option.map_some, Option.getD_some]
    omega

end Clockwork

end ElementLens.Debouncer
