/-
What is left behind.

A task that is overtaken ends without tidying up, so it is up to the newest task of a key
to forget the newest generation and the lock. The generation is always forgotten: nobody
else can forget it, and whoever works is the newest and does. The lock is not. If a task
has looked and is overtaken by a whole other one before it joins the line, it makes a lock
that nobody drops. As long as work does not break down, and whoever gives a lock back ends
before anything else is done:

* **`Kept.step`** — the newest generation of a key is that of a task which works for it yet;
* **`Locked.step`** — a lock of which nobody has need was left by a task that was overtaken;
* **`Heeded.step`** — if the line is in order, a newer task comes behind such a task;
* **`Crowd.lock_left_behind_iff`** — so a lock is left behind if and only if the last task
  of its key to leave was overtaken, which does not happen if turns are taken in line.
-/
import Mathlib.Data.List.Induction
import ElementLens.Proofs.Debounce.Line

namespace ElementLens.Debouncer

/-- Whether a task has not yet forgotten that it is the newest, if it is. -/
def Phase.isUnsettled : Phase → Bool
  | .sleeping | .due | .waiting _ | .admitted _ | .running _ | .done _ => true
  | .settled _ | .leaving _ _ | .released _ _ => false

/-- Whether a task has nothing left to do but to end. -/
def Phase.isSpent : Phase → Bool
  | .leaving _ _ | .released _ _ => true
  | .sleeping | .due | .waiting _ | .admitted _ | .running _ | .done _ | .settled _ => false

/-- Whether a task has given its lock back. -/
def Phase.isReleased : Phase → Bool
  | .released _ _ => true
  | .sleeping | .due | .waiting _ | .admitted _ | .running _ | .done _ | .settled _
  | .leaving _ _ => false

variable {K : Type} [DecidableEq K]

/-- How a task leaves by its next step, if it does: having done its work, or overtaken. -/
def leaves? (d : Debouncer K) (t : Task K) : Option Bool :=
  match next? d t with
  | some (.leaving _ ran) => some ran
  | _ => none

section Steps

variable {d : Debouncer K} {t u : Task K} {g l : Nat} {p : Phase} {k : K}
  {left : K → Option Bool}

/-! ### Steps of one task -/

/-- What is there after a step: the other tasks, and the one that has moved unless it ended.
A task that waits for a lock may have to go on waiting. -/
theorem step_cases (hd : d.Ordered) (ht : t ∈ d.tasks) :
    (d.step t = d ∧ ∃ l, t.phase = .waiting l)
      ∨ ∀ u, u ∈ (d.step t).tasks ↔ (u ∈ d.tasks ∧ u.generation ≠ t.generation)
        ∨ ∃ p, next? d t = some p ∧ u = { t with phase := p } := by
  by_cases hfree : ∀ l, t.phase = .waiting l → d.isHeld l = false
  · exact .inr fun u => hd.mem_step ht hfree
  · push Not at hfree
    obtain ⟨l, hp, hheld⟩ := hfree
    have hheld : d.isHeld l = true := by simpa using hheld
    refine .inl ⟨?_, l, hp⟩
    rw [step, hp]
    simp only [hheld, if_true]

theorem generation_ne (hd : d.Ordered) (ht : t ∈ d.tasks) (hu : u ∈ d.tasks) (hne : u ≠ t) :
    u.generation ≠ t.generation := fun hg => hne (hd.eq_of_generation hu ht hg)

theorem isNewest_iff : d.isNewest t = true ↔ lookup d.newest t.key = some t.generation := by
  rw [isNewest, beq_iff_eq]

theorem isUnsettled_of_next? (h : next? d t = some p) (hp : p.isUnsettled = true) :
    t.phase.isUnsettled = true := by
  unfold next? at h
  cases hphase : t.phase <;> simp_all [Phase.isUnsettled]
  all_goals rw [← h] at hp; exact absurd hp (by simp)

/-! ### The newest generations -/

/-- The newest generation of a key is that of a task that has not forgotten it yet. -/
def Kept (d : Debouncer K) : Prop :=
  ∀ k g, lookup d.newest k = some g →
    ∃ t ∈ d.tasks, t.key = k ∧ t.generation = g ∧ t.phase.isUnsettled

namespace Kept

theorem record (h : d.Kept) (g : Nat) (k : K) : (d.record g k).Kept := by
  intro j n hn
  rw [Debouncer.record, lookup_insert] at hn
  split at hn
  · next hj =>
    obtain rfl := Option.some.inj hn
    exact ⟨⟨g, k, .sleeping⟩, mem_record.2 (.inr rfl), hj.symm, rfl, rfl⟩
  · obtain ⟨t, ht, hrest⟩ := h j n hn
    exact ⟨t, mem_record.2 (.inl ht), hrest⟩

/-- A task that is the newest goes on until it has done its work, and then forgets that it
is. -/
theorem exists_next? (hnewest : d.isNewest t = true) (hp : t.phase.isUnsettled = true) :
    (∃ p, next? d t = some p ∧ p.isUnsettled = true) ∨ ∃ l, t.phase = .done l := by
  unfold next?
  cases hphase : t.phase <;> simp_all [Phase.isUnsettled]

/-- **Every step keeps the newest generations kept.** -/
theorem step (h : d.Kept) (hd : d.Ordered) (ht : t ∈ d.tasks) : (d.step t).Kept := by
  rcases step_cases hd ht with ⟨heq, -⟩ | hmem
  · rwa [heq]
  intro k g hg
  have hold : lookup d.newest k = some g := ages_step d t k g hg
  obtain ⟨u, hu, hkey, rfl, hp⟩ := h k g hold
  by_cases hut : u = t
  · obtain rfl := hut
    rw [← hkey] at hold hg
    have hnewest := isNewest_iff.2 hold
    obtain ⟨p, hnext, hunsettled⟩ | ⟨l, hdone⟩ := exists_next? hnewest hp
    · exact ⟨_, (hmem _).2 (.inr ⟨p, hnext, rfl⟩), hkey, rfl, hunsettled⟩
    · -- once its work is done the task forgets its generation
      rw [Debouncer.step, hdone] at hg
      simp only [forgetNewest, hold, if_true, Debouncer.advance, lookup_erase] at hg
      exact absurd hg (by simp)
  · exact ⟨u, (hmem u).2 (.inl ⟨hu, generation_ne hd ht hu hut⟩), hkey, rfl, hp⟩

end Kept

/-! ### The locks -/

/-- Somebody contends for the lock of a key. -/
def IsContended (d : Debouncer K) (k : K) : Prop :=
  ∃ t ∈ d.tasks, t.key = k ∧ t.phase.contended? ≠ none

/-- A key has a lock if somebody contends for it, and if the last one who left was overtaken.
It does not matter how anybody left before. -/
structure Locked (d : Debouncer K) (left : K → Option Bool) : Prop where
  held : ∀ k, lookup d.locks k ≠ none → d.IsContended k ∨ left k = some false
  free : ∀ k, lookup d.locks k = none → left k ≠ some false

theorem locks_forgetLock (hlock : lookup d.locks k = some l) :
    (d.forgetLock k).locks = if d.holders l = 1 then erase d.locks k else d.locks := by
  rw [forgetLock, hlock]
  simp only
  split <;> rfl

/-- Locks are made by tasks that have looked, and dropped by those that settle. -/
theorem locks_step (hdue : t.phase ≠ .due) (hsettled : ∀ l, t.phase ≠ .settled l) :
    (d.step t).locks = d.locks := by
  unfold step
  cases hp : t.phase with
  | due => exact absurd hp hdue
  | settled l => exact absurd hp (hsettled l)
  | sleeping | waiting l => simp only; split <;> rfl
  | done l => simp only [forgetNewest]; split <;> rfl
  | admitted l | running l | leaving l ran | released l ran => rfl

/-- Once a task has joined the line, its key has a lock. -/
theorem lookup_locks_join (d : Debouncer K) (t : Task K) :
    lookup (d.join t).locks t.key ≠ none := by
  unfold join
  split
  · next l hlock => simp [queue, hlock]
  · simp [queue, lookup_insert]

/-- A step of a task makes and drops locks of its own key only. -/
theorem lookup_locks_step (d : Debouncer K) (t : Task K) (hk : k ≠ t.key) :
    lookup (d.step t).locks k = lookup d.locks k := by
  by_cases hdue : t.phase = .due
  · rw [step, hdue]
    simp only [join]
    split
    · rfl
    · simp only [queue, lookup_insert, if_neg hk]
  by_cases hsettled : ∃ l, t.phase = .settled l
  · obtain ⟨l, hsettled⟩ := hsettled
    rw [step, hsettled]
    simp only [advance, forgetLock]
    split
    · rfl
    · split
      · simp only [lookup_erase, if_neg hk]
      · rfl
  · push Not at hsettled
    rw [locks_step hdue hsettled]

/-- Only who contends for a lock leaves. -/
theorem leaves?_eq_none (h : t.phase.contended? = none) : d.leaves? t = none := by
  unfold leaves? next?
  cases hp : t.phase with
  | sleeping => by_cases hnewest : d.isNewest t = true <;> simp [hnewest]
  | due | leaving l ran | released l ran => rfl
  | waiting l | admitted l | running l | done l | settled l => simp [hp, Phase.contended?] at h

/-- Unless a task is the only one that holds on to its lock, somebody else does. -/
theorem exists_other_holder (hd : d.Ordered) (ht : t ∈ d.tasks) (hl : t.phase.lock? = some l)
    (hholders : d.holders l ≠ 1) : ∃ u ∈ d.tasks, u ≠ t ∧ u.phase.lock? = some l := by
  by_contra hnone
  push Not at hnone
  have hnodup : (d.tasks.filter fun t => t.phase.lock? == some l).Nodup := hd.nodup.of_map.filter _
  have hall : ∀ u ∈ d.tasks.filter fun t => t.phase.lock? == some l, u = t := by
    intro u hu
    obtain ⟨hu, hul⟩ := List.mem_filter.1 hu
    by_contra hne
    exact hnone u hu hne (by simpa using hul)
  have hpos : 0 < d.holders l := List.length_pos_of_mem (List.mem_filter.2 ⟨ht, by simp [hl]⟩)
  rw [List.eq_replicate_of_mem hall, List.nodup_replicate] at hnodup
  have hle : d.holders l ≤ 1 := hnodup
  omega

/-- If others hold on to the lock of a task that has settled, one of them waits for it, unless
one has given it back. -/
theorem exists_waiting (hd : d.Ordered) (ht : t ∈ d.tasks) (hp : t.phase = .settled l)
    (hunreleased : ∀ u ∈ d.tasks, u.phase.isReleased = false) (hholders : d.holders l ≠ 1) :
    ∃ u ∈ d.tasks, u ≠ t ∧ u.key = t.key ∧ u.phase = .waiting l := by
  obtain ⟨u, hu, hne, hul⟩ := exists_other_holder hd ht (by rw [hp]; rfl) hholders
  have hheld : u.phase.held? ≠ some l := fun hheld =>
    hne (hd.exclusive u hu t ht l hheld (by rw [hp]; rfl))
  have hwaiting : u.phase = .waiting l := by
    have hnot := hunreleased u hu
    cases hphase : u.phase <;> simp_all [Phase.lock?, Phase.held?, Phase.isReleased]
  refine ⟨u, hu, hne, ?_, hwaiting⟩
  exact hd.lock_inj _ _ l (hd.contended u hu l (by rw [hwaiting]; rfl))
    (hd.contended t ht l (by rw [hp]; rfl))

/-- Whoever else contends for a lock still does after a step. -/
theorem isContended_step (hd : d.Ordered) (ht : t ∈ d.tasks) (hu : u ∈ d.tasks) (hne : u ≠ t)
    (hc : u.phase.contended? ≠ none) : (d.step t).IsContended u.key := by
  rcases step_cases hd ht with ⟨heq, -⟩ | hmem
  · rw [heq]
    exact ⟨u, hu, rfl, hc⟩
  · exact ⟨u, (hmem u).2 (.inl ⟨hu, generation_ne hd ht hu hne⟩), rfl, hc⟩

/-- So does the task that takes the step, if it comes to. -/
theorem isContended_step_self (hd : d.Ordered) (ht : t ∈ d.tasks) (hnext : next? d t = some p)
    (hc : p.contended? ≠ none) : (d.step t).IsContended t.key := by
  rcases step_cases hd ht with ⟨heq, l, hp⟩ | hmem
  · rw [heq]
    exact ⟨t, ht, rfl, by simp [hp, Phase.contended?]⟩
  · exact ⟨_, (hmem _).2 (.inr ⟨p, hnext, rfl⟩), rfl, hc⟩

namespace Locked

theorem empty : (Debouncer.empty : Debouncer K).Locked fun _ => none where
  held := by simp [Debouncer.empty, lookup]
  free := by simp

/-- Tasks that begin to sleep change nothing. -/
theorem more {d' : Debouncer K} (h : d.Locked left) (hlocks : d'.locks = d.locks)
    (htasks : d.tasks ⊆ d'.tasks) : d'.Locked left where
  held k hk := (h.held k (hlocks ▸ hk)).imp_left fun ⟨u, hu, hrest⟩ => ⟨u, htasks hu, hrest⟩
  free k hk := h.free k (hlocks ▸ hk)

/-- A lock that the key of a task has after its step is still there for somebody, or the last
one who left was overtaken. -/
theorem held_step (h : d.Locked left) (hd : d.Ordered) (ht : t ∈ d.tasks)
    (hunreleased : ∀ l, t.phase = .settled l → ∀ u ∈ d.tasks, u.phase.isReleased = false)
    (hk : lookup (d.step t).locks t.key ≠ none) :
    (d.step t).IsContended t.key ∨ (d.leaves? t).or (left t.key) = some false := by
  have hself (p : Phase) (hnext : next? d t = some p) (hp : p.contended? ≠ none) :=
    isContended_step_self hd ht hnext hp
  cases hp : t.phase with
  | sleeping | leaving l ran | released l ran =>
    have hnot : t.phase.contended? = none := by rw [hp]; rfl
    rw [locks_step (by simp [hp]) (by simp [hp])] at hk
    rw [leaves?_eq_none hnot, Option.none_or]
    refine (h.held _ hk).imp_left fun hcontended => ?_
    obtain ⟨u, hu, hkey, huc⟩ := hcontended
    exact hkey ▸ isContended_step hd ht hu (fun heq => huc (heq ▸ hnot)) huc
  | due =>
    exact .inl (hself (.waiting ((lookup d.locks t.key).getD d.nextLock))
      (by simp only [next?, hp]) (by simp [Phase.contended?]))
  | waiting l =>
    exact .inl (hself (.admitted l) (by simp only [next?, hp]) (by simp [Phase.contended?]))
  | running l =>
    exact .inl (hself (.done l) (by simp only [next?, hp]) (by simp [Phase.contended?]))
  | done l =>
    exact .inl (hself (.settled l) (by simp only [next?, hp]) (by simp [Phase.contended?]))
  | admitted l =>
    by_cases hnewest : d.isNewest t = true
    · exact .inl (hself (.running l) (by simp only [next?, hp, if_pos hnewest])
        (by simp [Phase.contended?]))
    · exact .inr (by simp [leaves?, next?, hp, hnewest])
  | settled l =>
    -- the lock is still there because somebody waits for it
    rw [Debouncer.step, hp] at hk
    have hk : lookup (d.forgetLock t.key).locks t.key ≠ none := hk
    rw [locks_forgetLock (hd.contended t ht l (by rw [hp]; rfl))] at hk
    split at hk
    · exact absurd (by rw [lookup_erase, if_pos rfl]) hk
    · next hholders =>
      obtain ⟨u, hu, hne, hukey, hup⟩ := exists_waiting hd ht hp (hunreleased l hp) hholders
      exact .inl (hukey ▸ isContended_step hd ht hu hne (by simp [hup, Phase.contended?]))

/-- If the key of a task has no lock after its step, the last one who left was not
overtaken. -/
theorem free_step (h : d.Locked left) (hd : d.Ordered) (ht : t ∈ d.tasks)
    (hk : lookup (d.step t).locks t.key = none) :
    (d.leaves? t).or (left t.key) ≠ some false := by
  by_cases hdue : t.phase = .due
  · rw [Debouncer.step, hdue] at hk
    exact absurd hk (lookup_locks_join d t)
  by_cases hsettled : ∃ l, t.phase = .settled l
  · obtain ⟨l, hsettled⟩ := hsettled
    simp [leaves?, next?, hsettled]
  -- a key without a lock has nobody who might leave overtaken
  push Not at hsettled
  rw [locks_step hdue hsettled] at hk
  have hnot : t.phase.contended? = none := by
    by_contra hc
    obtain ⟨l, hc⟩ := Option.ne_none_iff_exists'.1 hc
    rw [hd.contended t ht l hc] at hk
    exact absurd hk (by simp)
  rw [leaves?_eq_none hnot, Option.none_or]
  exact h.free _ hk

/-- **Every step keeps track of the locks**, unless a lock is dropped while somebody has given
it back but has not ended. -/
theorem step (h : d.Locked left) (hd : d.Ordered) (ht : t ∈ d.tasks)
    (hunreleased : ∀ l, t.phase = .settled l → ∀ u ∈ d.tasks, u.phase.isReleased = false) :
    (d.step t).Locked fun k => if t.key = k then (d.leaves? t).or (left k) else left k where
  held k hk := by
    by_cases hkey : t.key = k
    · obtain rfl := hkey
      rw [if_pos rfl]
      exact h.held_step hd ht hunreleased hk
    · rw [lookup_locks_step d t (Ne.symm hkey)] at hk
      rw [if_neg hkey]
      refine (h.held k hk).imp_left fun hcontended => ?_
      obtain ⟨u, hu, rfl, huc⟩ := hcontended
      exact isContended_step hd ht hu (fun heq => hkey (heq ▸ rfl)) huc
  free k hk := by
    by_cases hkey : t.key = k
    · obtain rfl := hkey
      rw [if_pos rfl]
      exact h.free_step hd ht hk
    · rw [lookup_locks_step d t (Ne.symm hkey)] at hk
      rw [if_neg hkey]
      exact h.free k hk

end Locked

/-! ### The line -/

/-- If the newest task of a key has done its work, all others of the key that are not settled
sleep: whatever has looked since would be newer, and what has the lock is no other task. -/
theorem InLine.sleeping_of_done (hline : d.InLine) (ht : t ∈ d.tasks) (hp : t.phase = .done l)
    (hnewest : lookup d.newest t.key = some t.generation) (hu : u ∈ d.tasks)
    (hkey : t.key = u.key) (hne : t ≠ u) (hup : u.phase.isUnsettled = true) :
    u.phase = .sleeping := by
  have hdue : u.phase ≠ .due := fun hdue =>
    hline.due t ht u hu hkey hne (by simp [hp]) hdue hnewest
  have hwaiting (l' : Nat) : u.phase ≠ .waiting l' := fun hwaiting =>
    hline.held t ht u hu hkey (by simp [hp, Phase.held?]) (by simp [hwaiting, Phase.awaited?])
      hnewest
  have hheld (l' : Nat) (hc : u.phase.contended? = some l') : u.phase.held? ≠ some l' := fun hh =>
    hne (hline.ordered.eq_of_held ht hu hkey (by rw [hp]; rfl) hc (by rw [hp]; rfl) hh)
  cases hphase : u.phase <;> simp_all [Phase.contended?, Phase.held?, Phase.isUnsettled]

/-- Once the newest generation of a key is forgotten, all tasks of the key sleep or have
settled, and if the last one who left was overtaken, somebody is about to drop the lock. -/
structure Heeded (d : Debouncer K) (left : K → Option Bool) : Prop where
  forgotten : ∀ t ∈ d.tasks, lookup d.newest t.key = none → t.phase.isUnsettled →
    t.phase = .sleeping
  heeded : ∀ k, left k = some false → lookup d.newest k = none →
    ∃ t ∈ d.tasks, t.key = k ∧ ∃ l, t.phase = .settled l

namespace Heeded

theorem empty : (Debouncer.empty : Debouncer K).Heeded fun _ => none where
  forgotten := by simp [Debouncer.empty]
  heeded := by simp

theorem record (h : d.Heeded left) (g : Nat) (k : K) : (d.record g k).Heeded left where
  forgotten u hu hnone hup := by
    rw [Debouncer.record, lookup_insert] at hnone
    split at hnone
    · exact absurd hnone (by simp)
    · rcases mem_record.1 hu with hu | rfl
      · exact h.forgotten u hu hnone hup
      · rfl
  heeded j hj hnone := by
    rw [Debouncer.record, lookup_insert] at hnone
    split at hnone
    · exact absurd hnone (by simp)
    · obtain ⟨u, hu, hrest⟩ := h.heeded j hj hnone
      exact ⟨u, mem_record.2 (.inl hu), hrest⟩

/-- A task that goes on although nothing is the newest of its key has settled. -/
theorem not_isUnsettled (h : d.Heeded left) (ht : t ∈ d.tasks)
    (hnone : lookup d.newest t.key = none) (hnext : next? d t = some p) :
    t.phase.isUnsettled ≠ true := by
  intro hup
  have hp := h.forgotten t ht hnone hup
  simp [next?, hp, isNewest, hnone] at hnext

/-- A task that has settled stays where it is while another one moves. -/
theorem exists_settled_step (hd : d.Ordered) (ht : t ∈ d.tasks)
    (hsettled : ∃ u ∈ d.tasks, u.key = k ∧ ∃ l, u.phase = .settled l)
    (hnot : ∀ l, t.key = k → t.phase ≠ .settled l) :
    ∃ u ∈ (d.step t).tasks, u.key = k ∧ ∃ l, u.phase = .settled l := by
  rcases step_cases hd ht with ⟨heq, -⟩ | hmem
  · rwa [heq]
  obtain ⟨u, hu, hkey, l, hup⟩ := hsettled
  refine ⟨u, (hmem u).2 (.inl ⟨hu, generation_ne hd ht hu ?_⟩), hkey, l, hup⟩
  rintro rfl
  exact hnot l hkey hup

/-- A step that forgets no generation is heeded. -/
theorem step_of_newest (h : d.Heeded left) (hd : d.Ordered) (ht : t ∈ d.tasks)
    (hsame : (d.step t).newest = d.newest) :
    (d.step t).Heeded fun k => if t.key = k then (d.leaves? t).or (left k) else left k where
  forgotten u hu hnone hup := by
    rw [hsame] at hnone
    rcases step_cases hd ht with ⟨heq, -⟩ | hmem
    · exact h.forgotten u (heq ▸ hu) hnone hup
    · rcases (hmem u).1 hu with ⟨hu, -⟩ | ⟨p, hnext, rfl⟩
      · exact h.forgotten u hu hnone hup
      · exact absurd (isUnsettled_of_next? hnext hup) (h.not_isUnsettled ht hnone hnext)
  heeded k hk hnone := by
    rw [hsame] at hnone
    by_cases hkey : t.key = k
    · obtain rfl := hkey
      rw [if_pos rfl] at hk
      by_cases hup : t.phase.isUnsettled = true
      · -- a task that has looked would find that something is the newest
        have hp := h.forgotten t ht hnone hup
        rw [leaves?_eq_none (by rw [hp]; rfl), Option.none_or] at hk
        exact exists_settled_step hd ht (h.heeded _ hk hnone) (by simp [hp])
      · cases hp : t.phase with
        | sleeping | due | waiting l | admitted l | running l | done l =>
          exact absurd (by rw [hp]; rfl) hup
        | settled l => simp [leaves?, next?, hp] at hk
        | leaving l ran | released l ran =>
          rw [leaves?_eq_none (by rw [hp]; rfl), Option.none_or] at hk
          exact exists_settled_step hd ht (h.heeded _ hk hnone) (by simp [hp])
    · rw [if_neg hkey] at hk
      exact exists_settled_step hd ht (h.heeded k hk hnone) fun _ heq => absurd heq hkey

/-- So is one by which a task forgets that it is the newest, as long as the line is in
order. -/
theorem step_of_erase (h : d.Heeded left) (hline : d.InLine) (ht : t ∈ d.tasks)
    (hp : t.phase = .done l) (hnewest : lookup d.newest t.key = some t.generation)
    (herase : (d.step t).newest = erase d.newest t.key) :
    (d.step t).Heeded fun k => if t.key = k then (d.leaves? t).or (left k) else left k := by
  have hd := hline.ordered
  have hnext : next? d t = some (.settled l) := by simp only [next?, hp]
  rcases step_cases hd ht with ⟨-, l', hwaiting⟩ | hmem
  · simp [hp] at hwaiting
  constructor
  · intro u hu hnone hup
    rw [herase, lookup_erase] at hnone
    rcases (hmem u).1 hu with ⟨hu, hug⟩ | ⟨p, hp', rfl⟩
    · split at hnone
      · next hkey =>
        exact hline.sleeping_of_done ht hp hnewest hu hkey.symm (fun heq => hug (heq ▸ rfl)) hup
      · exact h.forgotten u hu hnone hup
    · rw [hnext] at hp'
      obtain rfl := Option.some.inj hp'
      simp [Phase.isUnsettled] at hup
  · intro k hk hnone
    by_cases hkey : t.key = k
    · exact ⟨_, (hmem _).2 (.inr ⟨_, hnext, rfl⟩), hkey, l, rfl⟩
    · rw [herase, lookup_erase, if_neg (Ne.symm hkey)] at hnone
      rw [if_neg hkey] at hk
      exact exists_settled_step hd ht (h.heeded k hk hnone) fun _ heq => absurd heq hkey

/-- **Every step is heeded**, as long as the line is in order. -/
theorem step (h : d.Heeded left) (hline : d.InLine) (ht : t ∈ d.tasks) :
    (d.step t).Heeded fun k => if t.key = k then (d.leaves? t).or (left k) else left k := by
  rcases newest_step d t with hsame | ⟨⟨l, hp⟩, hnewest, herase⟩
  · exact h.step_of_newest hline.ordered ht hsame
  · exact h.step_of_erase hline ht hp hnewest herase

end Heeded

end Steps

/-! ### Runs -/

theorem eq_nil_of_lookup {table : List (K × Nat)} (h : ∀ k, lookup table k = none) :
    table = [] := by
  cases table with
  | nil => rfl
  | cons e rest => simpa [lookup] using h e.1

namespace Crowd

/-- The turns, each with what there is when it is taken. -/
def taken (c : Crowd K) : List (Turn K) → List (Crowd K × Turn K)
  | [] => []
  | turn :: turns => (c, turn) :: (c.take turn).taken turns

/-- Work does not break down, and a task that has given its lock back ends before anything
else is done. -/
def Whole (c : Crowd K) (turn : Turn K) : Prop :=
  ∀ t ∈ c.debouncer.tasks, turn ≠ .breakDown t.generation
    ∧ (t.phase.isReleased → turn = .move t.generation)

instance (c : Crowd K) : DecidablePred c.Whole := fun turn =>
  inferInstanceAs (Decidable (∀ t ∈ c.debouncer.tasks, turn ≠ .breakDown t.generation
    ∧ (t.phase.isReleased → turn = .move t.generation)))

/-- How a task of a key leaves in a turn, if one does. -/
def leaves? (c : Crowd K) (k : K) : Turn K → Option Bool
  | .move g => (c.debouncer.task? g).bind fun t =>
      if t.key = k then c.debouncer.leaves? t else none
  | .draw _ | .record _ | .breakDown _ => none

/-- How the tasks of a key have left, one after the other: having done their work, or
overtaken. -/
def leavings (c : Crowd K) (turns : List (Turn K)) (k : K) : List Bool :=
  (c.taken turns).filterMap fun e => e.1.leaves? k e.2

variable {c : Crowd K} {turn : Turn K} {turns : List (Turn K)} {left : K → Option Bool}

theorem taken_concat (c : Crowd K) (turns : List (Turn K)) (turn : Turn K) :
    c.taken (turns ++ [turn]) = c.taken turns ++ [(c.run turns, turn)] := by
  induction turns generalizing c with
  | nil => rfl
  | cons first turns ih => simp [taken, ih, run]

theorem run_concat (c : Crowd K) (turns : List (Turn K)) (turn : Turn K) :
    c.run (turns ++ [turn]) = (c.run turns).take turn := by
  rw [run, List.foldl_append, ← run]
  rfl

theorem getLast?_leavings_concat (c : Crowd K) (turns : List (Turn K)) (turn : Turn K) (k : K) :
    (c.leavings (turns ++ [turn]) k).getLast?
      = ((c.run turns).leaves? k turn).or (c.leavings turns k).getLast? := by
  rw [leavings, taken_concat, List.filterMap_append, List.getLast?_append, ← leavings]
  congr 1
  cases h : (c.run turns).leaves? k turn <;> simp [h]

/-- Who has left once a task has moved. -/
theorem or_leaves?_move (hd : c.debouncer.Ordered) {t : Task K} (ht : t ∈ c.debouncer.tasks) :
    (fun k => (c.leaves? k (.move t.generation)).or (left k))
      = fun k => if t.key = k then (c.debouncer.leaves? t).or (left k) else left k := by
  funext k
  rw [leaves?, (task?_eq_some_iff hd.nodup).2 ⟨ht, rfl⟩, Option.bind_some]
  split <;> simp

/-- What a turn does in which work does not break down: a task moves, or nobody leaves and at
most a call is recorded. -/
theorem take_cases (h : c.Orderly) (hwhole : c.Whole turn) :
    (∃ t ∈ c.debouncer.tasks, turn = .move t.generation
        ∧ (c.take turn).debouncer = c.debouncer.step t)
      ∨ (∀ k, c.leaves? k turn = none)
        ∧ ((∃ n, (c.take turn).debouncer = { c.debouncer with generation := n })
          ∨ ∃ g k, (c.take turn).debouncer = c.debouncer.record g k) := by
  cases turn with
  | draw k => exact .inr ⟨fun _ => rfl, .inl ⟨_, rfl⟩⟩
  | record g =>
    refine .inr ⟨fun _ => rfl, ?_⟩
    cases hlookup : c.drawn.lookup g with
    | none => exact .inl ⟨c.debouncer.generation, by simp only [take, hlookup]⟩
    | some k => exact .inr ⟨g, k, by simp only [take, hlookup]⟩
  | move g =>
    cases htask : c.debouncer.task? g with
    | none =>
      have hnone (k : K) : c.leaves? k (.move g) = none := by
        rw [leaves?, htask, Option.bind_none]
      exact .inr ⟨hnone, .inl ⟨c.debouncer.generation, by simp only [take, move, htask]⟩⟩
    | some t =>
      obtain ⟨ht, rfl⟩ := (task?_eq_some_iff h.ordered.nodup).1 htask
      exact .inl ⟨t, ht, rfl, by simp only [take, move, htask]⟩
  | breakDown g =>
    rcases breakDown_cases h.ordered g with heq | ⟨t, ht, rfl, -⟩
    · exact .inr ⟨fun _ => rfl, .inl ⟨c.debouncer.generation, by simp only [take, heq]⟩⟩
    · exact absurd rfl (hwhole t ht).1

/-- What is kept is accounted for, given how tasks have left. -/
structure Traced (c : Crowd K) (left : K → Option Bool) : Prop where
  orderly : c.Orderly
  kept : c.debouncer.Kept
  locked : c.debouncer.Locked left

/-- **Every turn is traced** in which work does not break down and whoever returns does so in
one go. -/
theorem Traced.take (h : c.Traced left) (hwhole : c.Whole turn) :
    (c.take turn).Traced fun k => (c.leaves? k turn).or (left k) := by
  have hd := h.orderly.ordered
  have hnext : (c.take turn).Orderly := h.orderly.take turn
  rcases take_cases h.orderly hwhole with
    ⟨t, ht, rfl, hstep⟩ | ⟨hnone, ⟨n, hsame⟩ | ⟨g, k, hrecord⟩⟩
  · rw [or_leaves?_move hd ht]
    refine ⟨hnext, hstep ▸ h.kept.step hd ht, hstep ▸ h.locked.step hd ht fun l hp u hu => ?_⟩
    -- whoever has given its lock back would be the one to move
    by_contra hreleased
    have hturn := (hwhole u hu).2 (by simpa using hreleased)
    obtain rfl := hd.eq_of_generation ht hu (by simpa using hturn)
    simp [hp, Phase.isReleased] at hreleased
  · simp only [hnone, Option.none_or]
    refine ⟨hnext, ?_, ?_⟩ <;> rw [hsame]
    · exact h.kept
    · exact h.locked.more rfl (List.Subset.refl _)
  · simp only [hnone, Option.none_or]
    refine ⟨hnext, ?_, ?_⟩ <;> rw [hrecord]
    · exact h.kept.record g k
    · exact h.locked.more rfl fun u hu => mem_record.2 (.inl hu)

theorem Traced.run (turns : List (Turn K)) (hwhole : ∀ e ∈ start.taken turns, e.1.Whole e.2) :
    (start.run turns).Traced fun k => (start.leavings turns k).getLast? := by
  induction turns using List.reverseRecOn with
  | nil => exact ⟨.start, fun k g hg => by simp [start, Crowd.run, empty, lookup] at hg, .empty⟩
  | append_singleton turns turn ih =>
    simp only [taken_concat, List.mem_append, List.mem_singleton] at hwhole
    simp only [run_concat, getLast?_leavings_concat]
    exact (ih fun e he => hwhole e (.inl he)).take (hwhole _ (.inr rfl))

/-- The line is in order, and who leaves is heeded. -/
structure Tidy (c : Crowd K) (left : K → Option Bool) : Prop where
  orderly : c.Orderly
  inLine : c.debouncer.InLine
  heeded : c.debouncer.Heeded left

/-- **Every turn in line leaves things tidy.** -/
theorem Tidy.take (h : c.Tidy left) (hwhole : c.Whole turn) (horder : c.InOrder turn)
    (hprompt : c.Prompt turn) : (c.take turn).Tidy fun k => (c.leaves? k turn).or (left k) := by
  refine ⟨h.orderly.take turn, inLine_take h.orderly h.inLine horder hprompt, ?_⟩
  rcases take_cases h.orderly hwhole with
    ⟨t, ht, rfl, hstep⟩ | ⟨hnone, ⟨n, hsame⟩ | ⟨g, k, hrecord⟩⟩
  · rw [or_leaves?_move h.orderly.ordered ht, hstep]
    exact h.heeded.step h.inLine ht
  · simp only [hnone, Option.none_or, hsame]
    exact ⟨h.heeded.forgotten, h.heeded.heeded⟩
  · simp only [hnone, Option.none_or, hrecord]
    exact h.heeded.record g k

theorem Tidy.run (turns : List (Turn K)) (hwhole : ∀ e ∈ start.taken turns, e.1.Whole e.2)
    (hline : ∀ e ∈ start.taken turns, e.1.InOrder e.2 ∧ e.1.Prompt e.2) :
    (start.run turns).Tidy fun k => (start.leavings turns k).getLast? := by
  induction turns using List.reverseRecOn with
  | nil => exact ⟨.start, .empty, .empty⟩
  | append_singleton turns turn ih =>
    simp only [taken_concat, List.mem_append, List.mem_singleton] at hwhole hline
    simp only [run_concat, getLast?_leavings_concat]
    obtain ⟨horder, hprompt⟩ := hline _ (.inr rfl)
    exact (ih (fun e he => hwhole e (.inl he)) fun e he => hline e (.inl he)).take
      (hwhole _ (.inr rfl)) horder hprompt

/-- **A lock is left behind if and only if the last to leave was overtaken.** Whatever turns
are taken, if work does not break down and tasks return in one go, an entry for the newest
call of a key is kept only as long as the task of that call has not settled. Once all tasks
are spent no entry is kept, and a lock just for the keys whose last task to leave was
overtaken. There are none if turns are taken in line. -/
theorem lock_left_behind_iff (turns : List (Turn K))
    (hwhole : ∀ e ∈ start.taken turns, e.1.Whole e.2) :
    let d := (start.run turns).debouncer
    (∀ k g, lookup d.newest k = some g →
        ∃ t ∈ d.tasks, t.key = k ∧ t.generation = g ∧ t.phase.isUnsettled)
      ∧ ((∀ t ∈ d.tasks, t.phase.isSpent) → d.newest = []
        ∧ (∀ k, lookup d.locks k ≠ none ↔ (start.leavings turns k).getLast? = some false)
        ∧ ((∀ e ∈ start.taken turns, e.1.InOrder e.2 ∧ e.1.Prompt e.2) → d.locks = [])) := by
  intro d
  have h : (start.run turns).Traced _ := Traced.run turns hwhole
  refine ⟨h.kept, fun hspent => ?_⟩
  have hnewest (k : K) : lookup d.newest k = none := by
    by_contra hsome
    obtain ⟨g, hg⟩ := Option.ne_none_iff_exists'.1 hsome
    obtain ⟨t, ht, -, -, hp⟩ := h.kept k g hg
    have := hspent t ht
    cases hphase : t.phase <;> simp_all [Phase.isSpent, Phase.isUnsettled]
  have hlocks (k : K) :
      lookup d.locks k ≠ none ↔ (start.leavings turns k).getLast? = some false := by
    constructor
    · -- whoever is spent contends for nothing
      refine fun hk => (h.locked.held k hk).resolve_left fun hcontended => ?_
      obtain ⟨t, ht, -, hc⟩ := hcontended
      have := hspent t ht
      cases hphase : t.phase <;> simp_all [Phase.isSpent, Phase.contended?]
    · exact fun hleft hnone => h.locked.free k hnone hleft
  refine ⟨eq_nil_of_lookup hnewest, hlocks, fun hline => eq_nil_of_lookup fun k => ?_⟩
  by_contra hsome
  obtain ⟨t, ht, -, l, hp⟩ := (Tidy.run turns hwhole hline).heeded.heeded k ((hlocks k).1 hsome)
    (hnewest k)
  exact absurd (hspent t ht) (by simp [hp, Phase.isSpent])

/-- The first task has looked and is overtaken by a whole second one before it joins the line.
Then it makes a lock, and leaves. -/
def late : List (Turn String) :=
  [.draw "a", .record 1, .move 1, .draw "a", .record 2, .move 2, .move 2, .move 2, .move 2,
    .move 2, .move 2, .move 2, .move 2, .move 2, .move 1, .move 1, .move 1, .move 1, .move 1]

/-- A lock is left behind though no task is left, nothing has broken down, all tasks have
returned in one go, and the lock always went to the first in line. -/
theorem lock_left_behind :
    (∀ e ∈ start.taken late, e.1.Whole e.2 ∧ e.1.InOrder e.2)
      ∧ (start.run late).debouncer = ⟨2, [], [("a", 1)], 2, []⟩ := by
  decide

/-- Three calls for one key, in line: two more tasks wait while the first one is at work, so
that the second one is overtaken. -/
def inTurn : List (Turn String) :=
  [.draw "a", .record 1, .move 1, .move 1, .move 1, .move 1,
    .draw "a", .record 2, .move 2, .move 2, .draw "a", .record 3, .move 3, .move 3,
    .move 1, .move 1, .move 1, .move 1, .move 1, .move 2, .move 2, .move 2, .move 2,
    .move 3, .move 3, .move 3, .move 3, .move 3, .move 3, .move 3]

theorem lock_left_behind_iff_inTurn :
    (start.run inTurn).debouncer.generation = 3 ∧ (start.run inTurn).debouncer.nextLock = 1
      ∧ (start.run inTurn).debouncer.tasks = []
      ∧ start.leavings inTurn "a" = [true, false, true]
      ∧ (start.run inTurn).debouncer.newest = [] ∧ (start.run inTurn).debouncer.locks = []
      ∧ lookup (start.run late).debouncer.locks "a" ≠ none := by
  have htasks : (start.run inTurn).debouncer.tasks = [] := by decide
  have hlate : (start.run late).debouncer.tasks = [] := by decide
  obtain ⟨hnewest, -, hlocks⟩ := (lock_left_behind_iff inTurn (by decide)).2 (by simp [htasks])
  obtain ⟨-, hleft, -⟩ := (lock_left_behind_iff late (by decide)).2 (by simp [hlate])
  exact ⟨by decide, by decide, htasks, by decide, hnewest, hlocks (by decide),
    (hleft "a").2 (by decide)⟩

end Crowd

end ElementLens.Debouncer
