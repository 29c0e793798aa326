/-
Locks of a debouncer.

The lock of a key may be dropped and made anew over time. All the same, tasks
that contend for the work of a key (`Phase.contended?`) contend for one lock,
the one in the table: the last of them drops it, and only if nobody else holds
on to it. And no two tasks have the same lock.

* **`Ordered.step`** — every step keeps the locks in order (`Ordered`);
* **`Ordered.eq_of_running`** — so no two tasks of one key are at work.
-/
import ElementLens.Debounce.Basic
import ElementLens.Proofs.Table

namespace ElementLens.Debouncer

variable {K : Type}

section Tables

variable [DecidableEq K]

/-! ### Tables -/

theorem lookup_erase (table : List (K × Nat)) (k j : K) :
    lookup (erase table k) j = if j = k then none else lookup table j := by
  rw [lookup, erase, find?_filter_ne]
  split <;> rfl

theorem lookup_insert (table : List (K × Nat)) (k j : K) (n : Nat) :
    lookup (insert table k n) j = if j = k then some n else lookup table j := by
  have herase := lookup_erase table k j
  unfold lookup insert at *
  by_cases hj : j = k
  · simp [hj]
  · have hne : ¬ k = j := fun h => hj h.symm
    rw [if_neg hj] at herase ⊢
    simp [hne, herase]

end Tables

/-! ### Tasks -/

variable {d : Debouncer K} {t u : Task K} {g : Nat} {p : Phase}

theorem mem_drop : u ∈ (d.drop g).tasks ↔ u ∈ d.tasks ∧ u.generation ≠ g := by
  simp [drop, others]

theorem mem_queue {lock : Nat} : u ∈ (d.queue t lock).tasks
    ↔ (u ∈ d.tasks ∧ u.generation ≠ t.generation) ∨ u = { t with phase := .waiting lock } := by
  simp [queue, others]

theorem mem_advance (ht : t ∈ d.tasks) (hnodup : (d.tasks.map Task.generation).Nodup) :
    u ∈ (d.advance t.generation p).tasks
      ↔ (u ∈ d.tasks ∧ u.generation ≠ t.generation) ∨ u = { t with phase := p } := by
  rw [advance, List.mem_map]
  constructor
  · rintro ⟨v, hv, rfl⟩
    by_cases hg : v.generation = t.generation
    · obtain rfl := List.inj_on_of_nodup_map hnodup hv ht hg
      exact .inr (if_pos rfl)
    · rw [if_neg hg]
      exact .inl ⟨hv, hg⟩
  · rintro (⟨hu, hg⟩ | rfl)
    · exact ⟨u, hu, if_neg hg⟩
    · exact ⟨t, ht, if_pos rfl⟩

theorem task?_eq_some_iff (hnodup : (d.tasks.map Task.generation).Nodup) :
    d.task? g = some t ↔ t ∈ d.tasks ∧ t.generation = g :=
  find?_eq_some_iff_of_nodup hnodup

theorem eq_of_holders (ht : t ∈ d.tasks) (hu : u ∈ d.tasks) {l : Nat} (hone : d.holders l = 1)
    (htl : t.phase.lock? = some l) (hul : u.phase.lock? = some l) : t = u := by
  obtain ⟨v, hv⟩ := List.length_eq_one_iff.1 hone
  have hmem (w : Task K) (hw : w ∈ d.tasks) (hwl : w.phase.lock? = some l) : w = v := by
    have : w ∈ d.tasks.filter fun t => t.phase.lock? == some l :=
      List.mem_filter.2 ⟨hw, by simp [hwl]⟩
    rwa [hv, List.mem_singleton] at this
  rw [hmem t ht htl, hmem u hu hul]

theorem held?_ne_of_isHeld {l : Nat} (hfree : d.isHeld l = false) (hu : u ∈ d.tasks) :
    u.phase.held? ≠ some l := by
  intro hul
  have := List.any_eq_false.1 hfree u hu
  simp [hul] at this

/-! ### The order of locks -/

/-- The lock that a task contends for: the one it waits for or has, until it
has settled what is kept for its key. -/
def Phase.contended? : Phase → Option Nat
  | .sleeping | .due | .leaving _ _ | .released _ _ => none
  | .waiting l | .admitted l | .running l | .done l | .settled l => some l

theorem Phase.lock?_of_contended? {p : Phase} {l : Nat} (h : p.contended? = some l) :
    p.lock? = some l := by
  cases p <;> simp_all [contended?, lock?]

variable [DecidableEq K]

/-- Tasks are told apart by their generations; locks of different keys differ;
tasks contend for the lock of their key, and no two tasks have the same lock. -/
structure Ordered (d : Debouncer K) : Prop where
  nodup : (d.tasks.map Task.generation).Nodup
  generation_le : ∀ t ∈ d.tasks, t.generation ≤ d.generation
  lock_lt : ∀ k l, lookup d.locks k = some l → l < d.nextLock
  lock_inj : ∀ k k' l, lookup d.locks k = some l → lookup d.locks k' = some l → k = k'
  contended : ∀ t ∈ d.tasks, ∀ l, t.phase.contended? = some l → lookup d.locks t.key = some l
  exclusive : ∀ t ∈ d.tasks, ∀ u ∈ d.tasks, ∀ l,
    t.phase.held? = some l → u.phase.held? = some l → t = u

/-- Records a call: its generation is the newest of its key, and its task begins
to sleep. -/
def record (d : Debouncer K) (g : Nat) (k : K) : Debouncer K :=
  { d with newest := insert d.newest k g, tasks := d.tasks ++ [⟨g, k, .sleeping⟩] }

theorem mem_record {k : K} : u ∈ (d.record g k).tasks ↔ u ∈ d.tasks ∨ u = ⟨g, k, .sleeping⟩ := by
  simp [record]

/-- Where a task stands after its next step, unless it ends. -/
def next? (d : Debouncer K) (t : Task K) : Option Phase :=
  match t.phase with
  | .sleeping => if d.isNewest t then some .due else none
  | .due => some (.waiting ((lookup d.locks t.key).getD d.nextLock))
  | .waiting lock => some (.admitted lock)
  | .admitted lock => some (if d.isNewest t then .running lock else .leaving lock false)
  | .running lock => some (.done lock)
  | .done lock => some (.settled lock)
  | .settled lock => some (.leaving lock true)
  | .leaving lock ran => some (.released lock ran)
  | .released _ _ => none

theorem tasks_forgetNewest (d : Debouncer K) (k : K) (g : Nat) :
    (d.forgetNewest k g).tasks = d.tasks := by
  unfold forgetNewest
  split <;> rfl

theorem tasks_forgetLock (d : Debouncer K) (k : K) : (d.forgetLock k).tasks = d.tasks := by
  unfold forgetLock
  split
  · rfl
  · split <;> rfl

theorem generation_step (d : Debouncer K) (t : Task K) : (d.step t).generation = d.generation := by
  unfold step join forgetNewest forgetLock
  cases t.phase <;> simp only <;> (repeat' split) <;> rfl

/-- Only a task whose work is done changes what is known of the newest calls. -/
theorem newest_step (d : Debouncer K) (t : Task K) : (d.step t).newest = d.newest
    ∨ ((∃ l, t.phase = .done l) ∧ lookup d.newest t.key = some t.generation
      ∧ (d.step t).newest = erase d.newest t.key) := by
  unfold step join forgetNewest forgetLock
  cases hp : t.phase <;> simp only
  case done lock =>
    split
    · next heq => exact .inr ⟨⟨lock, rfl⟩, heq, rfl⟩
    · exact .inl rfl
  all_goals
    left
    (repeat' split) <;> rfl

namespace Ordered

theorem empty : (Debouncer.empty : Debouncer K).Ordered where
  nodup := List.nodup_nil
  generation_le := by simp [Debouncer.empty]
  lock_lt := by simp [Debouncer.empty, lookup]
  lock_inj := by simp [Debouncer.empty, lookup]
  contended := by simp [Debouncer.empty]
  exclusive := by simp [Debouncer.empty]

theorem eq_of_generation (h : d.Ordered) (ht : t ∈ d.tasks) (hu : u ∈ d.tasks)
    (hg : t.generation = u.generation) : t = u :=
  List.inj_on_of_nodup_map h.nodup ht hu hg

/-- Two tasks that have the lock they contend for are of different keys. -/
theorem eq_of_held (h : d.Ordered) (ht : t ∈ d.tasks) (hu : u ∈ d.tasks) (hkey : t.key = u.key)
    {l l' : Nat} (htc : t.phase.contended? = some l) (huc : u.phase.contended? = some l')
    (hth : t.phase.held? = some l) (huh : u.phase.held? = some l') : t = u := by
  have hl := h.contended t ht l htc
  have hl' := h.contended u hu l' huc
  rw [hkey, hl'] at hl
  obtain rfl := Option.some.inj hl
  exact h.exclusive t ht u hu _ hth huh

/-- **No two tasks of one key are at work.** -/
theorem eq_of_running (h : d.Ordered) (ht : t ∈ d.tasks) (hu : u ∈ d.tasks)
    (hkey : t.key = u.key) {l l' : Nat} (htr : t.phase = .running l) (hur : u.phase = .running l') :
    t = u :=
  h.eq_of_held ht hu hkey (by rw [htr]; rfl) (by rw [hur]; rfl) (by rw [htr]; rfl)
    (by rw [hur]; rfl)

/-- Fewer tasks keep the locks in order. -/
theorem drop (h : d.Ordered) (g : Nat) : (d.drop g).Ordered where
  nodup := h.nodup.sublist (List.filter_sublist.map _)
  generation_le t ht := h.generation_le t (mem_drop.1 ht).1
  lock_lt := h.lock_lt
  lock_inj := h.lock_inj
  contended t ht := h.contended t (mem_drop.1 ht).1
  exclusive t ht u hu := h.exclusive t (mem_drop.1 ht).1 u (mem_drop.1 hu).1

/-- A generation may be drawn that no task gets yet. -/
theorem draw (h : d.Ordered) : Ordered { d with generation := d.generation + 1 } :=
  { h with generation_le := fun t ht => Nat.le_succ_of_le (h.generation_le t ht) }

/-- A generation that is drawn and belongs to no task may be recorded. -/
theorem record (h : d.Ordered) {k : K} (hle : g ≤ d.generation)
    (hfresh : ∀ t ∈ d.tasks, t.generation ≠ g) : (d.record g k).Ordered where
  nodup := by
    rw [Debouncer.record, List.map_append, List.nodup_append]
    refine ⟨h.nodup, List.nodup_singleton _, ?_⟩
    rintro a ha b hb rfl
    obtain ⟨t, ht, rfl⟩ := List.mem_map.1 ha
    exact hfresh t ht (by simpa using hb)
  generation_le t ht := by
    rcases mem_record.1 ht with ht | rfl
    · exact h.generation_le t ht
    · exact hle
  lock_lt := h.lock_lt
  lock_inj := h.lock_inj
  contended t ht l hl := by
    rcases mem_record.1 ht with ht | rfl
    · exact h.contended t ht l hl
    · simp [Phase.contended?] at hl
  exclusive t ht u hu l htl hul := by
    rcases mem_record.1 ht with ht | rfl
    · rcases mem_record.1 hu with hu | rfl
      · exact h.exclusive t ht u hu l htl hul
      · simp [Phase.held?] at hul
    · simp [Phase.held?] at htl

theorem schedule (h : d.Ordered) (k : K) : (d.schedule k).Ordered :=
  h.draw.record (Nat.le_refl _) fun t ht => Nat.ne_of_lt (Nat.lt_succ_of_le (h.generation_le t ht))

/-- A task may come to stand where it contends for the lock of its key, if any,
and has a lock that nobody else has, if any. -/
theorem advance (h : d.Ordered) (ht : t ∈ d.tasks)
    (hcont : ∀ l, p.contended? = some l → lookup d.locks t.key = some l)
    (hheld : ∀ l, p.held? = some l → ∀ u ∈ d.tasks, u.phase.held? = some l → u = t) :
    (d.advance t.generation p).Ordered := by
  have hmem (u : Task K) := mem_advance (u := u) (p := p) ht h.nodup
  refine ⟨?_, ?_, h.lock_lt, h.lock_inj, ?_, ?_⟩
  · have hsame : (d.advance t.generation p).tasks.map Task.generation
        = d.tasks.map Task.generation := by
      rw [Debouncer.advance, List.map_map]
      refine List.map_congr_left fun u _ => ?_
      by_cases hu : u.generation = t.generation <;> simp [hu]
    rw [hsame]
    exact h.nodup
  · intro u hu
    rcases (hmem u).1 hu with ⟨hu, -⟩ | rfl
    · exact h.generation_le u hu
    · exact h.generation_le t ht
  · intro u hu l hl
    rcases (hmem u).1 hu with ⟨hu, -⟩ | rfl
    · exact h.contended u hu l hl
    · exact hcont l hl
  · intro u hu v hv l hul hvl
    rcases (hmem u).1 hu with ⟨hu, hug⟩ | rfl <;> rcases (hmem v).1 hv with ⟨hv, hvg⟩ | rfl
    · exact h.exclusive u hu v hv l hul hvl
    · exact absurd (congrArg Task.generation (hheld l hvl u hu hul)) hug
    · exact absurd (congrArg Task.generation (hheld l hul v hv hvl)) hvg
    · rfl

/-- A task that has a lock may go on with it or give it up. -/
theorem advance_held (h : d.Ordered) (ht : t ∈ d.tasks) {l : Nat} (hl : t.phase.held? = some l)
    (hcont : ∀ l', p.contended? = some l' → lookup d.locks t.key = some l')
    (hheld : ∀ l', p.held? = some l' → l' = l) : (d.advance t.generation p).Ordered := by
  refine h.advance ht hcont fun l' hl' u hu hul => ?_
  rw [hheld l' hl'] at hul
  exact h.exclusive u hu t ht l hul hl

/-- A key that has no lock may get a new one. -/
theorem make (h : d.Ordered) {k : K} (hk : lookup d.locks k = none) :
    Ordered { d with locks := insert d.locks k d.nextLock, nextLock := d.nextLock + 1 } := by
  refine ⟨h.nodup, h.generation_le, ?_, ?_, ?_, h.exclusive⟩
  · intro j l hl
    rw [lookup_insert] at hl
    split at hl
    · rw [← Option.some.inj hl]
      exact Nat.lt_succ_self _
    · exact Nat.lt_succ_of_lt (h.lock_lt j l hl)
  · intro j j' l hl hl'
    rw [lookup_insert] at hl hl'
    -- the number of the new lock is above all numbers in use
    split at hl <;> split at hl'
    · next hj hj' => rw [hj, hj']
    · rw [← Option.some.inj hl] at hl'
      exact absurd (h.lock_lt j' _ hl') (Nat.lt_irrefl _)
    · rw [← Option.some.inj hl'] at hl
      exact absurd (h.lock_lt j _ hl) (Nat.lt_irrefl _)
    · exact h.lock_inj j j' l hl hl'
  · intro t ht l hl
    have hlock := h.contended t ht l hl
    rw [lookup_insert, if_neg]
    · exact hlock
    · intro hkey
      rw [hkey, hk] at hlock
      exact absurd hlock (by simp)

theorem queue (h : d.Ordered) (ht : t ∈ d.tasks) {lock : Nat}
    (hlock : lookup d.locks t.key = some lock) : (d.queue t lock).Ordered := by
  refine ⟨?_, ?_, h.lock_lt, h.lock_inj, ?_, ?_⟩
  · rw [Debouncer.queue, List.map_append, List.nodup_append]
    refine ⟨h.nodup.sublist (List.filter_sublist.map _), List.nodup_singleton _, ?_⟩
    rintro a ha b hb rfl
    obtain ⟨u, hu, rfl⟩ := List.mem_map.1 ha
    rw [List.map_singleton, List.mem_singleton] at hb
    exact absurd hb (by simpa using List.of_mem_filter hu)
  · intro u hu
    rcases mem_queue.1 hu with ⟨hu, -⟩ | rfl
    · exact h.generation_le u hu
    · exact h.generation_le t ht
  · intro u hu l hl
    rcases mem_queue.1 hu with ⟨hu, -⟩ | rfl
    · exact h.contended u hu l hl
    · obtain rfl : lock = l := Option.some.inj hl
      exact hlock
  · intro u hu v hv l hul hvl
    rcases mem_queue.1 hu with ⟨hu, -⟩ | rfl
    · rcases mem_queue.1 hv with ⟨hv, -⟩ | rfl
      · exact h.exclusive u hu v hv l hul hvl
      · simp [Phase.held?] at hvl
    · simp [Phase.held?] at hul

theorem join (h : d.Ordered) (ht : t ∈ d.tasks) : (d.join t).Ordered := by
  unfold Debouncer.join
  split
  · next lock hlock => exact h.queue ht hlock
  · next hlock =>
    exact (h.make hlock).queue ht (by rw [lookup_insert, if_pos rfl])

/-- A key for which no task contends may lose its lock. -/
theorem eraseLock (h : d.Ordered) {k : K}
    (hfree : ∀ u ∈ d.tasks, u.key = k → u.phase.contended? = none) :
    Ordered { d with locks := erase d.locks k } := by
  refine ⟨h.nodup, h.generation_le, ?_, ?_, ?_, h.exclusive⟩
  · intro j l hl
    rw [lookup_erase] at hl
    split at hl
    · exact absurd hl (by simp)
    · exact h.lock_lt j l hl
  · intro j j' l hl hl'
    rw [lookup_erase] at hl hl'
    split at hl
    · exact absurd hl (by simp)
    · split at hl'
      · exact absurd hl' (by simp)
      · exact h.lock_inj j j' l hl hl'
  · intro u hu l hl
    rw [lookup_erase, if_neg]
    · exact h.contended u hu l hl
    · intro hkey
      rw [hfree u hu hkey] at hl
      exact absurd hl (by simp)

/-- The lock of a key is only dropped when no other task contends for it. -/
theorem forgetLock (h : d.Ordered) (ht : t ∈ d.tasks) {l : Nat} (hp : t.phase = .settled l) :
    ((d.forgetLock t.key).advance t.generation (.leaving l true)).Ordered := by
  have hlock : lookup d.locks t.key = some l := h.contended t ht l (by rw [hp]; rfl)
  have hadvance : (d.advance t.generation (.leaving l true)).Ordered :=
    h.advance_held ht (l := l) (by rw [hp]; rfl) (fun _ h => absurd h (by simp [Phase.contended?]))
      fun _ h => (Option.some.inj h).symm
  rw [Debouncer.forgetLock, hlock]
  simp only
  split
  · next hone =>
    refine hadvance.eraseLock fun u hu hkey => ?_
    rcases (mem_advance ht h.nodup).1 hu with ⟨hu, hg⟩ | rfl
    · -- a task that still contended would hold on to the lock as well
      by_contra hcont
      obtain ⟨l', hl'⟩ := Option.ne_none_iff_exists'.1 hcont
      have hul := h.contended u hu l' hl'
      rw [hkey, hlock] at hul
      obtain rfl := Option.some.inj hul
      have heq := eq_of_holders ht hu hone (by rw [hp]; rfl) (Phase.lock?_of_contended? hl')
      exact hg (congrArg Task.generation heq).symm
    · rfl
  · exact hadvance

theorem forgetNewest (h : d.Ordered) (k : K) (g : Nat) : (d.forgetNewest k g).Ordered := by
  unfold Debouncer.forgetNewest
  split
  · exact ⟨h.nodup, h.generation_le, h.lock_lt, h.lock_inj, h.contended, h.exclusive⟩
  · exact h

theorem mem_forgetNewest {k : K} : t ∈ (d.forgetNewest k g).tasks ↔ t ∈ d.tasks := by
  rw [tasks_forgetNewest]

/-- **Every step keeps the locks in order.** -/
theorem step (h : d.Ordered) (ht : t ∈ d.tasks) : (d.step t).Ordered := by
  unfold Debouncer.step
  cases hp : t.phase with
  | sleeping =>
    simp only
    split
    · exact h.advance ht (by simp [Phase.contended?]) (by simp [Phase.held?])
    · exact h.drop _
  | due => exact h.join ht
  | waiting lock =>
    -- the only step in which a task comes to have a lock, and nobody else has it
    simp only
    split
    · exact h
    · next hfree =>
      refine h.advance ht ?_ ?_
      · intro l hl
        exact h.contended t ht l (by rw [hp]; exact hl)
      · intro l hl u hu hul
        obtain rfl : lock = l := Option.some.inj hl
        exact absurd hul (held?_ne_of_isHeld (by simpa using hfree) hu)
  | admitted lock =>
    refine h.advance_held ht (l := lock) (by rw [hp]; rfl) ?_ ?_
    · intro l hl
      refine h.contended t ht l ?_
      split at hl
      · rw [hp]
        exact hl
      · simp [Phase.contended?] at hl
    · intro l hl
      split at hl <;> exact (Option.some.inj hl).symm
  | running lock =>
    refine h.advance_held ht (l := lock) (by rw [hp]; rfl) ?_ fun _ hl => (Option.some.inj hl).symm
    intro l hl
    exact h.contended t ht l (by rw [hp]; exact hl)
  | done lock =>
    have h' := h.forgetNewest t.key t.generation
    refine h'.advance_held (mem_forgetNewest.2 ht) (l := lock) (by rw [hp]; rfl) ?_
      fun _ hl => (Option.some.inj hl).symm
    intro l hl
    exact h'.contended t (mem_forgetNewest.2 ht) l (by rw [hp]; exact hl)
  | settled lock => exact h.forgetLock ht hp
  | leaving lock ran =>
    exact h.advance ht (by simp [Phase.contended?]) (by simp [Phase.held?])
  | released lock ran => exact h.drop _

/-- A step moves one task, or ends it. -/
theorem mem_step (h : d.Ordered) (ht : t ∈ d.tasks)
    (hfree : ∀ l, t.phase = .waiting l → d.isHeld l = false) :
    u ∈ (d.step t).tasks ↔ (u ∈ d.tasks ∧ u.generation ≠ t.generation)
      ∨ ∃ p, next? d t = some p ∧ u = { t with phase := p } := by
  unfold Debouncer.step next?
  cases hp : t.phase with
  | sleeping =>
    by_cases hnewest : d.isNewest t = true
    · simp [hnewest, mem_advance ht h.nodup]
    · simp [hnewest, mem_drop]
  | due =>
    unfold Debouncer.join
    cases hlock : lookup d.locks t.key <;> simp [mem_queue]
  | waiting lock => simp [hfree lock hp, mem_advance ht h.nodup]
  | admitted lock => simp [mem_advance ht h.nodup]
  | running lock => simp [mem_advance ht h.nodup]
  | done lock =>
    have h' := h.forgetNewest t.key t.generation
    simp [mem_advance (mem_forgetNewest.2 ht) h'.nodup, mem_forgetNewest]
  | settled lock =>
    have h' := tasks_forgetLock d t.key
    simp [mem_advance (d := d.forgetLock t.key) (by rw [h']; exact ht) (by rw [h']; exact h.nodup), h']
  | leaving lock ran => simp [mem_advance ht h.nodup]
  | released lock ran => simp [mem_drop]

end Ordered

end ElementLens.Debouncer
