/-
Debouncers whose tasks all sleep.

If work takes no time, then between any two pieces of work all tasks sleep and no
key has a lock (`Debouncer.Asleep`). A task whose time is up either has been
overtaken and ends, or it gets a lock at once, and when its work is done nothing is
kept for its key any more:

* **`Asleep.enter_overtaken`** — a task that is not the newest of its key;
* **`Asleep.enter_newest`**, **`Asleep.finish_newest`** — a task that is.
-/
import ElementLens.Proofs.Debounce.Locks

namespace ElementLens.Debouncer

variable {K : Type}

/-- No key has a lock, and all tasks sleep. -/
structure Asleep (d : Debouncer K) : Prop where
  locks : d.locks = []
  sleeping : ∀ t ∈ d.tasks, t.phase = .sleeping
  nodup : (d.tasks.map Task.generation).Nodup

/-- The debouncer when a task stands somewhere behind all others. -/
def stands (d : Debouncer K) (t : Task K) (p : Phase) : Debouncer K :=
  { d with tasks := d.others t.generation ++ [{ t with phase := p }] }

/-- The debouncer when a lock was made for a key and there is no other one. -/
def locked (d : Debouncer K) (k : K) : Debouncer K :=
  { d with locks := [(k, d.nextLock)], nextLock := d.nextLock + 1 }

/-- The debouncer when the work of a task is done, and nothing is kept for its key. -/
def served [DecidableEq K] (d : Debouncer K) (t : Task K) : Debouncer K :=
  { d with
    newest := erase d.newest t.key
    locks := []
    nextLock := d.nextLock + 1
    tasks := d.others t.generation }

variable {d : Debouncer K} {t u : Task K} {p q : Phase} {l : Nat}

/-! ### A task behind sleepers -/

theorem generation_ne_of_mem_others (hu : u ∈ d.others t.generation) :
    u.generation ≠ t.generation := by
  simpa using (List.mem_filter.1 hu).2

theorem others_stands : (d.stands t p).others t.generation = d.others t.generation := by
  simp [stands, others]

theorem task?_stands : (d.stands t p).task? t.generation = some { t with phase := p } := by
  unfold task? stands
  simp only
  rw [List.find?_append, List.find?_eq_none.2]
  · simp
  · intro u hu
    simpa using generation_ne_of_mem_others hu

theorem advance_stands : (d.stands t p).advance t.generation q = d.stands t q := by
  have hothers : (d.others t.generation).map
      (fun u => if u.generation = t.generation then { u with phase := q } else u)
        = d.others t.generation :=
    (List.map_congr_left (g := id) fun u hu => if_neg (generation_ne_of_mem_others hu)).trans
      (List.map_id _)
  unfold advance stands
  simp only [List.map_append, hothers]
  simp

theorem phase_of_mem_others (h : ∀ u ∈ d.tasks, u.phase = .sleeping)
    (hu : u ∈ d.others t.generation) :
    u.phase = .sleeping :=
  h u (List.mem_filter.1 hu).1

theorem others_advance :
    (d.advance t.generation p).others t.generation = d.others t.generation := by
  have hsame : (fun u : Task K => decide (u.generation ≠ t.generation))
      ∘ (fun u => if u.generation = t.generation then { u with phase := p } else u)
        = fun u => decide (u.generation ≠ t.generation) := by
    funext u
    by_cases hu : u.generation = t.generation <;> simp [hu]
  unfold others advance
  rw [List.filter_map, hsame]
  exact (List.map_congr_left (g := id) fun u hu => if_neg (generation_ne_of_mem_others hu)).trans
    (List.map_id _)

/-- Sleepers do not hold on to locks. -/
theorem isHeld_stands (h : ∀ u ∈ d.tasks, u.phase = .sleeping) :
    (d.stands t p).isHeld l = (p.held? == some l) := by
  unfold isHeld stands
  simp only [List.any_append, List.any_cons, List.any_nil, Bool.or_false]
  rw [List.any_eq_false.2, Bool.false_or]
  intro u hu
  simp [phase_of_mem_others h hu, Phase.held?]

theorem first?_stands (h : ∀ u ∈ d.tasks, u.phase = .sleeping) :
    (d.stands t (.waiting l)).first? l = some { t with phase := .waiting l } := by
  unfold first? stands
  simp only
  rw [List.find?_append, List.find?_eq_none.2]
  · simp
  · intro u hu
    simp [phase_of_mem_others h hu]

theorem holders_stands (h : ∀ u ∈ d.tasks, u.phase = .sleeping) (hp : p.lock? = some l) :
    (d.stands t p).holders l = 1 := by
  unfold holders stands
  simp only [List.filter_append, List.length_append]
  rw [List.filter_eq_nil_iff.2]
  · simp [hp]
  · intro u hu
    simp [phase_of_mem_others h hu, Phase.lock?]

theorem isRunning_stands : (d.stands t (.running l)).isRunning t.generation = true := by
  rw [isRunning, task?_stands]
  rfl

theorem task?_drop : (d.drop t.generation).task? t.generation = none :=
  List.find?_eq_none.2 fun u hu => by simpa using generation_ne_of_mem_others hu

theorem isRunning_drop : (d.drop t.generation).isRunning t.generation = false := by
  rw [isRunning, task?_drop]
  rfl

/-! ### A task whose time is up -/

variable [DecidableEq K]

theorem move_stands : (d.stands t p).move t.generation
    = (d.stands t p).step { t with phase := p } := by
  rw [move, task?_stands]

/-- A task that is not the newest of its key ends when its time is up. -/
theorem Asleep.enter_overtaken (h : d.Asleep) (ht : t ∈ d.tasks) (hold : d.isNewest t = false) :
    (d.wake t.generation).enter t.generation = d.drop t.generation := by
  have htask : d.task? t.generation = some t := (task?_eq_some_iff h.nodup).2 ⟨ht, rfl⟩
  have hmove : d.move t.generation = d.drop t.generation := by
    simp [move, htask, step, h.sleeping t ht, hold]
  have hwake : d.wake t.generation = d.drop t.generation := by
    simp only [wake, htask, Option.map_some, h.sleeping t ht, hmove]
    rw [move, task?_drop]
  rw [hwake, enter, task?_drop]

/-- A task that is the newest of its key begins its work when its time is up. -/
theorem Asleep.enter_newest (h : d.Asleep) (ht : t ∈ d.tasks) (hnew : d.isNewest t = true) :
    (d.wake t.generation).enter t.generation
      = (d.locked t.key).stands t (.running d.nextLock) := by
  have htask : d.task? t.generation = some t := (task?_eq_some_iff h.nodup).2 ⟨ht, rfl⟩
  have hsleep : ∀ u ∈ (d.locked t.key).tasks, u.phase = .sleeping := h.sleeping
  have hdue : d.move t.generation = d.advance t.generation .due := by
    simp [move, htask, step, h.sleeping t ht, hnew]
  have hfound : (d.advance t.generation .due).task? t.generation = some { t with phase := .due } :=
    (task?_eq_some_iff (by simpa [advance, Function.comp_def, apply_ite] using h.nodup)).2
      ⟨(mem_advance ht h.nodup).2 (.inr rfl), rfl⟩
  have hnewest (p q : Phase) :
      ((d.locked t.key).stands t p).isNewest { t with phase := q } = true := hnew
  have hwake : d.wake t.generation = (d.locked t.key).stands t (.waiting d.nextLock) := by
    simp only [wake, htask, Option.map_some, h.sleeping t ht, hdue]
    have hnone : lookup (d.advance t.generation .due).locks t.key = none := by
      rw [show (d.advance t.generation .due).locks = d.locks from rfl, h.locks]
      rfl
    have hothers := others_advance (d := d) (t := t) (p := .due)
    unfold others at hothers
    rw [move, hfound]
    simp only [step, join, hnone, queue, others, hothers]
    simp [stands, locked, others, advance, insert, erase, h.locks]
  have hadmitted : ((d.locked t.key).stands t (.waiting d.nextLock)).move t.generation
      = (d.locked t.key).stands t (.admitted d.nextLock) := by
    rw [move_stands, step]
    simp only [isHeld_stands hsleep, Phase.held?]
    exact advance_stands
  have hrunning : ((d.locked t.key).stands t (.admitted d.nextLock)).move t.generation
      = (d.locked t.key).stands t (.running d.nextLock) := by
    rw [move_stands, step]
    simp only [hnewest, if_true]
    exact advance_stands
  rw [hwake, enter, task?_stands]
  simp only [isHeld_stands hsleep, first?_stands hsleep, Phase.held?, hnewest, hadmitted, hrunning,
    if_true]
  simp

/-- When its work is done it ends, and nothing is kept for its key. -/
theorem Asleep.finish_newest (h : d.Asleep) (hnew : d.isNewest t = true) :
    ((d.locked t.key).stands t (.running d.nextLock)).finish t.generation = d.served t := by
  have hsleep : ∀ u ∈ (d.locked t.key).tasks, u.phase = .sleeping := h.sleeping
  -- first the newest generation of its key is forgotten, then the lock
  obtain ⟨d₁, hd₁⟩ : ∃ d₁, d₁ = { d.locked t.key with newest := erase d.newest t.key } := ⟨_, rfl⟩
  obtain ⟨d₂, hd₂⟩ : ∃ d₂, d₂ = { d₁ with locks := [] } := ⟨_, rfl⟩
  have hsleep₁ : ∀ u ∈ d₁.tasks, u.phase = .sleeping := by
    rw [hd₁]
    exact h.sleeping
  have hdone : ((d.locked t.key).stands t (.running d.nextLock)).move t.generation
      = (d.locked t.key).stands t (.done d.nextLock) := by
    rw [move_stands, step]
    exact advance_stands
  have hsettled : ((d.locked t.key).stands t (.done d.nextLock)).move t.generation
      = d₁.stands t (.settled d.nextLock) := by
    have hforgotten : ((d.locked t.key).stands t (.done d.nextLock)).forgetNewest t.key t.generation
        = d₁.stands t (.done d.nextLock) := by
      have hlookup : lookup ((d.locked t.key).stands t (.done d.nextLock)).newest t.key
          = some t.generation := by simpa [isNewest, stands, locked] using hnew
      rw [forgetNewest, if_pos hlookup, hd₁]
      rfl
    rw [move_stands, step]
    simp only [hforgotten]
    exact advance_stands
  have hleaving : (d₁.stands t (.settled d.nextLock)).move t.generation
      = d₂.stands t (.leaving d.nextLock true) := by
    have hforgotten : (d₁.stands t (.settled d.nextLock)).forgetLock t.key
        = d₂.stands t (.settled d.nextLock) := by
      have hlookup : lookup (d₁.stands t (.settled d.nextLock)).locks t.key = some d.nextLock := by
        rw [hd₁]
        simp [stands, locked, lookup]
      have herase : erase (d₁.stands t (.settled d.nextLock)).locks t.key = [] := by
        rw [hd₁]
        simp [stands, locked, erase]
      simp only [forgetLock, hlookup, holders_stands hsleep₁ (p := .settled d.nextLock) rfl, herase,
        if_true]
      rw [hd₂]
      rfl
    rw [move_stands, step]
    simp only [hforgotten]
    exact advance_stands
  have hreleased : (d₂.stands t (.leaving d.nextLock true)).move t.generation
      = d₂.stands t (.released d.nextLock true) := by
    rw [move_stands, step]
    exact advance_stands
  have hended : (d₂.stands t (.released d.nextLock true)).move t.generation = d.served t := by
    rw [move_stands, step]
    simp only [drop, others_stands, hd₂, hd₁]
    rfl
  rw [finish, task?_stands]
  simp only [Option.map_some, hdone, hsettled, hleaving, hreleased, hended]

end ElementLens.Debouncer
