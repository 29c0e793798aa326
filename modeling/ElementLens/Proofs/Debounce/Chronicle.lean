/-
What the history of a debouncer tells.

Every execution keeps the clock, the tasks and the history consistent
(`Clockwork.Consistent`): each task has the story of the phase it is in, a task
that has ended has a whole story, and whatever happened fits to what happened
before it (`History.Fits`).

* **`Consistent.call`**, **`Consistent.move`**, **`Consistent.pass`** — what the
  three kinds of actions keep;
* **`Consistent.run`** — what executions keep.
-/
import ElementLens.Proofs.Debounce.Execution
import ElementLens.Proofs.Debounce.Locks

namespace ElementLens.Debouncer

/-- What happened to a task up to the phase it is in, the last thing first. -/
def Phase.story : Phase → List Kind
  | .sleeping => [.called]
  | .due | .waiting _ | .admitted _ => [.woke true, .called]
  | .running _ => [.started, .woke true, .called]
  | .done _ | .settled _ | .leaving _ true | .released _ true =>
    [.ended, .started, .woke true, .called]
  | .leaving _ false | .released _ false => [.refused, .woke true, .called]

/-- Whether a task looks out for the lock of its key, or has it and has not looked again. -/
def Phase.isPending : Phase → Bool
  | .due | .waiting _ | .admitted _ => true
  | _ => false

/-- What happens to a task in all: it does its work, or it is refused, or it is
not the newest when it wakes up. -/
def wholeStories : List (List Kind) :=
  [[.answered true, .ended, .started, .woke true, .called],
    [.answered false, .refused, .woke true, .called],
    [.answered false, .woke false, .called]]

namespace History

variable {K : Type} [DecidableEq K] {h : History K} {e : Event K} {k : K} {g : Nat}

/-- The last call for a key is the one of a task. -/
def IsNewest (h : History K) (k : K) (g : Nat) : Prop :=
  (h.lastCall? k).map Event.generation = some g

/-- All work of a key that has begun has ended. -/
def AtRest (h : History K) (k : K) : Prop :=
  ∀ b ∈ h, b.kind = .started → b.key = k → ∃ e ∈ h, e.kind = .ended ∧ e.generation = b.generation

/-- Something happens in the right way after a history: a task learns whether
it is the newest, and the work of the newest begins as soon as its time is up
and the last work of its key has ended. -/
def Fits (delay : Nat) (e : Event K) (h : History K) : Prop :=
  match e.kind with
  | .woke newest => newest = true ↔ h.IsNewest e.key e.generation
  | .started => ∃ s, h.lastCall? e.key = some s ∧ s.generation = e.generation
    ∧ e.time = max (s.time + delay) (h.lastEnd e.key) ∧ h.AtRest e.key
  | .refused => ¬ h.IsNewest e.key e.generation
  | .called | .ended | .answered _ => True

/-- Everything fits to what happened before it. -/
def IsChronicle (delay : Nat) : History K → Prop
  | [] => True
  | e :: h => Fits delay e h ∧ IsChronicle delay h

/-! ### Later events -/

theorem lastCall?_cons_of_ne (hk : ¬ (e.kind = .called ∧ e.key = k)) :
    lastCall? (e :: h) k = h.lastCall? k := by
  rw [lastCall?, List.find?_cons_of_neg (by simpa using hk), lastCall?]

theorem lastEnd_cons_of_ne (hk : ¬ (e.kind = .ended ∧ e.key = k)) :
    lastEnd (e :: h) k = h.lastEnd k := by
  rw [lastEnd, List.find?_cons_of_neg (by simpa using hk), lastEnd]

theorem lastEnd_cons_of_ended (hk : e.kind = .ended) : lastEnd (e :: h) e.key = e.time := by
  rw [lastEnd, List.find?_cons_of_pos (by simp [hk])]
  rfl

omit [DecidableEq K] in
theorem alarm_cons_of_ne {delay : Nat} (hk : ¬ (e.kind = .called ∧ e.generation = g)) :
    alarm (e :: h) delay g = h.alarm delay g := by
  rw [alarm, List.find?_cons_of_neg (by simpa using hk), alarm]

omit [DecidableEq K] in
theorem story_cons : story (e :: h) g = if e.generation = g then e.kind :: h.story g else h.story g := by
  by_cases hg : e.generation = g <;> simp [story, hg]

omit [DecidableEq K] in
theorem mem_story {kind : Kind} :
    kind ∈ h.story g ↔ ∃ e ∈ h, e.generation = g ∧ e.kind = kind := by
  simp [story, and_assoc]

theorem lastCall?_eq_some (hs : h.lastCall? k = some e) :
    e ∈ h ∧ e.kind = .called ∧ e.key = k := by
  refine ⟨List.mem_of_find?_eq_some hs, ?_⟩
  simpa using List.find?_some hs

theorem exists_lastCall? (he : e ∈ h) (hkind : e.kind = .called) :
    ∃ s, h.lastCall? e.key = some s := by
  cases hfind : h.lastCall? e.key with
  | some s => exact ⟨s, rfl⟩
  | none =>
    have := List.find?_eq_none.1 hfind e he
    simp [hkind] at this

theorem lastEnd_le {n : Nat} (hle : ∀ e ∈ h, e.time ≤ n) (k : K) : h.lastEnd k ≤ n := by
  unfold lastEnd
  cases hfind : h.find? fun e => e.kind = .ended ∧ e.key = k with
  | none => exact Nat.zero_le n
  | some e => exact hle e (List.mem_of_find?_eq_some hfind)

end History

namespace Clockwork

variable {K : Type} [DecidableEq K]

/-- The clock, the tasks and the history belong together. -/
structure Consistent (delay : Nat) (c : Clockwork K) : Prop where
  ordered : c.debouncer.Ordered
  chronicle : c.history.IsChronicle delay
  time_le : ∀ e ∈ c.history, e.time ≤ c.clock
  falling : c.history.Pairwise fun e e' => e'.time ≤ e.time
  generation_le : ∀ e ∈ c.history, e.generation ≤ c.debouncer.generation
  /-- A generation is called once. -/
  unique : ∀ s ∈ c.history, ∀ s' ∈ c.history, s.kind = .called → s'.kind = .called →
    s.generation = s'.generation → s = s'
  /-- What happens, happens to a task that was called. -/
  origin : ∀ e ∈ c.history, ∃ s ∈ c.history,
    s.kind = .called ∧ s.generation = e.generation ∧ s.key = e.key
  called : ∀ t ∈ c.debouncer.tasks, ∃ s ∈ c.history,
    s.kind = .called ∧ s.generation = t.generation ∧ s.key = t.key
  story : ∀ t ∈ c.debouncer.tasks, c.history.story t.generation = t.phase.story
  finished : ∀ e ∈ c.history, (∀ t ∈ c.debouncer.tasks, t.generation ≠ e.generation) →
    c.history.story e.generation ∈ wholeStories
  /-- The newest generation of a key is the one of its last call, and is only
  forgotten after its work. -/
  newest : ∀ k, lookup c.debouncer.newest k = (c.history.lastCall? k).map Event.generation
    ∨ (lookup c.debouncer.newest k = none
      ∧ ∃ s, c.history.lastCall? k = some s ∧ .ended ∈ c.history.story s.generation)
  /-- The task of a last call is not refused. -/
  unrefused : ∀ k s, c.history.lastCall? k = some s →
    .refused ∉ c.history.story s.generation ∧ .woke false ∉ c.history.story s.generation
  asleep : ∀ t ∈ c.debouncer.tasks, t.phase = .sleeping →
    c.clock ≤ c.history.alarm delay t.generation
  /-- A task that looks out for its lock does so since it woke up, or since the
  last work of its key ended, unless there is work in progress. -/
  pending : ∀ t ∈ c.debouncer.tasks, t.phase.isPending = true →
    c.history.alarm delay t.generation ≤ c.clock
      ∧ (c.clock = max (c.history.alarm delay t.generation) (c.history.lastEnd t.key)
        ∨ ∃ u ∈ c.debouncer.tasks, u.key = t.key ∧ ∃ l, u.phase = .running l)

namespace Consistent

variable {delay : Nat} {c : Clockwork K} {t : Task K}

theorem start : (Clockwork.start : Clockwork K).Consistent delay where
  ordered := .empty
  chronicle := trivial
  time_le := by simp [Clockwork.start]
  falling := List.Pairwise.nil
  generation_le := by simp [Clockwork.start]
  unique := by simp [Clockwork.start]
  origin := by simp [Clockwork.start]
  called := by simp [Clockwork.start, Debouncer.empty]
  story := by simp [Clockwork.start, Debouncer.empty]
  finished := by simp [Clockwork.start]
  newest k := .inl rfl
  unrefused := by simp [Clockwork.start, History.lastCall?]
  asleep := by simp [Clockwork.start, Debouncer.empty]
  pending := by simp [Clockwork.start, Debouncer.empty]

/-! ### Time that passes -/

theorem pass (h : c.Consistent delay) {time : Nat}
    (hrest : ∀ t ∈ c.debouncer.tasks, c.canRest delay time t = true) :
    Consistent delay { c with clock := c.clock + time } := by
  refine { h with
    time_le := fun e he => Nat.le_add_right_of_le (h.time_le e he)
    asleep := fun t ht hp => ?_
    pending := fun t ht hp => ?_ }
  · have := hrest t ht
    simpa [canRest, hp] using this
  · refine ⟨Nat.le_add_right_of_le (h.pending t ht hp).1, .inr ?_⟩
    -- the task waits for a lock, so another one has it, and is at work
    have ht' := hrest t ht
    cases hphase : t.phase with
    | waiting lock =>
      rw [canRest, hphase] at ht'
      obtain ⟨u, hu, hlock⟩ := List.any_eq_true.1 ht'
      have hheld : u.phase.held? = some lock := by simpa using hlock
      have hu' := hrest u hu
      cases huphase : u.phase with
      | running l =>
        rw [huphase] at hheld
        obtain rfl : l = lock := Option.some.inj hheld
        have hul := h.ordered.contended u hu l (by rw [huphase]; rfl)
        have htl := h.ordered.contended t ht l (by rw [hphase]; rfl)
        exact ⟨u, hu, h.ordered.lock_inj _ _ l hul htl, l, huphase⟩
      | _ => simp [canRest, huphase, Phase.held?] at hu' hheld
    | _ => simp [canRest, hphase, Phase.isPending] at ht' hp

/-! ### Calls -/

theorem story_new (h : c.Consistent delay) {g : Nat} (hg : c.debouncer.generation < g) :
    c.history.story g = [] := by
  rw [History.story, List.map_eq_nil_iff, List.filter_eq_nil_iff]
  intro e he
  have := h.generation_le e he
  simp only [decide_eq_true_eq]
  omega

theorem mem_call {k : K} : t ∈ (c.call k).debouncer.tasks
    ↔ t ∈ c.debouncer.tasks ∨ t = ⟨c.debouncer.generation + 1, k, .sleeping⟩ := by
  simp [Clockwork.call, schedule]

theorem call (h : c.Consistent delay) (k : K) : (c.call k).Consistent delay := by
  obtain ⟨e, he⟩ : ∃ e : Event K, e = ⟨c.clock, c.debouncer.generation + 1, k, .called⟩ := ⟨_, rfl⟩
  have hhistory : (c.call k).history = e :: c.history := by rw [he]; rfl
  have hstory (g : Nat) (hg : g ≤ c.debouncer.generation) :
      History.story (e :: c.history) g = c.history.story g := by
    rw [History.story_cons, he, if_neg (by simp only; omega)]
  have hold (t : Task K) (ht : t ∈ c.debouncer.tasks) :
      History.alarm (e :: c.history) delay t.generation = c.history.alarm delay t.generation := by
    have := h.ordered.generation_le t ht
    exact History.alarm_cons_of_ne (by rw [he]; simp only; omega)
  have hself : History.story (e :: c.history) (c.debouncer.generation + 1) = [.called] := by
    rw [History.story_cons, he, if_pos rfl, h.story_new (Nat.lt_succ_self _)]
  -- the event is the first one of a new generation, so the others keep their stories
  constructor
  case ordered => exact h.ordered.schedule k
  all_goals rw [hhistory]
  case chronicle => exact ⟨by rw [History.Fits, he]; trivial, h.chronicle⟩
  case time_le =>
    intro e' he'
    rcases List.mem_cons.1 he' with rfl | he'
    · rw [he]
      exact Nat.le_refl _
    · exact h.time_le e' he'
  case falling =>
    refine List.pairwise_cons.2 ⟨?_, h.falling⟩
    rw [he]
    exact h.time_le
  case generation_le =>
    intro e' he'
    rcases List.mem_cons.1 he' with rfl | he'
    · rw [he]
      exact Nat.le_refl _
    · exact Nat.le_succ_of_le (h.generation_le e' he')
  case unique =>
    intro s hs s' hs' hk hk' hg
    rcases List.mem_cons.1 hs with heq | hmem <;> rcases List.mem_cons.1 hs' with heq' | hmem'
    · rw [heq, heq']
    · have := h.generation_le s' hmem'
      rw [← hg, heq, he] at this
      exact absurd this (Nat.not_succ_le_self _)
    · have := h.generation_le s hmem
      rw [hg, heq', he] at this
      exact absurd this (Nat.not_succ_le_self _)
    · exact h.unique s hmem s' hmem' hk hk' hg
  case origin =>
    intro e' he'
    rcases List.mem_cons.1 he' with rfl | he'
    · exact ⟨e', List.mem_cons_self, by rw [he], rfl, rfl⟩
    · obtain ⟨s, hs, hso⟩ := h.origin e' he'
      exact ⟨s, List.mem_cons_of_mem _ hs, hso⟩
  case called =>
    intro t ht
    rcases mem_call.1 ht with ht | rfl
    · obtain ⟨s, hs, hso⟩ := h.called t ht
      exact ⟨s, List.mem_cons_of_mem _ hs, hso⟩
    · exact ⟨e, List.mem_cons_self, by rw [he], by rw [he], by rw [he]⟩
  case story =>
    intro t ht
    rcases mem_call.1 ht with ht | rfl
    · rw [hstory _ (h.ordered.generation_le t ht), h.story t ht]
    · exact hself
  case finished =>
    intro e' he' hnone
    rcases List.mem_cons.1 he' with rfl | he'
    · exact absurd (by rw [he]) (hnone _ (mem_call.2 (.inr rfl)))
    · rw [hstory _ (h.generation_le e' he')]
      exact h.finished e' he' fun t ht => hnone t (mem_call.2 (.inl ht))
  case newest =>
    intro j
    rw [show (c.call k).debouncer.newest = insert c.debouncer.newest k (c.debouncer.generation + 1)
      from rfl, lookup_insert]
    by_cases hj : j = k
    · subst hj
      left
      rw [if_pos rfl, History.lastCall?, List.find?_cons_of_pos (by simp [he]), he]
      rfl
    · rw [if_neg hj, History.lastCall?_cons_of_ne (by rw [he]; exact fun heq => hj heq.2.symm)]
      rcases h.newest j with hnewest | ⟨hnone, s, hs, hended⟩
      · exact .inl hnewest
      · have hmem := (History.lastCall?_eq_some hs).1
        exact .inr ⟨hnone, s, hs, by rwa [hstory _ (h.generation_le s hmem)]⟩
  case unrefused =>
    intro j s hs
    by_cases hj : j = k
    · subst hj
      rw [History.lastCall?, List.find?_cons_of_pos (by simp [he])] at hs
      obtain rfl := Option.some.inj hs
      rw [he] at hself ⊢
      simp [hself]
    · rw [History.lastCall?_cons_of_ne (by rw [he]; exact fun heq => hj heq.2.symm)] at hs
      rw [hstory _ (h.generation_le s (History.lastCall?_eq_some hs).1)]
      exact h.unrefused j s hs
  case asleep =>
    intro t ht hp
    rcases mem_call.1 ht with ht | rfl
    · rw [hold t ht]
      exact h.asleep t ht hp
    · rw [History.alarm, List.find?_cons_of_pos (by simp [he]), he]
      exact Nat.le_add_right _ _
  case pending =>
    intro t ht hp
    rcases mem_call.1 ht with ht | rfl
    · rw [hold t ht, History.lastEnd_cons_of_ne (by rw [he]; simp)]
      obtain ⟨hle, hmax | ⟨u, hu, hwork⟩⟩ := h.pending t ht hp
      · exact ⟨hle, .inl hmax⟩
      · exact ⟨hle, .inr ⟨u, mem_call.2 (.inl hu), hwork⟩⟩
    · simp [Phase.isPending] at hp

/-! ### Steps -/

theorem occurs_story {p : Phase} (hp : next? c.debouncer t = some p) :
    c.occurs t ++ t.phase.story = p.story := by
  revert hp
  unfold next? occurs
  cases t.phase with
  | sleeping =>
    intro hp
    by_cases hnewest : c.debouncer.isNewest t = true
    · rw [if_pos hnewest] at hp ⊢
      obtain rfl := Option.some.inj hp
      rfl
    · rw [if_neg hnewest] at hp
      exact absurd hp (by simp)
  | admitted lock =>
    intro hp
    obtain rfl := Option.some.inj hp
    by_cases hnewest : c.debouncer.isNewest t = true <;> simp [hnewest, Phase.story]
  | leaving lock ran =>
    intro hp
    obtain rfl := Option.some.inj hp
    cases ran <;> rfl
  | released lock ran => exact fun hp => absurd hp (by simp)
  | _ =>
    intro hp
    obtain rfl := Option.some.inj hp
    rfl

theorem occurs_wholeStory (hp : next? c.debouncer t = none) :
    c.occurs t ++ t.phase.story ∈ wholeStories := by
  revert hp
  unfold next? occurs
  cases t.phase with
  | sleeping =>
    intro hp
    by_cases hnewest : c.debouncer.isNewest t = true
    · rw [if_pos hnewest] at hp
      exact absurd hp (by simp)
    · simp [hnewest, Phase.story, wholeStories]
  | released lock ran => cases ran <;> simp [Phase.story, wholeStories]
  | _ => exact fun hp => absurd hp (by simp)

/-- Nothing is called for in a step. -/
theorem kind_ne_of_mem_occurs {kind : Kind} (hk : kind ∈ c.occurs t) : kind ≠ .called := by
  rintro rfl
  unfold occurs at hk
  revert hk
  cases t.phase <;> simp only <;> (repeat' split) <;> simp

omit [DecidableEq K] in
theorem story_map_event {h : History K} (g : Nat) (kinds : List Kind) :
    History.story (kinds.map (c.event t) ++ h) g
      = if g = t.generation then kinds ++ h.story g else h.story g := by
  induction kinds with
  | nil => simp
  | cons kind kinds ih =>
    rw [List.map_cons, List.cons_append, History.story_cons, ih]
    by_cases hg : g = t.generation
    · simp [event, hg]
    · have hne : ¬ t.generation = g := fun heq => hg heq.symm
      simp [event, hg, hne]

theorem lastCall?_map_event {h : History K} {kinds : List Kind} (hk : ∀ kind ∈ kinds, kind ≠ .called)
    (k : K) : History.lastCall? (kinds.map (c.event t) ++ h) k = h.lastCall? k := by
  induction kinds with
  | nil => rfl
  | cons kind kinds ih =>
    rw [List.map_cons, List.cons_append, History.lastCall?_cons_of_ne,
      ih fun kind' hk' => hk kind' (List.mem_cons_of_mem _ hk')]
    exact fun heq => hk kind List.mem_cons_self heq.1

omit [DecidableEq K] in
theorem alarm_map_event {h : History K} {kinds : List Kind} (hk : ∀ kind ∈ kinds, kind ≠ .called)
    (g : Nat) : History.alarm (kinds.map (c.event t) ++ h) delay g = h.alarm delay g := by
  induction kinds with
  | nil => rfl
  | cons kind kinds ih =>
    rw [List.map_cons, List.cons_append, History.alarm_cons_of_ne,
      ih fun kind' hk' => hk kind' (List.mem_cons_of_mem _ hk')]
    exact fun heq => hk kind List.mem_cons_self heq.1

theorem lastEnd_map_event {h : History K} (kinds : List Kind) (k : K) :
    History.lastEnd (kinds.map (c.event t) ++ h) k
      = if .ended ∈ kinds ∧ k = t.key then c.clock else h.lastEnd k := by
  induction kinds with
  | nil => simp
  | cons kind kinds ih =>
    rw [List.map_cons, List.cons_append]
    by_cases hend : kind = .ended ∧ k = t.key
    · obtain ⟨rfl, rfl⟩ := hend
      rw [if_pos ⟨List.mem_cons_self, rfl⟩]
      exact History.lastEnd_cons_of_ended (e := c.event t .ended) rfl
    · rw [History.lastEnd_cons_of_ne, ih]
      · refine if_congr ?_ rfl rfl
        simp only [List.mem_cons]
        constructor
        · exact fun h => ⟨.inr h.1, h.2⟩
        · exact fun h => ⟨h.1.resolve_left fun heq => hend ⟨heq.symm, h.2⟩, h.2⟩
      · exact fun heq => hend ⟨heq.1, heq.2.symm⟩

theorem ended_mem_occurs : .ended ∈ c.occurs t ↔ ∃ l, t.phase = .running l := by
  unfold occurs
  cases t.phase with
  | sleeping => by_cases hn : c.debouncer.isNewest t = true <;> simp [hn]
  | admitted l => by_cases hn : c.debouncer.isNewest t = true <;> simp [hn]
  | _ => simp

/-- A task that has not done its work is the newest of its key if and only if
the last call for its key was the one for it. -/
theorem isNewest_iff (h : c.Consistent delay) (ht : t ∈ c.debouncer.tasks)
    (hp : .ended ∉ t.phase.story) :
    c.debouncer.isNewest t = true ↔ c.history.IsNewest t.key t.generation := by
  rw [isNewest, beq_iff_eq, History.IsNewest]
  rcases h.newest t.key with heq | ⟨hnone, s, hs, hended⟩
  · rw [heq]
  · rw [hnone, hs]
    simp only [Option.map_some, Option.some.injEq]
    constructor
    · exact fun heq => absurd heq (by simp)
    · intro heq
      rw [heq, h.story t ht] at hended
      exact absurd hended hp

theorem alarm_eq (h : c.Consistent delay) {s : Event K} (hs : s ∈ c.history)
    (hk : s.kind = .called) : c.history.alarm delay s.generation = s.time + delay := by
  unfold History.alarm
  cases hfind : c.history.find? fun e => e.kind = .called ∧ e.generation = s.generation with
  | none =>
    have := List.find?_eq_none.1 hfind s hs
    simp [hk] at this
  | some s' =>
    have hs' : s'.kind = .called ∧ s'.generation = s.generation := by
      simpa using List.find?_some hfind
    rw [h.unique s' (List.mem_of_find?_eq_some hfind) s hs hs'.1 hk hs'.2]
    rfl

/-- A task is told from others by its generation, key included. -/
theorem key_eq (h : c.Consistent delay) (ht : t ∈ c.debouncer.tasks) {e : Event K}
    (he : e ∈ c.history) (hg : e.generation = t.generation) : e.key = t.key := by
  obtain ⟨s, hs, hsk, hsg, hskey⟩ := h.called t ht
  obtain ⟨s', hs', hsk', hsg', hskey'⟩ := h.origin e he
  rw [← hskey', ← hskey, h.unique s hs s' hs' hsk hsk' (by rw [hsg, hsg', hg])]

/-- While a task has the lock of a key, no work of the key is in progress. -/
theorem not_running (h : c.Consistent delay) (ht : t ∈ c.debouncer.tasks) {l : Nat}
    (hp : t.phase = .admitted l) {u : Task K} (hu : u ∈ c.debouncer.tasks) (hkey : u.key = t.key)
    (l' : Nat) : u.phase ≠ .running l' := by
  intro hup
  have hcont : t.phase.contended? = some l := by rw [hp]; rfl
  have hcont' : u.phase.contended? = some l' := by rw [hup]; rfl
  have heq := h.ordered.eq_of_held ht hu hkey.symm hcont hcont' (by rw [hp]; rfl) (by rw [hup]; rfl)
  rw [heq, hup] at hp
  exact absurd hp (by simp)

theorem atRest (h : c.Consistent delay) (ht : t ∈ c.debouncer.tasks) {l : Nat}
    (hp : t.phase = .admitted l) : c.history.AtRest t.key := by
  intro b hb hbegan hkey
  have hstarted : .started ∈ c.history.story b.generation :=
    History.mem_story.2 ⟨b, hb, rfl, hbegan⟩
  suffices .ended ∈ c.history.story b.generation by
    obtain ⟨e, he, hg, hended⟩ := History.mem_story.1 this
    exact ⟨e, he, hended, hg⟩
  -- either the task has ended, or it is still there, but not at work
  by_cases hover : ∀ u ∈ c.debouncer.tasks, u.generation ≠ b.generation
  · have hwhole := h.finished b hb hover
    revert hwhole hstarted
    simp only [wholeStories, List.mem_cons, List.not_mem_nil, or_false]
    rintro hstarted (heq | heq | heq) <;> simp_all
  · push Not at hover
    obtain ⟨u, hu, hg⟩ := hover
    have hnot := h.not_running ht hp hu ((h.key_eq hu hb hg.symm).symm.trans hkey)
    rw [← hg, h.story u hu] at hstarted ⊢
    cases hup : u.phase with
    | running l' => exact absurd hup (hnot l')
    | leaving l' ran => cases ran <;> simp_all [Phase.story]
    | released l' ran => cases ran <;> simp_all [Phase.story]
    | _ => simp_all [Phase.story]

omit [DecidableEq K] in
theorem canMove_waiting (hmove : c.canMove delay t = true) (l : Nat) (hp : t.phase = .waiting l) :
    c.debouncer.isHeld l = false := by
  simpa [canMove, hp] using hmove

theorem chronicle_move (h : c.Consistent delay) (ht : t ∈ c.debouncer.tasks) : (c.move t).history.IsChronicle delay := by
  have hfits := h.chronicle
  unfold Clockwork.move occurs
  cases hp : t.phase with
  | sleeping =>
    have hiff := h.isNewest_iff ht (by rw [hp]; simp [Phase.story])
    by_cases hnewest : c.debouncer.isNewest t = true
    · simp only [hnewest, if_true]
      exact ⟨iff_of_true rfl (hiff.1 hnewest), hfits⟩
    · simp only [hnewest]
      exact ⟨trivial, iff_of_false Bool.false_ne_true fun hn => hnewest (hiff.2 hn), hfits⟩
  | admitted l =>
    have hiff := h.isNewest_iff ht (by rw [hp]; simp [Phase.story])
    by_cases hnewest : c.debouncer.isNewest t = true
    · simp only [hnewest, if_true]
      refine ⟨?_, hfits⟩
      obtain ⟨s, hs, hg⟩ := Option.map_eq_some_iff.1 (hiff.1 hnewest)
      refine ⟨s, hs, hg, ?_, h.atRest ht hp⟩
      -- no work is in progress, so the task has not waited longer than it had to
      have hcall := History.lastCall?_eq_some hs
      obtain ⟨-, hmax | ⟨u, hu, hkey, l', hrunning⟩⟩ := h.pending t ht (by rw [hp]; rfl)
      · rw [← h.alarm_eq hcall.1 hcall.2.1, hg]
        exact hmax
      · exact absurd hrunning (h.not_running ht hp hu hkey l')
    · simp only [hnewest]
      exact ⟨fun hn => hnewest (hiff.2 hn), hfits⟩
  | running l => exact ⟨trivial, hfits⟩
  | released l ran => exact ⟨trivial, hfits⟩
  | _ => exact hfits

theorem pending_move (h : c.Consistent delay) (ht : t ∈ c.debouncer.tasks)
    (hmove : c.canMove delay t = true) {u : Task K} (hu : u ∈ (c.move t).debouncer.tasks)
    (hp : u.phase.isPending = true) :
    (c.move t).history.alarm delay u.generation ≤ c.clock
      ∧ (c.clock = max ((c.move t).history.alarm delay u.generation)
          ((c.move t).history.lastEnd u.key)
        ∨ ∃ v ∈ (c.move t).debouncer.tasks, v.key = u.key ∧ ∃ l, v.phase = .running l) := by
  have hmem (v : Task K) := h.ordered.mem_step (u := v) ht (canMove_waiting hmove)
  -- work in progress that is not the moving task's stays in progress
  have hstays {k : K} (hk : ¬ (.ended ∈ c.occurs t ∧ k = t.key))
      (hwork : ∃ v ∈ c.debouncer.tasks, v.key = k ∧ ∃ l, v.phase = .running l) :
      ∃ v ∈ (c.move t).debouncer.tasks, v.key = k ∧ ∃ l, v.phase = .running l := by
    obtain ⟨v, hv, rfl, l, hrunning⟩ := hwork
    refine ⟨v, (hmem v).2 (.inl ⟨hv, fun hg => hk ?_⟩), rfl, l, hrunning⟩
    obtain rfl := h.ordered.eq_of_generation hv ht hg
    exact ⟨ended_mem_occurs.2 ⟨l, hrunning⟩, rfl⟩
  rw [show (c.move t).history.alarm delay u.generation = c.history.alarm delay u.generation from
    alarm_map_event (fun _ => kind_ne_of_mem_occurs) _, Clockwork.move, lastEnd_map_event]
  rcases (hmem u).1 hu with ⟨hu, -⟩ | ⟨p, hnext, rfl⟩
  · obtain ⟨hle, hsince⟩ := h.pending u hu hp
    refine ⟨hle, ?_⟩
    by_cases hend : .ended ∈ c.occurs t ∧ u.key = t.key
    · rw [if_pos hend, Nat.max_eq_right hle]
      exact .inl rfl
    · rw [if_neg hend]
      exact hsince.imp_right (hstays hend)
  · have hidle : ¬ (.ended ∈ c.occurs t ∧ t.key = t.key) := by
      rintro ⟨hended, -⟩
      obtain ⟨l, hrunning⟩ := ended_mem_occurs.1 hended
      rw [next?, hrunning] at hnext
      obtain rfl := Option.some.inj hnext
      simp [Phase.isPending] at hp
    rw [if_neg hidle]
    cases hphase : t.phase with
    | sleeping =>
      have hle : c.history.alarm delay t.generation ≤ c.clock := by
        simpa [canMove, hphase] using hmove
      have hend := History.lastEnd_le h.time_le t.key
      have hasleep := h.asleep t ht hphase
      exact ⟨hle, .inl (by simp only; omega)⟩
    | due =>
      obtain ⟨hle, hsince⟩ := h.pending t ht (by rw [hphase]; rfl)
      exact ⟨hle, hsince.imp_right (hstays hidle)⟩
    | waiting l =>
      obtain ⟨hle, hsince⟩ := h.pending t ht (by rw [hphase]; rfl)
      exact ⟨hle, hsince.imp_right (hstays hidle)⟩
    | admitted l =>
      rw [next?, hphase] at hnext
      obtain rfl := Option.some.inj hnext
      simp only at hp
      split at hp <;> simp [Phase.isPending] at hp
    | released l ran =>
      rw [next?, hphase] at hnext
      exact absurd hnext (by simp)
    | _ =>
      rw [next?, hphase] at hnext
      obtain rfl := Option.some.inj hnext
      simp [Phase.isPending] at hp

theorem newest_move (h : c.Consistent delay) (ht : t ∈ c.debouncer.tasks) (k : K) :
    lookup (c.move t).debouncer.newest k
        = ((c.move t).history.lastCall? k).map Event.generation
      ∨ (lookup (c.move t).debouncer.newest k = none
        ∧ ∃ s, (c.move t).history.lastCall? k = some s
          ∧ .ended ∈ (c.move t).history.story s.generation) := by
  have hcall : (c.move t).history.lastCall? k = c.history.lastCall? k :=
    lastCall?_map_event (fun _ => kind_ne_of_mem_occurs) k
  have hended {g : Nat} (hg : .ended ∈ c.history.story g) : .ended ∈ (c.move t).history.story g := by
    rw [Clockwork.move, story_map_event]
    split
    · exact List.mem_append_right _ hg
    · exact hg
  rw [hcall, show (c.move t).debouncer = c.debouncer.step t from rfl]
  rcases newest_step c.debouncer t with heq | ⟨⟨l, hp⟩, hlookup, heq⟩
  · rw [heq]
    rcases h.newest k with hk | ⟨hnone, s, hs, hmem⟩
    · exact .inl hk
    · exact .inr ⟨hnone, s, hs, hended hmem⟩
  · rw [heq, lookup_erase]
    by_cases hk : k = t.key
    · -- the generation is forgotten, and its work has ended
      subst hk
      rcases h.newest t.key with hnewest | ⟨hnone, -⟩
      · obtain ⟨s, hs, hg⟩ := Option.map_eq_some_iff.1 (hnewest.symm.trans hlookup)
        refine .inr ⟨if_pos rfl, s, hs, hended ?_⟩
        rw [hg, h.story t ht, hp]
        simp [Phase.story]
      · rw [hnone] at hlookup
        exact absurd hlookup (by simp)
    · rw [if_neg hk]
      rcases h.newest k with hk | ⟨hnone, s, hs, hmem⟩
      · exact .inl hk
      · exact .inr ⟨hnone, s, hs, hended hmem⟩

theorem unrefused_move (h : c.Consistent delay) (ht : t ∈ c.debouncer.tasks) {k : K} {s : Event K}
    (hs : c.history.lastCall? k = some s) :
    .refused ∉ (c.move t).history.story s.generation
      ∧ .woke false ∉ (c.move t).history.story s.generation := by
  have hold := h.unrefused k s hs
  rw [Clockwork.move, story_map_event]
  split
  · next hg =>
    -- the last call for the key was the one for this task, so it is the newest
    have hmem := History.lastCall?_eq_some hs
    have hkey : t.key = k := by rw [← h.key_eq ht hmem.1 hg, hmem.2.2]
    have hnewest : c.history.IsNewest t.key t.generation := by
      rw [History.IsNewest, hkey, hs, ← hg]
      rfl
    have hiff := h.isNewest_iff ht
    unfold occurs
    cases hp : t.phase with
    | sleeping =>
      rw [hp] at hiff
      simp [(hiff (by simp [Phase.story])).2 hnewest, hold]
    | admitted l =>
      rw [hp] at hiff
      simp [(hiff (by simp [Phase.story])).2 hnewest, hold]
    | _ => simp [hold]
  · exact hold

theorem move (h : c.Consistent delay) (ht : t ∈ c.debouncer.tasks)
    (hmove : c.canMove delay t = true) : (c.move t).Consistent delay := by
  have hmem (v : Task K) := h.ordered.mem_step (u := v) ht (canMove_waiting hmove)
  have hin {e : Event K} (he : e ∈ (c.move t).history) :
      (e ∈ c.history) ∨ (∃ kind ∈ c.occurs t, e = c.event t kind) := by
    rcases List.mem_append.1 he with he | he
    · obtain ⟨kind, hk, rfl⟩ := List.mem_map.1 he
      exact .inr ⟨kind, hk, rfl⟩
    · exact .inl he
  have hstory (g : Nat) := story_map_event (c := c) (t := t) (h := c.history) g (c.occurs t)
  -- what happens in the step is added to the story of the task, and to no other
  constructor
  case ordered => exact h.ordered.step ht
  case chronicle => exact h.chronicle_move ht
  case time_le =>
    intro e he
    rcases hin he with he | ⟨kind, -, rfl⟩
    · exact h.time_le e he
    · exact Nat.le_refl _
  case falling =>
    refine List.pairwise_append.2 ⟨?_, h.falling, ?_⟩
    · exact List.pairwise_map.2 (List.pairwise_of_forall fun _ _ => Nat.le_refl _)
    · intro e he e' he'
      obtain ⟨kind, -, rfl⟩ := List.mem_map.1 he
      exact h.time_le e' he'
  case generation_le =>
    intro e he
    rw [show (c.move t).debouncer = c.debouncer.step t from rfl, generation_step]
    rcases hin he with he | ⟨kind, -, rfl⟩
    · exact h.generation_le e he
    · exact h.ordered.generation_le t ht
  case unique =>
    intro s hs s' hs' hk hk' hg
    rcases hin hs with hs | ⟨kind, hkind, rfl⟩
    · rcases hin hs' with hs' | ⟨kind, hkind, rfl⟩
      · exact h.unique s hs s' hs' hk hk' hg
      · exact absurd hk' (kind_ne_of_mem_occurs hkind)
    · exact absurd hk (kind_ne_of_mem_occurs hkind)
  case origin =>
    intro e he
    rcases hin he with he | ⟨kind, -, rfl⟩
    · obtain ⟨s, hs, hso⟩ := h.origin e he
      exact ⟨s, List.mem_append_right _ hs, hso⟩
    · obtain ⟨s, hs, hso⟩ := h.called t ht
      exact ⟨s, List.mem_append_right _ hs, hso⟩
  case called =>
    intro u hu
    rcases (hmem u).1 hu with ⟨hu, -⟩ | ⟨p, -, rfl⟩
    · obtain ⟨s, hs, hso⟩ := h.called u hu
      exact ⟨s, List.mem_append_right _ hs, hso⟩
    · obtain ⟨s, hs, hso⟩ := h.called t ht
      exact ⟨s, List.mem_append_right _ hs, hso⟩
  case story =>
    intro u hu
    refine (hstory u.generation).trans ?_
    rcases (hmem u).1 hu with ⟨hu, hg⟩ | ⟨p, hnext, rfl⟩
    · rw [if_neg hg, h.story u hu]
    · rw [if_pos rfl, h.story t ht]
      exact occurs_story hnext
  case finished =>
    intro e he hnone
    refine (hstory e.generation).symm ▸ ?_
    by_cases hg : e.generation = t.generation
    · rw [if_pos hg, hg, h.story t ht]
      refine occurs_wholeStory ?_
      cases hnext : next? c.debouncer t with
      | none => rfl
      | some p =>
        have hstill := (hmem { t with phase := p }).2 (.inr ⟨p, hnext, rfl⟩)
        exact absurd hg.symm (hnone { t with phase := p } hstill)
    · rw [if_neg hg]
      rcases hin he with he | ⟨kind, -, rfl⟩
      · refine h.finished e he fun u hu hug => hnone u ((hmem u).2 (.inl ⟨hu, ?_⟩)) hug
        rwa [hug]
      · exact absurd rfl hg
  case newest => exact h.newest_move ht
  case unrefused =>
    intro k s hs
    rw [show (c.move t).history.lastCall? k = c.history.lastCall? k from
      lastCall?_map_event (fun _ => kind_ne_of_mem_occurs) k] at hs
    exact h.unrefused_move ht hs
  case asleep =>
    intro u hu hp
    rw [show (c.move t).history.alarm delay u.generation = c.history.alarm delay u.generation from
      alarm_map_event (fun _ => kind_ne_of_mem_occurs) _]
    rcases (hmem u).1 hu with ⟨hu, -⟩ | ⟨p, hnext, rfl⟩
    · exact h.asleep u hu hp
    · -- no step leads back to sleep
      obtain rfl : p = .sleeping := hp
      unfold next? at hnext
      revert hnext
      cases t.phase <;> simp only <;> (repeat' split) <;> simp
  case pending => exact fun u hu hp => h.pending_move ht hmove hu hp

/-! ### Executions -/

theorem exists_of_take_move (h : c.Consistent delay) {g : Nat} {c' : Clockwork K}
    (ha : c.take delay (.move g) = some c') :
    ∃ t ∈ c.debouncer.tasks, t.generation = g ∧ c.canMove delay t = true ∧ c' = c.move t := by
  unfold Clockwork.take at ha
  cases htask : c.debouncer.task? g with
  | none => simp [htask] at ha
  | some t =>
    obtain ⟨ht, hg⟩ := (task?_eq_some_iff h.ordered.nodup).1 htask
    simp only [htask] at ha
    split at ha
    · next hmove => exact ⟨t, ht, hg, hmove, (Option.some.inj ha).symm⟩
    · exact absurd ha (by simp)

theorem of_take_pass {time : Nat} {c' : Clockwork K}
    (ha : c.take delay (.pass time) = some c') :
    (∀ t ∈ c.debouncer.tasks, c.canRest delay time t = true)
      ∧ c' = { c with clock := c.clock + time } := by
  unfold Clockwork.take at ha
  simp only at ha
  split at ha
  · next hrest => exact ⟨List.all_eq_true.1 hrest, (Option.some.inj ha).symm⟩
  · exact absurd ha (by simp)

/-- What an action does keeps everything consistent. -/
theorem take (h : c.Consistent delay) {a : Action K} {c' : Clockwork K}
    (ha : c.take delay a = some c') : c'.Consistent delay := by
  cases a with
  | call k =>
    obtain rfl := Option.some.inj ha
    exact h.call k
  | move g =>
    obtain ⟨t, ht, -, hmove, rfl⟩ := h.exists_of_take_move ha
    exact h.move ht hmove
  | pass time =>
    obtain ⟨hrest, rfl⟩ := of_take_pass ha
    exact h.pass hrest

/-- Executions keep everything consistent. -/
theorem run (h : c.Consistent delay) {actions : List (Action K)} {c' : Clockwork K}
    (hrun : c.run delay actions = some c') : c'.Consistent delay := by
  induction actions generalizing c with
  | nil =>
    obtain rfl := Option.some.inj hrun
    exact h
  | cons a actions ih =>
    obtain ⟨c₁, ha, hrest⟩ := Option.bind_eq_some_iff.1 hrun
    exact ih (h.take ha) hrest

end Consistent

end Clockwork

end ElementLens.Debouncer
