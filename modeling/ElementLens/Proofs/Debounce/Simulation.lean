/-
Executions that go along with timelines.

A timeline knows when each sleeper wakes up and when each piece of work ends, and
goes from one of these moments to the next one. An execution can go along with it
(`Clockwork.Follows`): the steps that a timeline puts together are taken one
after the other, and time passes between them:

* **`Follows.of_moved`** — a task moves;
* **`Follows.tick`** — one moment;
* **`Follows.runUntil`** — all moments before a time.
-/
import ElementLens.Debounce.Timeline
import ElementLens.Proofs.Debounce.Stages

namespace ElementLens.Debouncer

theorem earliest?_eq_min? (times : List Nat) : earliest? times = times.min? := by
  cases times with
  | nil => rfl
  | cons t ts =>
    rw [earliest?, List.foldl_cons, List.min?]
    simp only
    induction ts generalizing t with
    | nil => rfl
    | cons u us ih => exact ih (min t u)

namespace History

variable {K : Type} {h : History K} {g : Nat} {kind : Kind}

/-- When something last happened to the task of a generation. -/
def moment? (h : History K) (g : Nat) (kind : Kind) : Option Nat :=
  (h.find? fun e => e.generation = g ∧ e.kind = kind).map Event.time

/-- When the work of a task began and ended, if it has ended. -/
def work? (h : History K) (g : Nat) : Option (Nat × Nat) :=
  (h.moment? g .started).bind fun b => (h.moment? g .ended).map fun e => (b, e)

theorem isSome_moment? : (h.moment? g kind).isSome = true ↔ kind ∈ h.story g := by
  simp [moment?, mem_story]

theorem moment?_cons (e : Event K) : moment? (e :: h) g kind
    = if e.generation = g ∧ e.kind = kind then some e.time else h.moment? g kind := by
  unfold moment?
  by_cases he : e.generation = g ∧ e.kind = kind
  · rw [List.find?_cons_of_pos (by simpa using he), if_pos he]
    rfl
  · rw [List.find?_cons_of_neg (by simpa using he), if_neg he]

theorem moment?_map_event {c : Clockwork K} {t : Task K} (kinds : List Kind) :
    moment? (kinds.map (c.event t) ++ h) g kind
      = if g = t.generation ∧ kind ∈ kinds then some c.clock else h.moment? g kind := by
  induction kinds with
  | nil => simp
  | cons kind' kinds ih =>
    rw [List.map_cons, List.cons_append, moment?_cons, ih]
    by_cases hg : g = t.generation
    · by_cases hk : kind' = kind
      · simp [Clockwork.event, hg, hk]
      · have hne : ¬ kind = kind' := fun heq => hk heq.symm
        simp [Clockwork.event, hg, hk, hne]
    · have hne : ¬ t.generation = g := fun heq => hg heq.symm
      simp [Clockwork.event, hg, hne]

end History

/-! ### Weights -/

/-- How many things a task still waits for: that its time is up, or that its work
ends. -/
def Phase.rank : Phase → Nat
  | .sleeping => 2
  | .waiting _ | .running _ => 1
  | _ => 0

/-- One for tasks that wait for a lock. -/
def Phase.queued : Phase → Nat
  | .waiting _ => 1
  | _ => 0

section Ready

variable {K : Type} [DecidableEq K] {d : Debouncer K} {t : Task K} {g k : Nat}

theorem exists_of_ready? (h : d.ready? = some g) : ∃ t ∈ d.tasks, t.generation = g
    ∧ ∃ k, t.phase = .waiting k ∧ d.isHeld k = false ∧ d.first? k = some t := by
  obtain ⟨t, hfind, hg⟩ := Option.map_eq_some_iff.1 h
  have hready := List.find?_some hfind
  refine ⟨t, List.mem_of_find?_eq_some hfind, hg, ?_⟩
  cases hp : t.phase with
  | waiting k =>
    simp only [hp, Bool.and_eq_true, Bool.not_eq_true', beq_iff_eq] at hready
    exact ⟨k, rfl, hready⟩
  | _ => simp [hp] at hready

/-- If nobody may take a lock, whoever waits for one has to. -/
theorem isHeld_of_ready?_eq_none (h : d.ready? = none) (ht : t ∈ d.tasks)
    (hp : t.phase = .waiting k) : d.isHeld k = true := by
  by_contra hfree
  -- the first in line for the lock could take it
  cases hfirst : d.first? k with
  | none => simpa [hp] using List.find?_eq_none.1 hfirst t ht
  | some u =>
    have hup : u.phase = .waiting k := by simpa using List.find?_some hfirst
    have hnot := List.find?_eq_none.1 (Option.map_eq_none_iff.1 h) u
      (List.mem_of_find?_eq_some hfirst)
    simp [hup, hfirst, hfree] at hnot

end Ready

namespace Clockwork

variable {K : Type} [DecidableEq K] {delay : Nat} {duration : Nat → Nat} {l : Timeline K}
  {c c' : Clockwork K} {t : Task K} {p? : Option Phase} {kinds : List Kind}

omit [DecidableEq K] in
theorem le_weight (ht : t ∈ c.debouncer.tasks) (w : Phase → Nat) : w t.phase ≤ c.weight w :=
  List.le_sum_of_mem (List.mem_map_of_mem ht)

/-- There are at least as many tasks as tasks that wait. -/
theorem Moved.weight_queued_le (h : Moved delay c t p? kinds c') (hc : c.Consistent delay)
    (ht : t ∈ c.debouncer.tasks) : c'.weight Phase.queued ≤ c.debouncer.tasks.length := by
  have hone := h.weight hc ht fun _ => 1
  have hlength : c.weight (fun _ => 1) = c.debouncer.tasks.length := by simp [Clockwork.weight]
  have hle : c'.weight Phase.queued ≤ c'.weight fun _ => 1 := by
    refine List.sum_le_sum fun u _ => ?_
    cases u.phase <;> simp [Phase.queued]
  have hstay : (p?.map fun _ => 1).getD 0 ≤ 1 := by cases p? <;> simp
  omega

theorem Moved.exists_iff (h : Moved delay c t p? kinds c') (hc : c.Consistent delay)
    (ht : t ∈ c.debouncer.tasks) {P : Task K → Prop} (hnot : ¬ P t)
    (hnot' : ∀ p, p? = some p → ¬ P { t with phase := p }) :
    (∃ u ∈ c'.debouncer.tasks, P u) ↔ ∃ u ∈ c.debouncer.tasks, P u := by
  constructor
  · rintro ⟨u, hu, hp⟩
    rcases (h.mem u).1 hu with ⟨hu, -⟩ | ⟨p, heq, rfl⟩
    · exact ⟨u, hu, hp⟩
    · exact absurd hp (hnot' p heq)
  · rintro ⟨u, hu, hp⟩
    refine ⟨u, (h.mem u).2 (.inl ⟨hu, fun hg => hnot ?_⟩), hp⟩
    rwa [← hc.ordered.eq_of_generation hu ht hg]

/-- A task is where it stays between two moments. -/
def Calm (c : Clockwork K) : Prop := ∀ t ∈ c.debouncer.tasks,
  t.phase = .sleeping ∨ (∃ k, t.phase = .waiting k) ∨ ∃ k, t.phase = .running k

/-- Whoever waits for a lock has to. -/
def Rested (c : Clockwork K) : Prop := ∀ t ∈ c.debouncer.tasks, ∀ k, t.phase = .waiting k →
  c.debouncer.isHeld k = true

/-- A state of an execution is the one of a timeline. -/
structure Follows (delay : Nat) (duration : Nat → Nat) (l : Timeline K) (c : Clockwork K) : Prop where
  consistent : c.Consistent delay
  clock : c.clock = l.clock
  debouncer : c.debouncer = l.debouncer
  calm : c.Calm
  /-- An alarm is set for each sleeper. -/
  alarms : ∀ time g, (time, g) ∈ l.alarms ↔ ∃ t ∈ c.debouncer.tasks,
    t.phase = .sleeping ∧ t.generation = g ∧ c.history.alarm delay g = time
  /-- It is known when work in progress ends. -/
  ends : ∀ stop g began, (stop, g, began) ∈ l.ends ↔ ∃ t ∈ c.debouncer.tasks,
    (∃ k, t.phase = .running k) ∧ t.generation = g ∧ c.history.moment? g .started = some began
      ∧ stop = began + duration g
  ahead : ∀ stop g began, (stop, g, began) ∈ l.ends → l.clock ≤ stop
  finished : ∀ g began stop, (g, began, stop) ∈ l.finished ↔ c.history.work? g = some (began, stop)
  lasts : ∀ g began stop, (g, began, stop) ∈ l.finished → stop = began + duration g

/-! ### Steps put together -/

theorem Moved.moment? (h : Moved delay c t p? kinds c') (g : Nat) (kind : Kind) :
    c'.history.moment? g kind
      = if g = t.generation ∧ kind ∈ kinds then some c.clock else c.history.moment? g kind := by
  rw [h.history, History.moment?_map_event]

theorem Moved.alarm (h : Moved delay c t p? kinds c') (g : Nat) :
    c'.history.alarm delay g = c.history.alarm delay g := by
  rw [h.history, Consistent.alarm_map_event h.uncalled]

theorem Moved.calm (h : Moved delay c t p? kinds c') (hc : c.Calm)
    (hp : ∀ p, p? = some p → (∃ k, p = .waiting k) ∨ ∃ k, p = .running k) : c'.Calm := by
  intro u hu
  rcases (h.mem u).1 hu with ⟨hu, -⟩ | ⟨p, heq, rfl⟩
  · exact hc u hu
  · exact .inr (hp p heq)

theorem Consistent.moment?_eq_none (h : c.Consistent delay) (ht : t ∈ c.debouncer.tasks)
    {kind : Kind} (hk : kind ∉ t.phase.story) : c.history.moment? t.generation kind = none := by
  rw [← Option.not_isSome_iff_eq_none, History.isSome_moment?, h.story t ht]
  exact hk

namespace Follows

/-- A task of a timeline has not ended its work. -/
theorem unended (h : Follows delay duration l c) (ht : t ∈ c.debouncer.tasks) :
    c.history.moment? t.generation .ended = none := by
  refine h.consistent.moment?_eq_none ht ?_
  rcases h.calm t ht with hp | ⟨k, hp⟩ | ⟨k, hp⟩ <;> simp [hp, Phase.story]

theorem ne_of_mem_alarms (h : Follows delay duration l c) (ht : t ∈ c.debouncer.tasks)
    (hp : t.phase ≠ .sleeping) {time g : Nat} (hmem : (time, g) ∈ l.alarms) : g ≠ t.generation := by
  rintro rfl
  obtain ⟨u, hu, hup, hg, -⟩ := (h.alarms ..).1 hmem
  exact hp (h.consistent.ordered.eq_of_generation hu ht hg ▸ hup)

theorem ne_of_mem_ends (h : Follows delay duration l c) (ht : t ∈ c.debouncer.tasks)
    (hp : ∀ k, t.phase ≠ .running k) {stop g began : Nat} (hmem : (stop, g, began) ∈ l.ends) :
    g ≠ t.generation := by
  rintro rfl
  obtain ⟨u, hu, ⟨k, hup⟩, hg, -⟩ := (h.ends ..).1 hmem
  exact hp k (h.consistent.ordered.eq_of_generation hu ht hg ▸ hup)

/-- A timeline goes along with a task that moves: it sets no alarm for it any
more, knows when its work ends if it has begun just now, and knows of its work if
it has ended. -/
theorem of_moved {l' : Timeline K} (h : Follows delay duration l c) (ht : t ∈ c.debouncer.tasks)
    (hmoved : Moved delay c t p? kinds c')
    (hp : ∀ p, p? = some p → (∃ k, p = .waiting k) ∨ ∃ k, p = .running k ∧ .started ∈ kinds)
    (hclock : l'.clock = l.clock) (hdebouncer : c'.debouncer = l'.debouncer)
    (halarms : ∀ time g, (time, g) ∈ l'.alarms ↔ (time, g) ∈ l.alarms ∧ g ≠ t.generation)
    (hends : ∀ stop g began, (stop, g, began) ∈ l'.ends
      ↔ ((stop, g, began) ∈ l.ends ∧ g ≠ t.generation)
        ∨ (g = t.generation ∧ (∃ k, p? = some (.running k)) ∧ began = l.clock
          ∧ stop = l.clock + duration g))
    (hfinished : ∀ g b e, (g, b, e) ∈ l'.finished
      ↔ (g, b, e) ∈ l.finished ∨ (g = t.generation ∧ c'.history.work? g = some (b, e)))
    (hlasts : ∀ b e, c'.history.work? t.generation = some (b, e) → e = b + duration t.generation) :
    Follows delay duration l' c' := by
  have hc := h.consistent
  have hmem (u : Task K) (hu : u ∈ c'.debouncer.tasks) (hg : u.generation = t.generation) :
      ∃ p, p? = some p ∧ u = { t with phase := p } := by
    rcases (hmoved.mem u).1 hu with ⟨-, hne⟩ | hself
    · exact absurd hg hne
    · exact hself
  have hother {P : Task K → Prop} (hP : ∀ u, P u → u.generation ≠ t.generation) :
      (∃ u ∈ c'.debouncer.tasks, P u) ↔ ∃ u ∈ c.debouncer.tasks, P u :=
    hmoved.exists_iff hc ht (fun hPt => hP t hPt rfl) fun _ _ hPt => hP _ hPt rfl
  have hmoment {g : Nat} (hg : g ≠ t.generation) (kind : Kind) :
      c'.history.moment? g kind = c.history.moment? g kind := by
    rw [hmoved.moment?, if_neg fun hand => hg hand.1]
  have hbegins {k : Nat} (hk : p? = some (.running k)) :
      c'.history.moment? t.generation .started = some l.clock := by
    have hstarted : .started ∈ kinds := by
      rcases hp _ hk with ⟨k', hk'⟩ | ⟨-, -, hstarted⟩
      · exact absurd hk' (by simp)
      · exact hstarted
    rw [hmoved.moment?, if_pos ⟨rfl, hstarted⟩, h.clock]
  -- each table is compared for the task that moves and for the others
  constructor
  case consistent => exact hmoved.consistent hc
  case clock => rw [hmoved.clock, h.clock, hclock]
  case debouncer => exact hdebouncer
  case calm =>
    refine hmoved.calm h.calm fun p heq => (hp p heq).imp_right ?_
    rintro ⟨k, rfl, -⟩
    exact ⟨k, rfl⟩
  case alarms =>
    intro time g
    rw [halarms, h.alarms, hmoved.alarm]
    by_cases hg : g = t.generation
    · subst hg
      refine iff_of_false (fun hand => hand.2 rfl) ?_
      rintro ⟨u, hu, hup, hug, -⟩
      obtain ⟨p, heq, rfl⟩ := hmem u hu hug
      obtain rfl : p = .sleeping := hup
      rcases hp _ heq with ⟨k, hk⟩ | ⟨k, hk, -⟩ <;> exact absurd hk (by simp)
    · rw [and_iff_left hg]
      refine (hother ?_).symm
      rintro u ⟨-, hug, -⟩
      rwa [hug]
  case ends =>
    intro stop g began
    rw [hends, h.ends]
    by_cases hg : g = t.generation
    · subst hg
      rw [or_iff_right fun hand => hand.2 rfl]
      constructor
      · rintro ⟨-, ⟨k, rfl⟩, rfl, rfl⟩
        exact ⟨_, hmoved.self_mem, ⟨k, rfl⟩, rfl, hbegins rfl, rfl⟩
      · rintro ⟨u, hu, ⟨k, hk⟩, hug, hbegan, rfl⟩
        obtain ⟨p, rfl, rfl⟩ := hmem u hu hug
        obtain rfl : p = .running k := hk
        obtain rfl := Option.some.inj ((hbegins rfl).symm.trans hbegan)
        exact ⟨rfl, ⟨k, rfl⟩, rfl, rfl⟩
    · rw [and_iff_left hg, or_iff_left fun hand => hg hand.1, hmoment hg]
      refine (hother ?_).symm
      rintro u ⟨-, hug, -⟩
      rwa [hug]
  case ahead =>
    intro stop g began hmem
    rw [hclock]
    rcases (hends ..).1 hmem with ⟨hmem, -⟩ | ⟨-, -, -, rfl⟩
    · exact h.ahead stop g began hmem
    · exact Nat.le_add_right _ _
  case finished =>
    intro g b e
    rw [hfinished, h.finished]
    by_cases hg : g = t.generation
    · subst hg
      have hnone : c.history.work? t.generation = none := by
        rw [History.work?, h.unended ht]
        simp
      simp [hnone]
    · have hsame : c'.history.work? g = c.history.work? g := by
        rw [History.work?, hmoment hg, hmoment hg, ← History.work?]
      rw [hsame]
      exact or_iff_left fun hand => hg hand.1
  case lasts =>
    intro g b e hmem
    rcases (hfinished ..).1 hmem with hmem | ⟨rfl, hwork⟩
    · exact h.lasts g b e hmem
    · exact hlasts b e hwork

/-- The work of a task that does not end now has not ended. -/
theorem work?_eq_none (h : Follows delay duration l c) (ht : t ∈ c.debouncer.tasks)
    (hmoved : Moved delay c t p? kinds c') (hended : .ended ∉ kinds) :
    c'.history.work? t.generation = none := by
  rw [History.work?, hmoved.moment? _ .ended, if_neg fun hand => hended hand.2, h.unended ht]
  simp

/-- A sleeper whose alarm goes off wakes up. -/
theorem wake (h : Follows delay duration l c) {g : Nat} (halarm : (l.clock, g) ∈ l.alarms) :
    ∃ c', c.Reaches delay c' ∧ Follows delay duration
        { l with
          debouncer := l.debouncer.wake g
          alarms := l.alarms.filter fun a => a.2 ≠ g } c'
      ∧ c'.weight Phase.rank < c.weight Phase.rank
      ∧ c'.weight Phase.queued ≤ c.debouncer.tasks.length := by
  have hc := h.consistent
  obtain ⟨t, ht, hp, rfl, htime⟩ := (h.alarms ..).1 halarm
  obtain ⟨c', hdebouncer, hmoved⟩ := hc.wake ht hp (by rw [htime, h.clock])
  -- whether it joins the line or ends, no work begins or ends
  obtain ⟨p?, kinds, hmoved, hwaiting, hended⟩ : ∃ p? kinds, Moved delay c t p? kinds c'
      ∧ (∀ p, p? = some p → ∃ k, p = .waiting k) ∧ .ended ∉ kinds := by
    rcases hmoved with ⟨k, hmoved⟩ | hmoved
    · exact ⟨_, _, hmoved, fun p heq => ⟨k, (Option.some.inj heq).symm⟩, by simp⟩
    · exact ⟨_, _, hmoved, by simp, by simp⟩
  refine ⟨c', hmoved.reaches, ?_, ?_, hmoved.weight_queued_le hc ht⟩
  · have hnone := h.work?_eq_none ht hmoved hended
    refine h.of_moved ht hmoved (fun p heq => .inl (hwaiting p heq)) rfl
      (by rw [hdebouncer, h.debouncer]) (by simp) ?_ ?_ ?_
    · intro stop g began
      have hrunning : ¬ ∃ k, p? = some (.running k) := by
        rintro ⟨k, heq⟩
        obtain ⟨k', hk'⟩ := hwaiting _ heq
        exact absurd hk' (by simp)
      rw [or_iff_left fun hand => hrunning hand.2.1]
      exact (and_iff_left_of_imp (h.ne_of_mem_ends ht (by simp [hp]))).symm
    · intro g b e
      refine (or_iff_left ?_).symm
      rintro ⟨rfl, hwork⟩
      exact absurd (hnone.symm.trans hwork) (by simp)
    · exact fun b e hwork => absurd (hnone.symm.trans hwork) (by simp)
  · have hweight := hmoved.weight hc ht Phase.rank
    have hle : (p?.map Phase.rank).getD 0 ≤ 1 := by
      cases p? with
      | none => exact Nat.zero_le 1
      | some p =>
        obtain ⟨k, rfl⟩ := hwaiting p rfl
        exact Nat.le_refl 1
    rw [hp, show Phase.sleeping.rank = 2 from rfl] at hweight
    omega

/-- Work ends at its time. -/
theorem finish (h : Follows delay duration l c) {g began : Nat}
    (hend : (l.clock, g, began) ∈ l.ends) :
    ∃ c', c.Reaches delay c' ∧ Follows delay duration
        { l with
          debouncer := l.debouncer.finish g
          ends := l.ends.filter fun e => e.2.1 ≠ g
          finished := (g, began, l.clock) :: l.finished } c'
      ∧ c'.weight Phase.rank < c.weight Phase.rank
      ∧ c'.weight Phase.queued ≤ c.debouncer.tasks.length := by
  have hc := h.consistent
  obtain ⟨t, ht, ⟨k, hp⟩, rfl, hbegan, hstop⟩ := (h.ends ..).1 hend
  obtain ⟨c', hdebouncer, hmoved⟩ := hc.finish ht hp
  have hwork : c'.history.work? t.generation = some (began, l.clock) := by
    rw [History.work?, hmoved.moment?, hmoved.moment?, hbegan, h.clock]
    simp
  refine ⟨c', hmoved.reaches, ?_, ?_, hmoved.weight_queued_le hc ht⟩
  · refine h.of_moved ht hmoved (by simp) rfl (by rw [hdebouncer, h.debouncer]) ?_ (by simp) ?_ ?_
    · exact fun time g => (and_iff_left_of_imp (h.ne_of_mem_alarms ht (by simp [hp]))).symm
    · intro g b e
      rw [List.mem_cons, or_comm]
      refine or_congr_right ?_
      constructor
      · intro heq
        obtain ⟨rfl, rfl, rfl⟩ := by simpa only [Prod.mk.injEq] using heq
        exact ⟨rfl, hwork⟩
      · rintro ⟨rfl, hwork'⟩
        obtain ⟨rfl, rfl⟩ := Prod.mk.inj (Option.some.inj (hwork.symm.trans hwork'))
        rfl
    · intro b e hwork'
      obtain ⟨rfl, rfl⟩ := Prod.mk.inj (Option.some.inj (hwork.symm.trans hwork'))
      exact hstop
  · have hweight := hmoved.weight hc ht Phase.rank
    rw [hp, show (Phase.running k).rank = 1 from rfl] at hweight
    simp only [Option.map_none, Option.getD_none] at hweight
    omega

/-- A task that is first in line for a free lock enters. -/
theorem enter (h : Follows delay duration l c) (ht : t ∈ c.debouncer.tasks) {k : Nat}
    (hp : t.phase = .waiting k) (hfree : c.debouncer.isHeld k = false)
    (hfirst : c.debouncer.first? k = some t) :
    ∃ c', c.Reaches delay c' ∧ Follows delay duration
        { l with
          debouncer := l.debouncer.enter t.generation
          ends := if (l.debouncer.enter t.generation).isRunning t.generation
            then l.ends ++ [(l.clock + duration t.generation, t.generation, l.clock)]
            else l.ends } c'
      ∧ c'.weight Phase.rank ≤ c.weight Phase.rank
      ∧ c'.weight Phase.queued < c.weight Phase.queued := by
  have hc := h.consistent
  obtain ⟨c', hdebouncer, hmoved⟩ := hc.enter ht hp hfree hfirst
  -- its work begins, or it ends without
  obtain ⟨p?, kinds, hmoved, hrunning, hended, hiff⟩ : ∃ p? kinds, Moved delay c t p? kinds c'
      ∧ (∀ p, p? = some p → p = .running k ∧ .started ∈ kinds) ∧ .ended ∉ kinds
      ∧ (c'.debouncer.isRunning t.generation = true ↔ ∃ k, p? = some (.running k)) := by
    rcases hmoved with hmoved | hmoved
    · refine ⟨_, _, hmoved, fun p heq => ⟨(Option.some.inj heq).symm, by simp⟩, by simp, ?_⟩
      have htask := (task?_eq_some_iff (hmoved.consistent hc).ordered.nodup).2
        ⟨hmoved.self_mem, rfl⟩
      simp only at htask
      simp [isRunning, htask]
    · refine ⟨_, _, hmoved, by simp, by simp, ?_⟩
      simp [isRunning, hmoved.task?_eq_none]
  refine ⟨c', hmoved.reaches, ?_, ?_, ?_⟩
  · have hnone := h.work?_eq_none ht hmoved hended
    rw [← h.debouncer, ← hdebouncer]
    refine h.of_moved ht hmoved (fun p heq => .inr ⟨k, hrunning p heq⟩) rfl rfl ?_ ?_ ?_ ?_
    · exact fun time g => (and_iff_left_of_imp (h.ne_of_mem_alarms ht (by simp [hp]))).symm
    · intro stop g began
      have hold : (stop, g, began) ∈ l.ends ∧ g ≠ t.generation ↔ (stop, g, began) ∈ l.ends :=
        and_iff_left_of_imp (h.ne_of_mem_ends ht (by simp [hp]))
      rw [hold]
      simp only
      split
      · next hrun =>
        rw [List.mem_append, List.mem_singleton, Prod.mk.injEq, Prod.mk.injEq]
        refine or_congr_right ?_
        constructor
        · rintro ⟨rfl, rfl, rfl⟩
          exact ⟨rfl, hiff.1 hrun, rfl, rfl⟩
        · rintro ⟨rfl, -, rfl, rfl⟩
          exact ⟨rfl, rfl, rfl⟩
      · next hrun => exact (or_iff_left fun hand => hrun (hiff.2 hand.2.1)).symm
    · intro g b e
      refine (or_iff_left ?_).symm
      rintro ⟨rfl, hwork⟩
      exact absurd (hnone.symm.trans hwork) (by simp)
    · exact fun b e hwork => absurd (hnone.symm.trans hwork) (by simp)
  · have hweight := hmoved.weight hc ht Phase.rank
    have hle : (p?.map Phase.rank).getD 0 ≤ 1 := by
      cases p? with
      | none => exact Nat.zero_le 1
      | some p => exact (hrunning p rfl).1 ▸ Nat.le_refl 1
    rw [hp, show (Phase.waiting k).rank = 1 from rfl] at hweight
    omega
  · have hweight := hmoved.weight hc ht Phase.queued
    have hle : (p?.map Phase.queued).getD 0 = 0 := by
      cases p? with
      | none => rfl
      | some p => exact (hrunning p rfl).1 ▸ rfl
    rw [hp, show (Phase.waiting k).queued = 1 from rfl] at hweight
    omega

/-! ### Moments -/

/-- All tasks that can take a lock take it. -/
theorem settle (h : Follows delay duration l c) {fuel : Nat} (hfuel : c.weight Phase.queued ≤ fuel) :
    ∃ c', c.Reaches delay c' ∧ Follows delay duration (l.settle duration fuel) c' ∧ c'.Rested
      ∧ c'.weight Phase.rank ≤ c.weight Phase.rank ∧ (l.settle duration fuel).clock = l.clock := by
  -- each task that enters leaves the line, so the fuel lasts
  induction fuel generalizing l c with
  | zero =>
    refine ⟨c, .refl c, h, fun t ht k hp => ?_, Nat.le_refl _, rfl⟩
    have hle := le_weight ht Phase.queued
    rw [hp, show (Phase.waiting k).queued = 1 from rfl] at hle
    omega
  | succ fuel ih =>
    unfold Timeline.settle
    cases hready : l.debouncer.ready? with
    | none =>
      refine ⟨c, .refl c, h, fun t ht k hp => ?_, Nat.le_refl _, rfl⟩
      rw [← h.debouncer] at hready
      exact isHeld_of_ready?_eq_none hready ht hp
    | some g =>
      rw [← h.debouncer] at hready
      obtain ⟨t, ht, rfl, k, hp, hfree, hfirst⟩ := exists_of_ready? hready
      obtain ⟨c₁, hreach, hfollows, hrank, hqueued⟩ := h.enter ht hp hfree hfirst
      obtain ⟨c', hreach', hfollows', hrested, hrank', hclock⟩ := ih hfollows (by omega)
      exact ⟨c', hreach.trans hreach', hfollows', hrested, hrank'.trans hrank, hclock⟩

/-- Nothing happens before the next moment. -/
theorem pass (h : Follows delay duration l c) (hrested : c.Rested) {time : Nat}
    (hle : l.clock ≤ time) (hnext : ∀ next, l.next? = some next → time ≤ next) :
    ∃ c', c.Reaches delay c' ∧ Follows delay duration { l with clock := time } c'
      ∧ c'.debouncer = c.debouncer := by
  have hfirst : ∀ moment ∈ l.alarms.map Prod.fst ++ l.ends.map Prod.fst, time ≤ moment := by
    intro moment hmem
    cases hmin : (l.alarms.map Prod.fst ++ l.ends.map Prod.fst).min? with
    | none => exact absurd (List.min?_eq_none_iff.1 hmin) (List.ne_nil_of_mem hmem)
    | some next =>
      have hsome : l.next? = some next := by rw [Timeline.next?, earliest?_eq_min?, hmin]
      exact (hnext next hsome).trans ((List.min?_eq_some_iff.1 hmin).2 moment hmem)
  obtain ⟨n, rfl⟩ := Nat.exists_eq_add_of_le hle
  -- sleepers wait for their alarms, others for locks, and work takes its time
  have hrest : ∀ t ∈ c.debouncer.tasks, c.canRest delay n t = true := by
    intro t ht
    unfold canRest
    rcases h.calm t ht with hp | ⟨k, hp⟩ | ⟨k, hp⟩
    · have hmem := (h.alarms ..).2 ⟨t, ht, hp, rfl, rfl⟩
      have hlater := hfirst _ (List.mem_append_left _ (List.mem_map_of_mem hmem))
      simp only [hp, h.clock, decide_eq_true_eq]
      exact hlater
    · simp [hp, hrested t ht k hp]
    · simp [hp]
  have htake : c.take delay (.pass n) = some { c with clock := c.clock + n } := by
    rw [take, if_pos (List.all_eq_true.2 hrest)]
  refine ⟨_, .of_take htake (by simp), ?_, rfl⟩
  exact { h with
    consistent := h.consistent.take htake
    clock := by simp only [h.clock]
    ahead := fun stop g began hmem => hfirst _
      (List.mem_append_right _ (List.mem_map_of_mem (f := Prod.fst) hmem)) }

/-- One piece of work ends, or one sleeper wakes up. -/
theorem tick (h : Follows delay duration l c) (hrested : c.Rested) {time : Nat}
    (hnext : l.next? = some time) :
    ∃ c', c.Reaches delay c' ∧ Follows delay duration (l.tick duration time) c' ∧ c'.Rested
      ∧ c'.weight Phase.rank < c.weight Phase.rank ∧ (l.tick duration time).clock = time := by
  have hmem : time ∈ l.alarms.map Prod.fst ++ l.ends.map Prod.fst := by
    rw [Timeline.next?, earliest?_eq_min?] at hnext
    exact (List.min?_eq_some_iff.1 hnext).1
  have hle : l.clock ≤ time := by
    rcases List.mem_append.1 hmem with hmem | hmem
    · obtain ⟨⟨time, g⟩, halarm, rfl⟩ := List.mem_map.1 hmem
      obtain ⟨t, ht, hp, rfl, rfl⟩ := (h.alarms ..).1 halarm
      rw [← h.clock]
      exact h.consistent.asleep t ht hp
    · obtain ⟨⟨stop, g, began⟩, hend, rfl⟩ := List.mem_map.1 hmem
      exact h.ahead stop g began hend
  obtain ⟨c₁, hreach, hfollows, hdebouncer⟩ := h.pass hrested hle fun next heq =>
    (Option.some.inj (hnext.symm.trans heq)).le
  have hlength : c₁.debouncer.tasks.length = l.debouncer.tasks.length := by
    rw [hdebouncer, h.debouncer]
  have hweight (w : Phase → Nat) : c₁.weight w = c.weight w := by
    rw [weight, hdebouncer, ← weight]
  -- the ends of work come first, then the alarms
  unfold Timeline.tick
  simp only
  cases hend : l.ends.find? fun e => e.1 = time with
  | some e =>
    obtain ⟨stop, g, began⟩ := e
    obtain rfl : stop = time := by simpa using List.find?_some hend
    obtain ⟨c₂, hreach₂, hfollows₂, hrank₂, hqueued₂⟩ :=
      hfollows.finish (List.mem_of_find?_eq_some hend)
    obtain ⟨c', hreach', hfollows', hrested', hrank', hclock⟩ :=
      hfollows₂.settle (hqueued₂.trans_eq hlength)
    refine ⟨c', (hreach.trans hreach₂).trans hreach', hfollows', hrested', ?_, hclock⟩
    rw [hweight] at hrank₂
    omega
  | none =>
    have hsome : ∃ a ∈ l.alarms, a.1 = time := by
      rcases List.mem_append.1 hmem with hmem | hmem
      · exact List.mem_map.1 hmem
      · obtain ⟨e, he, htime⟩ := List.mem_map.1 hmem
        simpa [htime] using List.find?_eq_none.1 hend e he
    cases halarm : l.alarms.find? fun a => a.1 = time with
    | none =>
      obtain ⟨a, ha, htime⟩ := hsome
      simpa [htime] using List.find?_eq_none.1 halarm a ha
    | some a =>
      obtain ⟨stop, g⟩ := a
      obtain rfl : stop = time := by simpa using List.find?_some halarm
      obtain ⟨c₂, hreach₂, hfollows₂, hrank₂, hqueued₂⟩ :=
        hfollows.wake (List.mem_of_find?_eq_some halarm)
      obtain ⟨c', hreach', hfollows', hrested', hrank', hclock⟩ :=
        hfollows₂.settle (hqueued₂.trans_eq hlength)
      refine ⟨c', (hreach.trans hreach₂).trans hreach', hfollows', hrested', ?_, hclock⟩
      rw [hweight] at hrank₂
      omega

/-- No moment is left if no task waits for anything. -/
theorem next?_eq_none (h : Follows delay duration l c) (hrank : c.weight Phase.rank = 0) :
    l.next? = none := by
  have hnone : ∀ t, t ∉ c.debouncer.tasks := by
    intro t ht
    have hle := le_weight ht Phase.rank
    rcases h.calm t ht with hp | ⟨k, hp⟩ | ⟨k, hp⟩ <;>
      · rw [hp] at hle
        simp only [Phase.rank] at hle
        omega
  rw [Timeline.next?, earliest?_eq_min?, List.min?_eq_none_iff, List.append_eq_nil_iff,
    List.map_eq_nil_iff, List.map_eq_nil_iff, List.eq_nil_iff_forall_not_mem,
    List.eq_nil_iff_forall_not_mem]
  constructor
  · rintro ⟨time, g⟩ hmem
    obtain ⟨t, ht, -⟩ := (h.alarms ..).1 hmem
    exact hnone t ht
  · rintro ⟨stop, g, began⟩ hmem
    obtain ⟨t, ht, -⟩ := (h.ends ..).1 hmem
    exact hnone t ht

/-- Everything happens that happens before a time. -/
theorem runUntil (h : Follows delay duration l c) (hrested : c.Rested) (limit : Option Nat)
    {fuel : Nat} (hfuel : c.weight Phase.rank ≤ fuel) :
    ∃ c', c.Reaches delay c' ∧ Follows delay duration (l.runUntil duration limit fuel) c'
      ∧ c'.Rested ∧ c'.weight Phase.rank ≤ c.weight Phase.rank
      ∧ (∀ next, (l.runUntil duration limit fuel).next? = some next → limit.any (· ≤ next) = true)
      ∧ ∀ n, limit = some n → l.clock ≤ n → (l.runUntil duration limit fuel).clock ≤ n := by
  -- the rank falls with every moment, so the fuel lasts
  induction fuel generalizing l c with
  | zero =>
    refine ⟨c, .refl c, h, hrested, Nat.le_refl _, fun next hnext => ?_, fun _ _ hle => hle⟩
    exact absurd ((h.next?_eq_none (Nat.le_zero.1 hfuel)).symm.trans hnext) (by simp)
  | succ fuel ih =>
    unfold Timeline.runUntil
    cases hnext : l.next? with
    | none =>
      refine ⟨c, .refl c, h, hrested, Nat.le_refl _, fun next hnext' => ?_, fun _ _ hle => hle⟩
      exact absurd (hnext.symm.trans hnext') (by simp)
    | some time =>
      simp only
      split
      · next hlimit =>
        refine ⟨c, .refl c, h, hrested, Nat.le_refl _, fun next hnext' => ?_, fun _ _ hle => hle⟩
        rwa [← Option.some.inj (hnext.symm.trans hnext')]
      · next hlimit =>
        obtain ⟨c₁, hreach, hfollows, hrested₁, hrank, hclock⟩ := h.tick hrested hnext
        obtain ⟨c', hreach', hfollows', hrested', hrank', hdone, hclock'⟩ :=
          ih hfollows hrested₁ (by omega)
        refine ⟨c', hreach.trans hreach', hfollows', hrested', by omega, hdone, ?_⟩
        rintro n rfl -
        refine hclock' n rfl ?_
        rw [hclock]
        exact (Nat.lt_of_not_le (by simpa using hlimit)).le

/-- When no moment is left, no task is left. -/
theorem tasks_eq_nil (h : Follows delay duration l c) (hrested : c.Rested) (hnext : l.next? = none) :
    c.debouncer.tasks = [] := by
  rw [Timeline.next?, earliest?_eq_min?, List.min?_eq_none_iff, List.append_eq_nil_iff,
    List.map_eq_nil_iff, List.map_eq_nil_iff] at hnext
  have hidle : ∀ t ∈ c.debouncer.tasks, ∀ k, t.phase ≠ .running k := by
    intro t ht k hp
    have hbegan : (c.history.moment? t.generation .started).isSome = true := by
      rw [History.isSome_moment?, h.consistent.story t ht, hp]
      simp [Phase.story]
    obtain ⟨began, hbegan⟩ := Option.isSome_iff_exists.1 hbegan
    have hmem := (h.ends ..).2 ⟨t, ht, ⟨k, hp⟩, rfl, hbegan, rfl⟩
    rw [hnext.2] at hmem
    exact List.not_mem_nil hmem
  refine List.eq_nil_iff_forall_not_mem.2 fun t ht => ?_
  rcases h.calm t ht with hp | ⟨k, hp⟩ | ⟨k, hp⟩
  · have hmem := (h.alarms ..).2 ⟨t, ht, hp, rfl, rfl⟩
    rw [hnext.1] at hmem
    exact List.not_mem_nil hmem
  · -- whoever has the lock is at work
    obtain ⟨u, hu, hheld⟩ := List.any_eq_true.1 (hrested t ht k hp)
    rcases h.calm u hu with hup | ⟨k', hup⟩ | ⟨k', hup⟩
    · simp [hup, Phase.held?] at hheld
    · simp [hup, Phase.held?] at hheld
    · exact hidle u hu k' hup
  · exact hidle t ht k hp

end Follows

end Clockwork

end ElementLens.Debouncer
