/-
Timelines are executions.

An execution can go along with a timeline from the first request to the end of
the last work. So whatever holds of all executions holds of timelines:

* **`Follows.request`** — one more request;
* **`exists_execution`** — the execution of a timeline;
* **`exists_work_of_request`** — no request is lost.
-/
import ElementLens.Proofs.Debounce.Newest
import ElementLens.Proofs.Debounce.Simulation

namespace ElementLens.Debouncer

namespace Clockwork

variable {K : Type} [DecidableEq K] {delay : Nat} {duration : Nat → Nat} {l : Timeline K}
  {c : Clockwork K}

namespace Follows

theorem alarm_call_of_le {c : Clockwork K} {k : K} {g : Nat} (hg : g ≤ c.debouncer.generation) :
    (c.call k).history.alarm delay g = c.history.alarm delay g := by
  refine History.alarm_cons_of_ne ?_
  simp only [schedule]
  omega

theorem alarm_call_self {c : Clockwork K} {k : K} :
    (c.call k).history.alarm delay (c.debouncer.generation + 1) = c.clock + delay := by
  rw [call, History.alarm, List.find?_cons_of_pos (by simp [schedule])]
  rfl

theorem moment?_call {c : Clockwork K} {k : K} {g : Nat} {kind : Kind} (hk : kind ≠ .called) :
    (c.call k).history.moment? g kind = c.history.moment? g kind := by
  rw [call, History.moment?_cons, if_neg fun hand => hk hand.2.symm]

/-- A request now is a call now. -/
theorem call (h : Follows delay duration l c) {r : Request K} (htime : r.time = l.clock) :
    Follows delay duration (l.request delay r) (c.call r.key) := by
  have hc := h.consistent
  have hmem (u : Task K) := Consistent.mem_call (c := c) (t := u) (k := r.key)
  constructor
  case consistent => exact hc.call r.key
  case clock => exact h.clock.trans htime.symm
  case debouncer =>
    rw [Clockwork.call, h.debouncer]
    rfl
  case calm =>
    intro u hu
    rcases (hmem u).1 hu with hu | rfl
    · exact h.calm u hu
    · exact .inl rfl
  case ahead =>
    intro stop g began hend
    exact htime.trans_le (h.ahead stop g began hend)
  case lasts => exact h.lasts
  case finished =>
    intro g b e
    rw [History.work?, moment?_call (by simp), moment?_call (by simp)]
    exact h.finished g b e
  case ends =>
    intro stop g began
    rw [moment?_call (by simp)]
    refine (h.ends ..).trans ⟨?_, ?_⟩
    · rintro ⟨u, hu, hrest⟩
      exact ⟨u, (hmem u).2 (.inl hu), hrest⟩
    · rintro ⟨u, hu, ⟨k, hup⟩, hrest⟩
      rcases (hmem u).1 hu with hu | rfl
      · exact ⟨u, hu, ⟨k, hup⟩, hrest⟩
      · exact absurd hup (by simp)
  case alarms =>
    intro time g
    have hset : (l.request delay r).alarms
        = l.alarms ++ [(c.clock + delay, c.debouncer.generation + 1)] := by
      rw [Timeline.request, h.debouncer, h.clock, htime]
      rfl
    rw [hset, List.mem_append, List.mem_singleton]
    constructor
    · rintro (hold | heq)
      · obtain ⟨u, hu, hup, rfl, rfl⟩ := (h.alarms ..).1 hold
        exact ⟨u, (hmem u).2 (.inl hu), hup, rfl, alarm_call_of_le (hc.ordered.generation_le u hu)⟩
      · obtain ⟨rfl, rfl⟩ := Prod.mk.inj heq
        exact ⟨_, (hmem _).2 (.inr rfl), rfl, rfl, alarm_call_self⟩
    · rintro ⟨u, hu, hup, rfl, rfl⟩
      rcases (hmem u).1 hu with hu | rfl
      · rw [alarm_call_of_le (hc.ordered.generation_le u hu)]
        exact .inl ((h.alarms ..).2 ⟨u, hu, hup, rfl, rfl⟩)
      · exact .inr (by rw [alarm_call_self])

/-- One more request is a call, after some time. -/
theorem request (h : Follows delay duration l c) (hrested : c.Rested) {r : Request K}
    (hle : l.clock ≤ r.time) (hnext : ∀ next, l.next? = some next → r.time ≤ next) :
    ∃ c', (∃ actions, c.run delay actions = some c')
      ∧ Follows delay duration (l.request delay r) c' ∧ c'.Rested
      ∧ c'.weight Phase.rank = c.weight Phase.rank + 2
      ∧ c'.history.calls
        = ⟨r.time, c.debouncer.generation + 1, r.key, .called⟩ :: c.history.calls
      ∧ c'.debouncer.generation = c.debouncer.generation + 1 := by
  obtain ⟨c₁, hreach, h₁, hdebouncer⟩ := h.pass hrested hle hnext
  obtain ⟨hcalls, hgeneration⟩ := hreach.calls
  obtain ⟨actions, hrun, -⟩ := hreach
  refine ⟨c₁.call r.key, ⟨actions ++ [.call r.key], ?_⟩, h₁.call rfl, ?_, ?_, ?_, ?_⟩
  · rw [run_append, hrun]
    rfl
  · -- whoever had a lock has it still
    intro u hu k hup
    rcases Consistent.mem_call.1 hu with hu | rfl
    · obtain ⟨v, hv, hheld⟩ := List.any_eq_true.1 (hrested u (hdebouncer ▸ hu) k hup)
      exact List.any_eq_true.2 ⟨v, Consistent.mem_call.2 (.inl (hdebouncer ▸ hv)), hheld⟩
    · exact absurd hup (by simp)
  · rw [weight, weight, ← hdebouncer]
    simp [Clockwork.call, schedule, Phase.rank]
  · rw [← hgeneration, ← hcalls, Clockwork.call, History.calls, List.filter_cons_of_pos (by simp),
      h₁.clock]
    rfl
  · rw [← hgeneration]
    rfl

end Follows

/-- The call that a request is. -/
def callOf (i : Nat) (r : Request K) : Event K := ⟨r.time, i + 1, r.key, .called⟩

/-- A state of an execution is the one of a timeline after some requests. -/
structure Answers (delay : Nat) (duration : Nat → Nat) (made : List (Request K)) (l : Timeline K)
    (c : Clockwork K) : Prop where
  follows : Follows delay duration l c
  rested : c.Rested
  execution : ∃ actions, Clockwork.start.run delay actions = some c
  rank_le : c.weight Phase.rank ≤ 2 * made.length
  generation : c.debouncer.generation = made.length
  calls : c.history.calls = (made.mapIdx callOf).reverse

namespace Answers

variable {made : List (Request K)}

theorem start (delay : Nat) (duration : Nat → Nat) :
    Answers delay duration [] (Timeline.start : Timeline K) Clockwork.start where
  follows := {
    consistent := .start
    clock := rfl
    debouncer := rfl
    calm := by simp [Calm, Clockwork.start, Debouncer.empty]
    alarms := by simp [Timeline.start, Clockwork.start, Debouncer.empty]
    ends := by simp [Timeline.start, Clockwork.start, Debouncer.empty]
    ahead := by simp [Timeline.start]
    finished := by simp [Timeline.start, Clockwork.start, History.work?, History.moment?]
    lasts := by simp [Timeline.start] }
  rested := by simp [Rested, Clockwork.start, Debouncer.empty]
  execution := ⟨[], rfl⟩
  rank_le := by simp [weight, Clockwork.start, Debouncer.empty]
  generation := rfl
  calls := rfl

/-- Everything before a time is followed by an execution. -/
theorem runUntil (h : Answers delay duration made l c) (limit : Option Nat) (fuel : Nat)
    (hfuel : 2 * made.length ≤ fuel) :
    ∃ c', Answers delay duration made (l.runUntil duration limit fuel) c'
      ∧ (∀ next, (l.runUntil duration limit fuel).next? = some next → limit.any (· ≤ next) = true)
      ∧ ∀ n, limit = some n → l.clock ≤ n → (l.runUntil duration limit fuel).clock ≤ n := by
  obtain ⟨c', hreach, hfollows, hrested, hrank, hnext, hclock⟩ :=
    h.follows.runUntil h.rested limit (h.rank_le.trans hfuel)
  obtain ⟨hcalls, hgeneration⟩ := hreach.calls
  obtain ⟨actions, hrun⟩ := h.execution
  obtain ⟨more, hrun', -⟩ := hreach
  refine ⟨c', ?_, hnext, hclock⟩
  exact {
    follows := hfollows
    rested := hrested
    execution := ⟨actions ++ more, by rw [run_append, hrun]; exact hrun'⟩
    rank_le := hrank.trans h.rank_le
    generation := hgeneration.trans h.generation
    calls := hcalls.trans h.calls }

/-- Each request is followed by an execution. -/
theorem request (h : Answers delay duration made l c) {r : Request K} (hle : l.clock ≤ r.time)
    (hnext : ∀ next, l.next? = some next → r.time ≤ next) :
    ∃ c', Answers delay duration (made ++ [r]) (l.request delay r) c' := by
  obtain ⟨c', ⟨more, hrun'⟩, hfollows, hrested, hrank, hcalls, hgeneration⟩ :=
    h.follows.request h.rested hle hnext
  obtain ⟨actions, hrun⟩ := h.execution
  refine ⟨c', ?_⟩
  exact {
    follows := hfollows
    rested := hrested
    execution := ⟨actions ++ more, by rw [run_append, hrun]; exact hrun'⟩
    rank_le := by
      have := h.rank_le
      rw [List.length_append, List.length_singleton]
      omega
    generation := by rw [hgeneration, h.generation, List.length_append, List.length_singleton]
    calls := by
      rw [hcalls, h.generation, h.calls, List.mapIdx_concat, List.reverse_append]
      rfl }

/-- All requests are followed by an execution. -/
theorem foldl (h : Answers delay duration made l c) (fuel : Nat) (rest : List (Request K))
    (hfuel : 2 * (made.length + rest.length) ≤ fuel)
    (hsorted : rest.Pairwise fun r r' => r.time ≤ r'.time) (hclock : ∀ r ∈ rest, l.clock ≤ r.time) :
    ∃ c', Answers delay duration (made ++ rest)
      (rest.foldl (fun l r => (l.runUntil duration (some r.time) fuel).request delay r) l) c' := by
  induction rest generalizing made l c with
  | nil => exact ⟨c, by simpa using h⟩
  | cons r rest ih =>
    rw [List.length_cons] at hfuel
    obtain ⟨hfirst, hsorted⟩ := List.pairwise_cons.1 hsorted
    obtain ⟨c₁, h₁, hnext, hle⟩ := h.runUntil (some r.time) fuel (by omega)
    obtain ⟨c₂, h₂⟩ := h₁.request (r := r) (hle r.time rfl (hclock r List.mem_cons_self))
      fun next heq => by simpa using hnext next heq
    rw [List.foldl_cons, List.append_cons]
    refine ih h₂ ?_ hsorted hfirst
    rw [List.length_append, List.length_singleton]
    omega

end Answers

end Clockwork

variable {K : Type} [DecidableEq K] {requests : List (Request K)}

theorem lookup_eq_of_mem_iff {V : Type} {table : List (Nat × V)} {f : Nat → Option V}
    (h : ∀ k v, (k, v) ∈ table ↔ f k = some v) (k : Nat) : table.lookup k = f k := by
  cases hlookup : table.lookup k with
  | some v =>
    obtain ⟨front, back, rfl, -⟩ := List.lookup_eq_some_iff.1 hlookup
    exact ((h k v).1 (List.mem_append_right _ List.mem_cons_self)).symm
  | none =>
    cases hf : f k with
    | none => rfl
    | some v => simpa using List.lookup_eq_none_iff.1 hlookup _ ((h k v).2 hf)

/-- **A timeline is an execution.** For requests in the order of time there is an
execution with the same calls at the same times, after which no task is left; and
work begins and ends in it when it does in the timeline, after its duration. -/
theorem exists_execution (delay : Nat) (hsorted : requests.Pairwise fun r r' => r.time ≤ r'.time) :
    ∃ actions c, Clockwork.start.run delay actions = some c ∧ c.debouncer.tasks = []
      ∧ c.history.calls = (requests.mapIdx Clockwork.callOf).reverse
      ∧ (∀ i, i < requests.length → (timeline delay requests)[i]? = some (c.history.work? (i + 1)))
      ∧ ∀ i r, requests[i]? = some r → ∀ b e, c.history.work? (i + 1) = some (b, e) →
        e = b + r.duration := by
  obtain ⟨duration, hduration⟩ : ∃ duration : Nat → Nat, duration
      = fun g => ((requests.toArray[g - 1]?).map Request.duration).getD 0 := ⟨_, rfl⟩
  obtain ⟨c₁, h₁⟩ := (Clockwork.Answers.start delay duration).foldl (2 * requests.length) requests
    (by simp) hsorted fun _ _ => Nat.zero_le _
  obtain ⟨c, h, hnext, -⟩ := h₁.runUntil none (2 * requests.length) (by simp)
  obtain ⟨actions, hrun⟩ := h.execution
  have hdone := Option.eq_none_iff_forall_ne_some.2 fun next heq => by simpa using hnext next heq
  have hfinished := fun g (w : Nat × Nat) => h.follows.finished g w.1 w.2
  refine ⟨actions, c, hrun, h.follows.tasks_eq_nil h.rested hdone, h.calls, ?_, ?_⟩
  · intro i hi
    rw [← lookup_eq_of_mem_iff hfinished, timeline, List.getElem?_map, List.getElem?_range hi,
      Option.map_some, hduration]
  · intro i r hr b e hwork
    have hlasts := h.follows.lasts (i + 1) b e ((h.follows.finished ..).2 hwork)
    rw [hlasts, hduration]
    simp [hr]

/-- The work of a task begins once. -/
theorem Clockwork.Consistent.moment?_started {delay : Nat} {c : Clockwork K} {e : Event K}
    (h : c.Consistent delay) (he : e ∈ c.history) (hk : e.kind = .started) :
    c.history.moment? e.generation .started = some e.time := by
  cases hfind : c.history.find? fun e' => e'.generation = e.generation ∧ e'.kind = .started with
  | none => simpa [hk] using List.find?_eq_none.1 hfind e he
  | some e' =>
    rw [History.moment?, hfind]
    obtain ⟨hprop, front, back, hsplit, hfront⟩ := List.find?_eq_some_iff_append.1 hfind
    rw [hsplit] at he
    rcases List.mem_append.1 he with hin | hin
    · simpa [hk] using hfront e hin
    rcases List.mem_cons.1 hin with rfl | hback
    · rfl
    · -- it would have begun twice
      have hsub : [e', e].Sublist c.history :=
        History.pair_sublist_of_suffix ⟨front, hsplit.symm⟩ hback
      have hle := (History.story_sublist hsub e.generation).count_le .started
      have hone := (count_of_mem_stories _ (h.story_mem_stories e.generation)).2
      have htwo : (History.story [e', e] e.generation).count .started = 2 := by
        simp only [decide_eq_true_eq] at hprop
        simp [History.story, hprop, hk]
      omega

/-- **No request is lost.** Every request is followed by work of its key that
begins no sooner than after the delay. -/
theorem exists_work_of_request (delay : Nat)
    (hsorted : requests.Pairwise fun r r' => r.time ≤ r'.time) {i : Nat} {r : Request K}
    (hr : requests[i]? = some r) :
    ∃ (j : Nat) (r' : Request K) (began : Nat), requests[j]? = some r' ∧ r'.key = r.key
      ∧ (timeline delay requests)[j]? = some (some (began, began + r'.duration))
      ∧ r.time + delay ≤ began := by
  obtain ⟨actions, c, hrun, hnone, hcalls, htimeline, hlasts⟩ := exists_execution delay hsorted
  have hc : c.Consistent delay := Clockwork.Consistent.start.run hrun
  have hmem (s : Event K) : s ∈ c.history ∧ s.kind = .called
      ↔ ∃ j r', requests[j]? = some r' ∧ s = Clockwork.callOf j r' := by
    have hiff : s ∈ c.history.calls ↔ s ∈ c.history ∧ s.kind = .called := by
      simp [History.calls]
    rw [← hiff, hcalls, List.mem_reverse, List.mem_mapIdx]
    constructor
    · rintro ⟨j, hj, rfl⟩
      exact ⟨j, _, List.getElem?_eq_getElem hj, rfl⟩
    · rintro ⟨j, r', hj, rfl⟩
      obtain ⟨hlt, rfl⟩ := List.getElem?_eq_some_iff.1 hj
      exact ⟨j, hlt, rfl⟩
  obtain ⟨hcall, hk⟩ := (hmem _).2 ⟨i, r, hr, rfl⟩
  obtain ⟨e, hsub, hstarted, hkey, hle⟩ := hc.debounced.followed _ hcall hk (by simp [hnone])
  have he : e ∈ c.history := hsub.subset List.mem_cons_self
  obtain ⟨s, hs, hsk, hgeneration, hskey⟩ := hc.origin e he
  obtain ⟨j, r', hj, rfl⟩ := (hmem s).1 ⟨hs, hsk⟩
  -- work that has begun has ended, as no task is left
  have hwhole := hc.finished e he (by simp [hnone])
  have hended : .ended ∈ c.history.story e.generation := by
    have hstory : .started ∈ c.history.story e.generation :=
      History.mem_story.2 ⟨e, he, rfl, hstarted⟩
    revert hwhole hstory
    simp only [wholeStories, List.mem_cons, List.not_mem_nil, or_false]
    rintro (heq | heq | heq) <;> simp [heq]
  obtain ⟨stop, hstop⟩ := Option.isSome_iff_exists.1 (History.isSome_moment?.2 hended)
  have hwork : c.history.work? (j + 1) = some (e.time, stop) := by
    rw [show j + 1 = e.generation from hgeneration, History.work?, hc.moment?_started he hstarted,
      hstop]
    rfl
  refine ⟨j, r', e.time, hj, hskey.trans hkey, ?_, hle⟩
  rw [htimeline j (List.getElem?_eq_some_iff.1 hj).1, hwork, hlasts j r' hj _ _ hwork]

/-- The second task waits for the work of the first one, and is overtaken by the
third one meanwhile. -/
example : timeline 3 [⟨0, "a", 5⟩, ⟨4, "a", 1⟩, ⟨8, "a", 1⟩]
    = [some (3, 8), none, some (11, 12)] := by
  decide

end ElementLens.Debouncer
