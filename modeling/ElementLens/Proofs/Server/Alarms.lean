/-
The alarms of a server.

For every update that was asked for there is an alarm, and a task of the debouncer
that sleeps (`Server.Timed`). The newest task of a document is that of its last
alarm. So the time of an alarm comes to nothing if there is a later one for the same
document, and otherwise the document is updated:

* **`Timed.isRunning_awaken`** — whether an alarm is the last one of its document;
* **`Timed.ring`** — what is left when the time of an alarm has come;
* **`Timed.pass`** — what is left when time has passed.
-/
import ElementLens.Proofs.Debounce.Asleep
import ElementLens.Proofs.Server.Log

namespace ElementLens

/-- The task that sleeps up to an alarm. -/
def Alarm.task (a : Alarm) : Debouncer.Task Uri := ⟨a.generation, a.uri, .sleeping⟩

namespace Server

open Debouncer (Asleep lookup lookup_erase lookup_insert)

/-! ### Where time stands still -/

/-- Nothing has changed but what is remembered and what was sent. -/
structure Waits (s s' : Server) : Prop where
  lifecycle : s'.lifecycle = s.lifecycle
  documents : s'.session.documents = s.session.documents
  debouncer : s'.debouncer = s.debouncer
  alarms : s'.alarms = s.alarms
  clock : s'.clock = s.clock

namespace Waits

variable {s s' s'' : Server}

theorem refl (s : Server) : Waits s s := ⟨rfl, rfl, rfl, rfl, rfl⟩

theorem trans (h : Waits s s') (h' : Waits s' s'') : Waits s s'' :=
  ⟨h'.lifecycle.trans h.lifecycle, h'.documents.trans h.documents, h'.debouncer.trans h.debouncer,
    h'.alarms.trans h.alarms, h'.clock.trans h.clock⟩

theorem send (s : Server) (m : Message) : Waits s (s.send m) := by
  unfold Server.send
  split <;> exact ⟨rfl, rfl, rfl, rfl, rfl⟩

theorem initialized (s : Server) : Waits s s.initialized := by
  unfold Server.initialized
  simp only
  split
  · exact (Waits.send s _).trans (.send _ _)
  · exact .send s _

theorem configured (s : Server) (change : Json) : Waits s (s.absorb (.configured change)) := by
  unfold absorb
  simp only
  split <;> exact ⟨rfl, rfl, rfl, rfl, rfl⟩

theorem documentSettings (s : Server) (around : Surroundings) (uri : Uri) :
    Waits s (s.documentSettings around uri).2 := by
  have hknown : Waits s (s.knownSettings uri).2 := by
    unfold knownSettings
    split <;> exact ⟨rfl, rfl, rfl, rfl, rfl⟩
  unfold Server.documentSettings
  rcases hresult : s.knownSettings uri with ⟨_ | settings, s₁⟩
  · rw [hresult] at hknown
    have hsent := hknown.trans (.send s₁ (.askConfiguration uri))
    exact hsent.trans ⟨rfl, rfl, rfl, rfl, rfl⟩
  · rw [hresult] at hknown
    exact hknown

theorem session {session : Session} (h : session.documents = s.session.documents) :
    Waits s { s with session } := ⟨rfl, h, rfl, rfl, rfl⟩

theorem publish (s : Server) (around : Surroundings) (uri : Uri) (settings : Settings) :
    Waits s (s.publish around uri settings) := by
  have hdocuments : (s.session.refresh around.loader around.files uri settings).2.documents
      = s.session.documents := by
    unfold Session.refresh
    split <;> rfl
  unfold Server.publish
  rcases hresult : s.session.refresh around.loader around.files uri settings with ⟨_ | found, session⟩
  · rw [hresult] at hdocuments
    exact .session hdocuments
  · rw [hresult] at hdocuments
    exact (Waits.session hdocuments).trans (.send _ _)

theorem update (s : Server) (around : Surroundings) (uri : Uri) :
    Waits s (s.update around uri) := by
  unfold Server.update
  split
  · exact (Waits.documentSettings s around uri).trans (.publish _ around uri _)
  · exact .refl s

theorem lookUp (s : Server) (around : Surroundings) (q : Query) : Waits s (s.lookUp around q) := by
  have hresolve (uri : Uri) (p : Position) :
      (s.session.resolveAt uri p false).2.documents = s.session.documents := by
    unfold Session.resolveAt
    split <;> rfl
  cases q with
  | definition uri p => exact .session (hresolve uri p)
  | hover uri p => exact .session (hresolve uri p)
  | diagnostic uri =>
    unfold Server.lookUp diagnostic
    simp only
    split
    · exact (Waits.documentSettings s around uri).trans (.session rfl)
    · exact .refl s

end Waits

/-! ### Alarms and tasks -/

/-- The last alarm of a document. -/
def last? (u : Uri) (alarms : List Alarm) : Option Alarm := alarms.reverse.find? fun a => a.uri = u

section Last

variable {u : Uri} {a : Alarm} {alarms more : List Alarm}

theorem last?_append : last? u (alarms ++ more) = (last? u more).or (last? u alarms) := by
  rw [last?, List.reverse_append, List.find?_append, last?, last?]

theorem last?_cons :
    last? u (a :: alarms) = (last? u alarms).or (if a.uri = u then some a else none) := by
  rw [← List.singleton_append, last?_append]
  congr 1
  by_cases ha : a.uri = u <;> simp [last?, ha]

theorem last?_concat : last? u (alarms ++ [a]) = if a.uri = u then some a else last? u alarms := by
  rw [last?_append]
  by_cases ha : a.uri = u <;> simp [last?, ha]

theorem of_last? (h : last? u alarms = some a) : a ∈ alarms ∧ a.uri = u :=
  ⟨List.mem_reverse.1 (List.mem_of_find?_eq_some h), by simpa using List.find?_some h⟩

end Last

/-- The tasks of the debouncer sleep up to the alarms that are pending, and the newest
task of a document up to its last alarm. The alarms are in order, and none is over. -/
structure Timed (s : Server) (pending : List Alarm) : Prop where
  tasks : s.debouncer.tasks = pending.map Alarm.task
  locks : s.debouncer.locks = []
  newest : ∀ u, lookup s.debouncer.newest u = (last? u pending).map Alarm.generation
  rising : pending.Pairwise fun a b => a.generation < b.generation
  known : ∀ a ∈ pending, a.generation ≤ s.debouncer.generation
  inOrder : pending.Pairwise fun a b => a.due ≤ b.due
  ahead : ∀ a ∈ pending, s.clock ≤ a.due

namespace Timed

variable {s s' : Server} {a : Alarm} {pending : List Alarm} {around : Surroundings}

theorem asleep (h : s.Timed pending) : s.debouncer.Asleep where
  locks := h.locks
  sleeping := by
    rw [h.tasks]
    intro t ht
    obtain ⟨a, -, rfl⟩ := List.mem_map.1 ht
    rfl
  nodup := by
    rw [h.tasks, List.map_map]
    exact List.pairwise_map.2 (h.rising.imp fun hlt => Nat.ne_of_lt hlt)

theorem mem_tasks (h : s.Timed (a :: pending)) : a.task ∈ s.debouncer.tasks := by
  rw [h.tasks]
  exact List.mem_cons_self

theorem others_eq (h : s.Timed (a :: pending)) :
    s.debouncer.others a.generation = pending.map Alarm.task := by
  rw [Debouncer.others, h.tasks, List.map_cons, List.filter_cons_of_neg (by simp [Alarm.task])]
  refine List.filter_eq_self.2 fun t ht => ?_
  obtain ⟨b, hb, rfl⟩ := List.mem_map.1 ht
  exact decide_eq_true (Nat.ne_of_lt ((List.pairwise_cons.1 h.rising).1 b hb)).symm

theorem isNewest_iff (h : s.Timed (a :: pending)) :
    s.debouncer.isNewest a.task = (last? a.uri pending).isNone := by
  unfold Debouncer.isNewest
  rw [show a.task.key = a.uri from rfl, h.newest, last?_cons, if_pos rfl]
  cases hlast : last? a.uri pending with
  | none => simp [Alarm.task]
  | some b =>
    have hlt := (List.pairwise_cons.1 h.rising).1 b (of_last? hlast).1
    simpa [Alarm.task] using (Nat.ne_of_lt hlt).symm

/-- An alarm that is followed by one of the same document comes to nothing. -/
theorem isRunning_awaken (h : s.Timed (a :: pending)) :
    (s.awaken a).debouncer.isRunning a.generation = (last? a.uri pending).isNone := by
  rw [← h.isNewest_iff]
  cases hnew : s.debouncer.isNewest a.task with
  | true =>
    have henter := h.asleep.enter_newest h.mem_tasks hnew
    exact (congrArg (Debouncer.isRunning · a.generation) henter).trans
      (Debouncer.isRunning_stands (t := a.task))
  | false =>
    have henter := h.asleep.enter_overtaken h.mem_tasks hnew
    exact (congrArg (Debouncer.isRunning · a.generation) henter).trans
      (Debouncer.isRunning_drop (t := a.task))

/-- The debouncer has settled down again when the time of an alarm has come. -/
theorem debouncer_ring (h : s.Timed (a :: pending)) (around : Surroundings) :
    (Server.ring around s a).debouncer
      = if (last? a.uri pending).isNone then s.debouncer.served a.task
        else s.debouncer.drop a.generation := by
  have hawake := h.isRunning_awaken
  rw [ring_eq, hawake]
  cases hlast : (last? a.uri pending).isNone with
  | true =>
    have hnew : s.debouncer.isNewest a.task = true := h.isNewest_iff.trans hlast
    have henter := h.asleep.enter_newest h.mem_tasks hnew
    simp only [if_true, (Waits.update (s.awaken a) around a.uri).debouncer]
    exact (congrArg (Debouncer.finish · a.generation) henter).trans
      (h.asleep.finish_newest (t := a.task) hnew)
  | false =>
    have hold : s.debouncer.isNewest a.task = false := h.isNewest_iff.trans hlast
    exact h.asleep.enter_overtaken h.mem_tasks hold

theorem clock_ring (h : s.Timed (a :: pending)) (around : Surroundings) :
    (Server.ring around s a).clock = a.due := by
  have hclock : (s.awaken a).clock = a.due := max_eq_right (h.ahead a List.mem_cons_self)
  rw [ring_eq]
  split
  · exact (Waits.update (s.awaken a) around a.uri).clock.trans hclock
  · exact hclock

/-- **When the time of an alarm has come**, the other alarms are left. -/
theorem ring (h : s.Timed (a :: pending)) (around : Surroundings) :
    (Server.ring around s a).Timed pending := by
  obtain ⟨hless, hrising⟩ := List.pairwise_cons.1 h.rising
  obtain ⟨hearlier, hinOrder⟩ := List.pairwise_cons.1 h.inOrder
  have hdebouncer := h.debouncer_ring around
  exact {
    tasks := by
      rw [hdebouncer]
      split <;> exact h.others_eq
    locks := by
      rw [hdebouncer]
      split
      · rfl
      · exact h.locks
    newest := fun u => by
      rw [hdebouncer]
      cases hlast : last? a.uri pending with
      | none =>
        -- nothing is kept for the document of the alarm
        show lookup (Debouncer.erase s.debouncer.newest a.uri) u = _
        rw [lookup_erase, h.newest, last?_cons]
        by_cases hu : u = a.uri
        · rw [if_pos hu, hu, hlast]
          rfl
        · rw [if_neg hu, if_neg (Ne.symm hu), Option.or_none]
      | some b =>
        show lookup s.debouncer.newest u = _
        rw [h.newest, last?_cons]
        by_cases hu : a.uri = u
        · rw [← hu, hlast]
          rfl
        · rw [if_neg hu, Option.or_none]
    rising := hrising
    known := fun b hb => by
      rw [hdebouncer]
      have hknown := h.known b (List.mem_cons_of_mem _ hb)
      split <;> exact hknown
    inOrder := hinOrder
    ahead := fun b hb => by
      rw [h.clock_ring around]
      exact hearlier b hb }

theorem ringAll {later : List Alarm} (h : s.Timed (pending ++ later)) (around : Surroundings) :
    (pending.foldl (Server.ring around) s).Timed later := by
  induction pending generalizing s with
  | nil => exact h
  | cons a pending ih => exact ih (h.ring around)

theorem congr (h : s.Timed pending) (hdebouncer : s'.debouncer = s.debouncer)
    (hclock : ∀ a ∈ pending, s'.clock ≤ a.due) : s'.Timed pending :=
  { h with
    tasks := by rw [hdebouncer]; exact h.tasks
    locks := by rw [hdebouncer]; exact h.locks
    newest := by rw [hdebouncer]; exact h.newest
    known := by rw [hdebouncer]; exact h.known
    ahead := hclock }

end Timed

/-! ### Time that passes -/

/-- Alarms belong to the tasks; none is over, and none is further away than an update
that is asked for now. -/
structure Punctual (s : Server) : Prop where
  timed : s.Timed s.alarms
  soon : ∀ a ∈ s.alarms, s.clock < a.due ∧ a.due ≤ s.clock + Debouncer.standardDelay

section Pass

variable {s s' : Server} {u v : Uri} {stop : Nat} {around : Surroundings}
  {pending later : List Alarm}

theorem Waits.ring (s : Server) (around : Surroundings) (a : Alarm) :
    (ring around s a).lifecycle = s.lifecycle
      ∧ (ring around s a).session.documents = s.session.documents
      ∧ (ring around s a).alarms = s.alarms := by
  have hupdate := Waits.update (s.awaken a) around a.uri
  rw [ring_eq]
  split
  · exact ⟨hupdate.lifecycle, hupdate.documents, hupdate.alarms⟩
  · exact ⟨rfl, rfl, rfl⟩

theorem Waits.ringAll (s : Server) (around : Surroundings) (alarms : List Alarm) :
    (alarms.foldl (Server.ring around) s).lifecycle = s.lifecycle
      ∧ (alarms.foldl (Server.ring around) s).session.documents = s.session.documents
      ∧ (alarms.foldl (Server.ring around) s).alarms = s.alarms := by
  induction alarms generalizing s with
  | nil => exact ⟨rfl, rfl, rfl⟩
  | cons a alarms ih =>
    obtain ⟨hlifecycle, hdocuments, halarms⟩ := Waits.ring s around a
    obtain ⟨hlifecycle', hdocuments', halarms'⟩ := ih (Server.ring around s a)
    exact ⟨hlifecycle'.trans hlifecycle, hdocuments'.trans hdocuments, halarms'.trans halarms⟩

theorem alarms_without (s : Server) (stop : Nat) :
    (s.without stop).alarms = s.alarms.dropWhile fun a => a.due ≤ stop := by
  have hsplit := List.takeWhile_append_dropWhile (p := fun a : Alarm => decide (a.due ≤ stop))
    (l := s.alarms)
  show s.alarms.drop (s.dueBy stop).length = _
  conv_lhs => rw [← hsplit]
  exact List.drop_left

theorem alarms_eq (s : Server) (stop : Nat) :
    s.alarms = s.dueBy stop ++ (s.without stop).alarms := by
  rw [alarms_without]
  exact List.takeWhile_append_dropWhile.symm

theorem due_le_of_mem_dueBy {a : Alarm} (ha : a ∈ s.dueBy stop) : a.due ≤ stop := by
  simpa using List.mem_takeWhile_imp ha

/-- Alarms are in order, so those that are left are due later. -/
theorem lt_due_of_mem_without (stop : Nat) (h : s.alarms.Pairwise fun a b => a.due ≤ b.due) :
    ∀ a ∈ (s.without stop).alarms, stop < a.due := by
  rw [alarms_without]
  generalize s.alarms = alarms at h
  induction alarms with
  | nil => simp
  | cons b alarms ih =>
    obtain ⟨hb, halarms⟩ := List.pairwise_cons.1 h
    by_cases hdue : b.due ≤ stop
    · simpa [List.dropWhile_cons, hdue] using ih halarms
    · intro a ha
      rw [List.dropWhile_cons_of_neg (by simpa using hdue)] at ha
      rcases List.mem_cons.1 ha with rfl | ha
      · exact Nat.lt_of_not_le hdue
      · exact Nat.lt_of_lt_of_le (Nat.lt_of_not_le hdue) (hb a ha)

theorem alarms_pass (s : Server) (around : Surroundings) (milliseconds : Nat) :
    (s.pass around milliseconds).alarms = (s.without (s.clock + milliseconds)).alarms :=
  (Waits.ringAll _ around _).2.2

/-- Whatever is done when alarms go off is done at the times of these alarms. -/
theorem Timed.exists_due (h : s.Timed (pending ++ later)) {e : Nat × Deed}
    (he : e ∈ deedsToRingAll around s pending) : ∃ a ∈ pending, e.1 = a.due := by
  induction pending generalizing s with
  | nil => exact absurd he List.not_mem_nil
  | cons a pending ih =>
    rcases List.mem_append.1 he with he | he
    · refine ⟨a, List.mem_cons_self, ?_⟩
      unfold deedsToRing at he
      simp only at he
      split at he
      · obtain ⟨d, -, rfl⟩ := List.mem_map.1 he
        exact max_eq_right (h.ahead a List.mem_cons_self)
      · exact absurd he List.not_mem_nil
    · obtain ⟨b, hb, heq⟩ := ih (h.ring around) he
      exact ⟨b, List.mem_cons_of_mem _ hb, heq⟩

theorem Punctual.timed_without (h : s.Punctual) (stop : Nat) :
    (s.without stop).Timed (s.dueBy stop ++ (s.without stop).alarms) := by
  rw [← s.alarms_eq stop]
  exact h.timed.congr rfl h.timed.ahead

/-- What is done while time passes is done later than now, but not after that time. -/
theorem Punctual.time_of_mem (h : s.Punctual) {milliseconds : Nat} {e : Nat × Deed}
    (he : e ∈ s.deedsToPass around milliseconds) :
    s.clock < e.1 ∧ e.1 ≤ s.clock + milliseconds := by
  obtain ⟨a, ha, heq⟩ := (h.timed_without _).exists_due he
  have hsoon := h.soon a (by
    rw [s.alarms_eq (s.clock + milliseconds)]
    exact List.mem_append_left _ ha)
  rw [heq]
  exact ⟨hsoon.1, due_le_of_mem_dueBy ha⟩

/-- **When time has passed**, the alarms that are not over are left. -/
theorem Punctual.pass (h : s.Punctual) (around : Surroundings) (milliseconds : Nat) :
    (s.pass around milliseconds).Punctual := by
  obtain ⟨stop, hstop⟩ : ∃ stop, stop = s.clock + milliseconds := ⟨_, rfl⟩
  have hsplit := s.alarms_eq stop
  have hlater := lt_due_of_mem_without stop h.timed.inOrder
  have hclock : (s.pass around milliseconds).clock = stop := hstop.symm
  have halarms := s.alarms_pass around milliseconds
  rw [← hstop] at halarms
  constructor
  · rw [halarms]
    refine ((h.timed_without stop).ringAll around).congr ?_ fun a ha => ?_
    · rw [pass_eq, ← hstop]
    · rw [hclock]
      exact Nat.le_of_lt (hlater a ha)
  · rw [halarms, hclock]
    intro a ha
    refine ⟨hlater a ha, ?_⟩
    have hsoon := (h.soon a (by rw [hsplit]; exact List.mem_append_right _ ha)).2
    omega

/-- The last alarm of a document is left if it is not over. -/
theorem Punctual.last?_pass (h : s.Punctual) (around : Surroundings) (milliseconds : Nat) :
    (last? u (s.pass around milliseconds).alarms).map Alarm.due
      = ((last? u s.alarms).map Alarm.due).filter (s.clock + milliseconds < ·) := by
  rw [alarms_pass, s.alarms_eq (s.clock + milliseconds), last?_append]
  cases hlater : last? u (s.without (s.clock + milliseconds)).alarms with
  | some b =>
    have hb := lt_due_of_mem_without _ h.timed.inOrder b
      (of_last? hlater).1
    simp [Option.filter, hb]
  | none =>
    cases hdue : last? u (s.dueBy (s.clock + milliseconds)) with
    | none => simp
    | some a =>
      have ha := due_le_of_mem_dueBy (of_last? hdue).1
      simp [Option.filter, ha]

/-! ### Asking for updates -/

theorem Punctual.congr (h : s.Punctual) (hdebouncer : s'.debouncer = s.debouncer)
    (halarms : s'.alarms = s.alarms) (hclock : s'.clock = s.clock) : s'.Punctual := by
  constructor
  · rw [halarms]
    exact h.timed.congr hdebouncer (hclock ▸ h.timed.ahead)
  · rw [halarms, hclock]
    exact h.soon

/-- An update that is asked for has the last alarm of all. -/
theorem Punctual.schedule (h : s.Punctual) (u : Uri) : (s.scheduleUpdate u).Punctual := by
  obtain ⟨a, ha⟩ : ∃ a : Alarm,
      a = ⟨s.clock + Debouncer.standardDelay, s.debouncer.generation + 1, u⟩ := ⟨_, rfl⟩
  have halarms : (s.scheduleUpdate u).alarms = s.alarms ++ [a] := by rw [ha]; rfl
  have hdelay : s.clock < s.clock + Debouncer.standardDelay := by
    simp [Debouncer.standardDelay]
  have hall {P : Alarm → Prop} (hold : ∀ b ∈ s.alarms, P b) (hnew : P a) :
      ∀ b ∈ s.alarms ++ [a], P b :=
    List.forall_mem_append.2 ⟨hold, List.forall_mem_singleton.2 hnew⟩
  have hpairs {R : Alarm → Alarm → Prop} (hold : s.alarms.Pairwise R)
      (hnew : ∀ b ∈ s.alarms, R b a) : (s.alarms ++ [a]).Pairwise R :=
    List.pairwise_append.2 ⟨hold, List.pairwise_singleton _ _,
      fun b hb => List.forall_mem_singleton.2 (hnew b hb)⟩
  have hdue : a.due = s.clock + Debouncer.standardDelay := by rw [ha]
  have hgeneration : a.generation = s.debouncer.generation + 1 := by rw [ha]
  constructor
  · rw [halarms]
    exact {
      tasks := by
        rw [List.map_append, ← h.timed.tasks, ha]
        rfl
      locks := h.timed.locks
      newest := fun v => by
        show lookup (Debouncer.insert s.debouncer.newest u (s.debouncer.generation + 1)) v = _
        rw [lookup_insert, h.timed.newest, last?_concat, ha]
        by_cases hv : v = u
        · simp [hv]
        · simp [hv, Ne.symm hv]
      rising := hpairs h.timed.rising fun b hb => by
        rw [hgeneration]
        exact Nat.lt_succ_of_le (h.timed.known b hb)
      known := hall (fun b hb => Nat.le_succ_of_le (h.timed.known b hb)) hgeneration.le
      inOrder := hpairs h.timed.inOrder fun b hb => by
        rw [hdue]
        exact (h.soon b hb).2
      ahead := hall h.timed.ahead (by rw [hdue]; exact hdelay.le) }
  · rw [halarms]
    exact hall h.soon (by rw [hdue]; exact ⟨hdelay, Nat.le_refl _⟩)

theorem last?_schedule (s : Server) (u v : Uri) :
    (last? v (s.scheduleUpdate u).alarms).map Alarm.due
      = if v = u then some (s.clock + Debouncer.standardDelay)
        else (last? v s.alarms).map Alarm.due := by
  unfold scheduleUpdate
  simp only
  rw [last?_concat]
  by_cases hv : v = u
  · simp [hv]
  · simp [hv, Ne.symm hv]

theorem Punctual.scheduleAll (h : s.Punctual) (uris : List Uri) :
    (uris.foldl scheduleUpdate s).Punctual := by
  induction uris generalizing s with
  | nil => exact h
  | cons u uris ih => exact ih (h.schedule u)

theorem last?_scheduleAll (s : Server) (uris : List Uri) (v : Uri) :
    (last? v (uris.foldl scheduleUpdate s).alarms).map Alarm.due
      = if v ∈ uris then some (s.clock + Debouncer.standardDelay)
        else (last? v s.alarms).map Alarm.due := by
  induction uris generalizing s with
  | nil => simp
  | cons u uris ih =>
    rw [List.foldl_cons, ih, last?_schedule, show (s.scheduleUpdate u).clock = s.clock from rfl]
    by_cases hv : v ∈ uris <;> by_cases hu : v = u <;> simp [hv, hu]

end Pass

end Server

end ElementLens
