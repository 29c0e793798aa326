/-
When problems are published.

The problems of a document are published 150 milliseconds after an update of it was
last asked for, and at no other time, provided that it is open then. They are those
that a refresh of the session finds, on the text that the client has by then, by the
settings in force:

* **`Timed.publishedIf_ringAll`** — what is published when alarms go off;
* **`Due.pass`** — what becomes due while time passes;
* **`publishing_law`** — what is published in all turns.
-/
import ElementLens.Proofs.Server.Notices
import ElementLens.Proofs.Server.Settings
import ElementLens.Proofs.Server.Standing

namespace ElementLens

namespace Server

/-- The problems of a document that are published. -/
def Deed.published? (u : Uri) : Deed → Option (List Diagnostic)
  | sent (.publish v found) => if v = u then some found else none
  | _ => none

/-- All problems of a document that are published at some time. -/
def publishes (u : Uri) (time : Nat) (log : List (Nat × Deed)) : List (List Diagnostic) :=
  log.filterMap fun e => if e.1 = time then e.2.published? u else none

/-- What was done before some time. -/
def earlier (time : Nat) (log : List (Nat × Deed)) : List (Nat × Deed) :=
  log.filter fun e => e.1 < time

/-- The problems of a document are published once at some time: those that a refresh of the
session has found just before. -/
def PublishedOnce (u : Uri) (time : Nat) (document : Option Document) (log : List (Nat × Deed)) :
    Prop :=
  ∃ early around session settings late found,
    log = early ++ (time, .refreshed around session u settings) :: late
      ∧ session.document? u = document
      ∧ (session.refresh around.loader around.files u settings).1 = some found
      ∧ publishes u time log = [found]

/-- The problems of a document are published once at some time if they are due then, and
else not at all. -/
def PublishedIf (due : Prop) (u : Uri) (time : Nat) (document : Option Document)
    (log : List (Nat × Deed)) : Prop :=
  (due → PublishedOnce u time document log) ∧ (¬ due → publishes u time log = [])

variable {s : Server} {u v : Uri} {time : Nat} {log more : List (Nat × Deed)}
  {document : Option Document} {around : Surroundings} {deeds : List Deed}

theorem publishes_append :
    publishes u time (log ++ more) = publishes u time log ++ publishes u time more :=
  List.filterMap_append

theorem publishes_of_time (h : ∀ e ∈ log, e.1 ≠ time) : publishes u time log = [] :=
  List.filterMap_eq_nil_iff.2 fun e he => if_neg (h e he)

theorem PublishedOnce.append_left (h : PublishedOnce u time document more)
    (hlog : publishes u time log = []) : PublishedOnce u time document (log ++ more) := by
  obtain ⟨early, around, session, settings, late, found, rfl, hdocument, hfound, honce⟩ := h
  refine ⟨log ++ early, around, session, settings, late, found, by simp, hdocument, hfound, ?_⟩
  rw [publishes_append, hlog, honce, List.nil_append]

theorem PublishedOnce.append_right (h : PublishedOnce u time document log)
    (hmore : publishes u time more = []) : PublishedOnce u time document (log ++ more) := by
  obtain ⟨early, around, session, settings, late, found, rfl, hdocument, hfound, honce⟩ := h
  refine ⟨early, around, session, settings, late ++ more, found, by simp, hdocument, hfound, ?_⟩
  rw [publishes_append, hmore, honce, List.append_nil]

namespace PublishedIf

variable {due due' : Prop}

theorem congr (h : PublishedIf due u time document log) (hdue : due' ↔ due) :
    PublishedIf due' u time document log :=
  ⟨fun hd => h.1 (hdue.1 hd), fun hnot => h.2 fun hd => hnot (hdue.2 hd)⟩

theorem nil (hdue : ¬ due) : PublishedIf due u time document [] :=
  ⟨fun h => absurd h hdue, fun _ => rfl⟩

theorem append (h : PublishedIf due u time document log)
    (h' : PublishedIf due' u time document more) (hnot : ¬ (due ∧ due')) :
    PublishedIf (due ∨ due') u time document (log ++ more) := by
  by_cases hdue : due
  · have hmore := h'.2 fun hdue' => hnot ⟨hdue, hdue'⟩
    exact ⟨fun _ => (h.1 hdue).append_right hmore, fun hneither => absurd (.inl hdue) hneither⟩
  · have hlog := h.2 hdue
    refine ⟨fun heither => (h'.1 (heither.resolve_left hdue)).append_left hlog, fun hneither => ?_⟩
    rw [publishes_append, hlog, h'.2 fun hdue' => hneither (.inr hdue'), List.nil_append]

theorem append_nothing (h : PublishedIf due u time document log)
    (hmore : publishes u time more = []) : PublishedIf due u time document (log ++ more) :=
  ⟨fun hdue => (h.1 hdue).append_right hmore, fun hnot => by
    rw [publishes_append, h.2 hnot, hmore, List.append_nil]⟩

theorem prepend_nothing (h : PublishedIf due u time document more)
    (hlog : publishes u time log = []) : PublishedIf due u time document (log ++ more) :=
  ⟨fun hdue => (h.1 hdue).append_left hlog, fun hnot => by
    rw [publishes_append, h.2 hnot, hlog, List.append_nil]⟩

end PublishedIf

/-! ### Deeds by which nothing is published -/

/-- No problems are published. -/
def Unpublished (deeds : List Deed) : Prop := ∀ u, ∀ d ∈ deeds, d.published? u = none

namespace Unpublished

theorem nil : Unpublished [] := fun _ _ hd => absurd hd List.not_mem_nil

theorem append {more : List Deed} (h : Unpublished deeds) (h' : Unpublished more) :
    Unpublished (deeds ++ more) :=
  fun u d hd => (List.mem_append.1 hd).elim (h u d) (h' u d)

theorem of_quiet (h : Quiet deeds) : Unpublished deeds := by
  intro u d hd
  have hquiet := h d hd
  cases d with
  | sent => exact absurd hquiet (by simp [Deed.isQuiet])
  | _ => rfl

theorem send (s : Server) {m : Message} (hm : ∀ u found, m ≠ .publish u found) :
    Unpublished (s.deedsToSend m) := by
  intro u d hd
  unfold deedsToSend at hd
  split at hd
  · exact absurd hd List.not_mem_nil
  · rw [List.mem_singleton.1 hd]
    cases m with
    | publish v found => exact absurd rfl (hm v found)
    | _ => rfl

theorem hear (s : Server) (x : Heard) : Unpublished (s.deedsToHear x) := by
  have hheard : Unpublished [.heard x] := fun u d hd => by rw [List.mem_singleton.1 hd]; rfl
  cases x with
  | ready =>
    refine hheard.append (append ?_ (send s fun _ _ => by simp))
    split
    · exact send s fun _ _ => by simp
    · exact nil
  | _ => exact hheard.append nil

theorem publishes_eq (h : Unpublished deeds) (now : Nat) :
    publishes u time (deeds.map fun d => (now, d)) = [] := by
  refine List.filterMap_eq_nil_iff.2 fun e he => ?_
  obtain ⟨d, hd, rfl⟩ := List.mem_map.1 he
  simp only
  split
  · exact h u d hd
  · rfl

end Unpublished

/-! ### Updates -/

/-- An update of an open document publishes what a refresh finds. -/
theorem deedsToUpdate_eq (hlasting : s.isOver = false) (around : Surroundings) {d : Document}
    (hopen : s.session.document? v = some d) :
    ∃ before session settings middle found,
      s.deedsToUpdate around v
          = before ++ .refreshed around session v settings ::
            (middle ++ [.sent (.publish v found)])
        ∧ Unpublished before ∧ Unpublished middle
        ∧ session.document? v = some d
        ∧ (session.refresh around.loader around.files v settings).1 = some found := by
  obtain ⟨s', hs'⟩ : ∃ s', s' = (s.documentSettings around v).2 := ⟨_, rfl⟩
  obtain ⟨settings, hsettings⟩ : ∃ settings, settings = (s.documentSettings around v).1 := ⟨_, rfl⟩
  have hwaits : Waits s s' := hs' ▸ .documentSettings s around v
  have hopen' : s'.session.document? v = some d := by
    rw [← hopen, Session.document?, hwaits.documents, Session.document?]
  have hlasting' : s'.isOver = false := by
    rw [← hlasting, isOver, hwaits.lifecycle, isOver]
  have hfound := Session.fst_refresh around.loader around.files settings hopen'
  refine ⟨s.deedsToFindSettings around v, s'.session, settings,
    (Workspace.usesToRefresh around.loader ⟨s'.session, around.files⟩ v settings).map .stored, _,
    ?_, .of_quiet (.findSettings s around v), .of_quiet (.stored _), hopen', hfound⟩
  unfold deedsToUpdate
  rw [if_pos (by rw [Session.isOpen, hopen]; rfl)]
  simp only [← hs', ← hsettings]
  rw [deedsToPublish, hfound]
  simp only [deedsToSend, hlasting', Bool.false_eq_true, if_false, List.cons_append]

/-- What is published by an update. -/
theorem publishedIf_update (u : Uri) (time : Nat) (hlasting : s.isOver = false)
    (around : Surroundings) (v : Uri) (now : Nat) :
    PublishedIf ((s.session.document? u).isSome ∧ v = u ∧ now = time) u time
      (s.session.document? u) ((s.deedsToUpdate around v).map fun d => (now, d)) := by
  cases hopen : s.session.document? v with
  | none =>
    have hnothing : s.deedsToUpdate around v = [] := if_neg (by simp [Session.isOpen, hopen])
    rw [hnothing]
    refine ⟨fun ⟨hsome, hvu, _⟩ => ?_, fun _ => rfl⟩
    rw [← hvu, hopen] at hsome
    exact absurd hsome (by simp)
  | some d =>
    obtain ⟨before, session, settings, middle, found, hdeeds, hbefore, hmiddle, hsession, hfound⟩ :=
      deedsToUpdate_eq hlasting around hopen
    have hpublishes : publishes u time ((s.deedsToUpdate around v).map fun d => (now, d))
        = if v = u ∧ now = time then [found] else [] := by
      have hrefreshed : Unpublished [.refreshed around session v settings] :=
        fun u d hd => by rw [List.mem_singleton.1 hd]; rfl
      rw [hdeeds, ← List.singleton_append, ← List.append_assoc, ← List.append_assoc, List.map_append,
        publishes_append, ((hbefore.append hrefreshed).append hmiddle).publishes_eq,
        List.nil_append]
      by_cases hvu : v = u <;> by_cases hnow : now = time <;>
        simp [publishes, Deed.published?, hvu, hnow]
    constructor
    · rintro ⟨-, rfl, rfl⟩
      rw [if_pos ⟨rfl, rfl⟩] at hpublishes
      refine ⟨before.map fun d => (now, d), around, session, settings,
        (middle ++ [Deed.sent (.publish v found)]).map fun d => (now, d), found, ?_,
        hsession.trans hopen.symm, hfound, hpublishes⟩
      rw [hdeeds, List.map_append, List.map_cons]
    · intro hnot
      rw [hpublishes]
      refine if_neg fun ⟨hvu, hnow⟩ => hnot ⟨?_, hvu, hnow⟩
      rw [← hvu, hopen]
      rfl

/-! ### Alarms that go off -/

namespace Timed

variable {a : Alarm} {pending later : List Alarm}

/-- What is published when an alarm goes off. -/
theorem publishedIf_ring (h : s.Timed (a :: pending)) (u : Uri) (time : Nat)
    (hlasting : s.isOver = false) (around : Surroundings) :
    PublishedIf ((s.session.document? u).isSome ∧ last? a.uri pending = none ∧ a.uri = u
        ∧ a.due = time)
      u time (s.session.document? u) (deedsToRing around s a) := by
  have hclock : (s.awaken a).clock = a.due := max_eq_right (h.ahead a List.mem_cons_self)
  unfold deedsToRing
  simp only [h.isRunning_awaken, hclock]
  cases last? a.uri pending with
  | some b => exact .nil (by simp)
  | none =>
    have hupdate := publishedIf_update (s := s.awaken a) u time hlasting around a.uri a.due
    exact hupdate.congr (by simp [awaken])

/-- **What is published when alarms go off**: the problems of each document that is open and
has its last alarm among them. -/
theorem publishedIf_ringAll (h : s.Timed (pending ++ later)) (u : Uri) (time : Nat)
    (hlasting : s.isOver = false) (around : Surroundings) :
    PublishedIf ((s.session.document? u).isSome ∧ last? u later = none
        ∧ (last? u pending).map Alarm.due = some time)
      u time (s.session.document? u) (deedsToRingAll around s pending) := by
  induction pending generalizing s with
  | nil => exact .nil (by simp [last?])
  | cons a pending ih =>
    obtain ⟨hlifecycle, hdocuments, -⟩ := Waits.ring s around a
    have hdocument : (Server.ring around s a).session.document? u = s.session.document? u := by
      rw [Session.document?, hdocuments, Session.document?]
    have hall : s.Timed (a :: (pending ++ later)) := h
    have hfirst := hall.publishedIf_ring u time hlasting around
    have hrest := ih (hall.ring around) (by rw [← hlasting, isOver, hlifecycle, isOver])
    rw [hdocument] at hrest
    -- the alarm counts if it is the last one of the document, and then the others do not
    refine (hfirst.append hrest ?_).congr ?_
    · rintro ⟨⟨-, hlast, rfl, -⟩, -, -, hsome⟩
      rw [last?_append, Option.or_eq_none_iff] at hlast
      rw [hlast.2] at hsome
      exact absurd hsome (by simp)
    · rw [last?_cons, last?_append]
      by_cases hu : a.uri = u
      · rw [hu]
        cases last? u pending <;> cases last? u later <;> simp
      · simp [hu]

end Timed

/-- **What is published while time passes**: the problems of each document that is open and
has its last alarm at the time in question. -/
theorem Punctual.publishedIf_pass (h : s.Punctual) (hlasting : s.isOver = false)
    (around : Surroundings) {milliseconds : Nat} (hstop : time ≤ s.clock + milliseconds) :
    PublishedIf ((s.session.document? u).isSome ∧ (last? u s.alarms).map Alarm.due = some time)
      u time (s.session.document? u) (s.deedsToPass around milliseconds) := by
  have hringAll := (h.timed_without (s.clock + milliseconds)).publishedIf_ringAll u time hlasting
    around
  refine hringAll.congr (and_congr_right fun _ => ?_)
  rw [s.alarms_eq (s.clock + milliseconds), last?_append]
  -- the alarms that are left are due later
  cases hlater : last? u (s.without (s.clock + milliseconds)).alarms with
  | none => simp
  | some b =>
    have hb := lt_due_of_mem_without _ h.timed.inOrder b
      (of_last? hlater).1
    have hne : b.due ≠ time := by omega
    simp [hne]

/-! ### All turns -/

/-- The problems of a document are due at some time: it is open, and an update of it was last
asked for 150 milliseconds before. -/
def Standing.IsDue (st : Standing) (time : Nat) : Prop :=
  st.document.isSome ∧ ∃ called, st.called = some called ∧ called + 150 = time

theorem Standing.isDue_iff (st : Standing) (time : Nat) :
    st.IsDue time ↔ st.document.isSome
      ∧ st.called.map (· + Debouncer.standardDelay) = some time := by
  unfold IsDue Debouncer.standardDelay
  rw [Option.map_eq_some_iff]

theorem clock_hear (s : Server) (x : Heard) : (s.hear x).clock = s.clock := by
  rw [hear_eq, (Upholds.session_scheduleAll _ _).2]
  cases x with
  | ready => exact (Waits.initialized s).clock
  | configured change => exact (Waits.configured s change).clock
  | opened | changed | closed | activated | shutDown => rfl

theorem earlier_append_of_le (h : ∀ e ∈ more, time ≤ e.1) :
    earlier time (log ++ more) = earlier time log := by
  have hnone : earlier time more = [] :=
    List.filter_eq_nil_iff.2 fun e he => by simpa using h e he
  unfold earlier at hnone ⊢
  rw [List.filter_append, hnone, List.append_nil]

theorem earlier_append_of_lt (h : ∀ e ∈ log, e.1 < time) :
    earlier time (log ++ more) = log ++ earlier time more := by
  unfold earlier
  rw [List.filter_append, List.filter_eq_self.2 fun e he => by simpa using h e he]

theorem Unheard.earlier (h : Unheard (more.map Prod.snd)) (time : Nat) :
    Unheard ((earlier time more).map Prod.snd) := fun x hx =>
  h x (List.map_subset Prod.snd (List.filter_subset_self _) hx)

/-- The problems of a document are due, and published, at some time. -/
def Due (u : Uri) (time : Nat) (log : List (Nat × Deed)) : Prop :=
  PublishedIf ((standing u (earlier time log)).IsDue time) u time
    (standing u (earlier time log)).document log

/-- Where nothing is published and time stands still, nothing becomes due. -/
theorem Due.append (h : Due u time log) (hdeeds : Unpublished deeds) {now : Nat}
    (hnow : time ≤ now) : Due u time (log ++ deeds.map fun d => (now, d)) := by
  unfold Due
  rw [earlier_append_of_le fun e he => by
    obtain ⟨d, -, rfl⟩ := List.mem_map.1 he
    exact hnow]
  exact h.append_nothing (hdeeds.publishes_eq now)

/-- While time passes problems become due. -/
theorem Due.pass (h : s.Upholds log) (hlasting : s.isOver = false)
    (hdue : ∀ time ≤ s.clock, Due u time log) (around : Surroundings) {milliseconds : Nat}
    (htime : time ≤ s.clock + milliseconds) :
    Due u time (log ++ s.deedsToPass around milliseconds) := by
  have hlate : ∀ e ∈ s.deedsToPass around milliseconds, s.clock < e.1 :=
    fun e he => (h.punctual.time_of_mem he).1
  unfold Due
  rcases Nat.lt_or_ge s.clock time with hahead | hover
  · have hstanding : standing u (earlier time (log ++ s.deedsToPass around milliseconds))
        = standing u log := by
      rw [earlier_append_of_lt fun e he => (h.past e he).trans_lt hahead]
      exact standing_append ((Unheard.ringAll _ around _).earlier time)
    have hlog : publishes u time log = [] :=
      publishes_of_time fun e he => Nat.ne_of_lt ((h.past e he).trans_lt hahead)
    rw [hstanding, ← h.documents]
    refine ((h.punctual.publishedIf_pass hlasting around htime).congr ?_).prepend_nothing hlog
    -- the last alarm tells when an update was last asked for
    rw [Standing.isDue_iff, ← h.documents, h.called, Option.filter_eq_some_iff]
    simp [hahead]
  · rw [earlier_append_of_le fun e he => hover.trans (hlate e he).le]
    refine (hdue time hover).append_nothing (publishes_of_time fun e he => ?_)
    exact Nat.ne_of_gt (hover.trans_lt (hlate e he))

/-- **What is published in all turns**, as far as they go: the problems of each document at
the times at which they are due. -/
theorem due_run (turns : List (Surroundings × Turn))
    (hlasting : (start.run turns).lifecycle ≠ .over) (u : Uri) (time : Nat)
    (htime : time ≤ (start.run turns).clock) : Due u time (start.log turns) := by
  induction turns using List.reverseRecOn generalizing time with
  | nil => exact .nil fun hdue => absurd hdue.1 (by simp [log, standing, earlier])
  | append_singleton turns turn ih =>
    obtain ⟨around, t⟩ := turn
    rw [run_concat] at hlasting htime
    have hbefore : (start.run turns).lifecycle ≠ .over := by
      intro hover
      exact hlasting ((does_turn (by simp [hover]) around t).ended hover)
    have hlater := ih hbefore
    have hupholds := upholds_run turns
    have hgoes := (start.run turns).goes_turn around t
    rw [log_concat]
    generalize (start.run turns).deedsOf around t = deeds,
      (start.run turns).turn around t = s' at hgoes htime ⊢
    cases hgoes with
    | looks q hready =>
      have htime' := (Waits.lookUp _ around q).clock ▸ htime
      exact (hlater time htime').append (.of_quiet (.lookUp _ around q)) htime'
    | hears x hready =>
      have htime' := clock_hear _ x ▸ htime
      exact (hlater time htime').append (.hear _ x) htime'
    | passes milliseconds =>
      exact .pass hupholds (by simpa [isOver] using hbefore) hlater around htime
    | converses _ h =>
      rw [List.append_nil]
      exact hlater time (by rw [h.rest] at htime; exact htime)

/-- **The law of publishing.** Up to now, while the conversation lasts, the problems of a
document are published at some time if and only if they are due then: the document is open,
and an update of it was last asked for 150 milliseconds before. They are published once, and
are those that a refresh of the session finds on the text that the client has by then, by
the settings in force. -/
theorem publishing_law (turns : List (Surroundings × Turn)) (u : Uri) (time : Nat)
    (hlasting : (start.run turns).lifecycle ≠ .over) (htime : time ≤ (start.run turns).clock) :
    let s := start.run turns
    let log := start.log turns
    let st := standing u (earlier time log)
    s.outbox.reverse = (log.map Prod.snd).filterMap Deed.message?
      ∧ (st.IsDue time → ∃ early around session settings late found,
        log = early ++ (time, .refreshed around session u settings) :: late
          ∧ session.document? u = st.document
          ∧ InForce s.flags.configuration u (early.map Prod.snd) settings
          ∧ (session.refresh around.loader around.files u settings).1 = some found
          ∧ publishes u time log = [found])
      ∧ (¬ st.IsDue time → publishes u time log = []) := by
  intro s log st
  obtain ⟨hdue, hnot⟩ := due_run turns hlasting u time htime
  refine ⟨outbox_run turns, fun h => ?_, hnot⟩
  obtain ⟨early, around, session, settings, late, found, hlog, hdocument, hfound, honce⟩ := hdue h
  refine ⟨early, around, session, settings, late, found, hlog, hdocument, ?_, hfound, honce⟩
  have hdeeds : log.map Prod.snd
      = early.map Prod.snd ++ .refreshed around session u settings :: late.map Prod.snd := by
    rw [show log = _ from hlog, List.map_append, List.map_cons]
  exact inForce_of_pass (does_run turns).fit hdeeds rfl

namespace Sample

/-- A change that gives the document another text. -/
def change : Params.Changed := ⟨uri, 2, [⟨none, "y"⟩]⟩

/-- What a client does that changes the document before the problems of its first text are
published. -/
def typing : List (Surroundings × Turn) := turns.take 2 ++ [
  (Sample.around, .pass 100),
  (Sample.around, .notice "textDocument/didChange" (some (change.toJson "untitled:a"))),
  (Sample.around, .pass 150)]

end Sample

/-- The problems of a document that was opened are published in time. If it is changed in
the meantime, those of the new text are, and later. -/
theorem publishing_law_opened :
    (start.run Sample.turns).lifecycle ≠ .over ∧ 150 ≤ (start.run Sample.turns).clock
      ∧ (standing Sample.uri (earlier 150 (start.log Sample.turns))).IsDue 150
      ∧ (∃ found, publishes Sample.uri 150 (start.log Sample.turns) = [found])
      ∧ (start.run Sample.typing).lifecycle ≠ .over ∧ 250 ≤ (start.run Sample.typing).clock
      ∧ ¬ (standing Sample.uri (earlier 150 (start.log Sample.typing))).IsDue 150
      ∧ publishes Sample.uri 150 (start.log Sample.typing) = []
      ∧ (standing Sample.uri (earlier 250 (start.log Sample.typing))).IsDue 250
      ∧ ∃ (around : Surroundings) (session : Session) (settings : Settings)
          (found : List Diagnostic),
        (session.document? Sample.uri).map Document.text = some "y"
          ∧ (session.refresh around.loader around.files Sample.uri settings).1 = some found
          ∧ publishes Sample.uri 250 (start.log Sample.typing) = [found] := by
  have hlasting : (start.run Sample.turns).lifecycle ≠ .over := by decide +kernel
  have htime : 150 ≤ (start.run Sample.turns).clock := by decide +kernel
  have hdue : (standing Sample.uri (earlier 150 (start.log Sample.turns))).IsDue 150 :=
    ⟨by decide +kernel, 0, by decide +kernel, rfl⟩
  obtain ⟨-, hpublished, -⟩ := publishing_law Sample.turns Sample.uri 150 hlasting htime
  obtain ⟨_, _, _, _, _, found, -, -, -, -, honce⟩ := hpublished hdue
  have hlasting' : (start.run Sample.typing).lifecycle ≠ .over := by decide +kernel
  have htime' : 250 ≤ (start.run Sample.typing).clock := by decide +kernel
  have hearly : ¬ (standing Sample.uri (earlier 150 (start.log Sample.typing))).IsDue 150 := by
    have hcalled :
        (standing Sample.uri (earlier 150 (start.log Sample.typing))).called = some 100 := by
      decide +kernel
    rintro ⟨-, called, hcalled', htime⟩
    obtain rfl := Option.some.inj (hcalled.symm.trans hcalled')
    omega
  have hdue' : (standing Sample.uri (earlier 250 (start.log Sample.typing))).IsDue 250 :=
    ⟨by decide +kernel, 100, by decide +kernel, rfl⟩
  have htext : (standing Sample.uri (earlier 250 (start.log Sample.typing))).document.map
      Document.text = some "y" := by decide +kernel
  obtain ⟨-, -, hsilent⟩ := publishing_law Sample.typing Sample.uri 150 hlasting' (by omega)
  obtain ⟨-, hpublished', -⟩ := publishing_law Sample.typing Sample.uri 250 hlasting' htime'
  obtain ⟨_, around, session, settings, _, found', -, hdocument, -, hfound, honce'⟩ :=
    hpublished' hdue'
  exact ⟨hlasting, htime, hdue, ⟨found, honce⟩, hlasting', htime', hearly, hsilent hearly, hdue',
    around, session, settings, found', hdocument ▸ htext, hfound, honce'⟩

end Server

end ElementLens
