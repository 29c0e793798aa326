/-
How things stand with a document.

What a client has said tells whether a document is open and with which text, and
when an update of it was last asked for (`Server.standing`). A document that is
opened, changed or made the active one has to be updated, and if settings have
changed all open documents have to. This is what a server goes by
(`Server.Upholds`): the documents of its session are those that are open, and the
last alarm of each document is due 150 milliseconds after an update of it was last
asked for, if that time has not come yet:

* **`Upholds.hear`**, **`Upholds.pass`** — the ways to change that;
* **`upholds_run`** — all turns.
-/
import ElementLens.Proofs.Server.Alarms

namespace ElementLens

theorem Document.uri_apply (d : Document) (edits : List TextEdit) (version : Int) :
    (d.apply edits version).uri = d.uri := by
  show (edits.foldl edit d).uri = d.uri
  induction edits generalizing d with
  | nil => rfl
  | cons e edits ih => exact ih (d.edit e)

namespace Session

variable (s : Session) (u v : Uri)

theorem document?_openDocument (version : Int) (text : String) :
    (s.openDocument v version text).document? u
      = if v = u then some (.ofText v version text) else s.document? u := by
  have huri : (Document.ofText v version text).uri = v := rfl
  unfold openDocument document?
  simp only
  rw [List.find?_append, find?_filter_ne, List.find?_singleton, huri]
  by_cases huv : v = u
  · simp [huv]
  · simp [huv, Ne.symm huv]

theorem document?_change (version : Int) (edits : List TextEdit) :
    (s.change v version edits).2.document? u
      = if v = u then (s.document? u).map fun d => d.apply edits version else s.document? u := by
  simp only [eq_comm (a := v)]
  exact find?_map_ite Document.uri (fun d => d.uri_apply edits version) s.documents v u

theorem document?_close :
    (s.close v).document? u = if v = u then none else s.document? u := by
  simp only [eq_comm (a := v)]
  exact find?_filter_ne Document.uri s.documents v u

theorem mem_openUris : u ∈ s.openUris ↔ (s.document? u).isSome := by
  unfold openUris document?
  rw [List.mem_map, List.find?_isSome]
  simp

end Session

namespace Server

/-- How things stand with a document: what it is, if it is open, and when an update of it
was last asked for. -/
structure Standing where
  document : Option Document
  called : Option Nat

namespace Standing

/-- An update is asked for if the document is open. -/
def call (st : Standing) (time : Nat) : Standing :=
  if st.document.isSome then { st with called := some time } else st

@[simp] theorem document_call (st : Standing) (time : Nat) :
    (st.call time).document = st.document := by
  unfold call
  split <;> rfl

@[simp] theorem called_call (st : Standing) (time : Nat) :
    (st.call time).called = if st.document.isSome then some time else st.called := by
  unfold call
  split <;> rfl

/-- How things stand after something was heard. -/
def hear (u : Uri) (st : Standing) (time : Nat) : Heard → Standing
  | .opened p => if p.uri = u then ⟨some (.ofText u p.version p.text), some time⟩ else st
  | .changed p =>
    if p.uri = u then
      { st.call time with document := st.document.map fun d => d.apply p.edits p.version }
    else st
  | .closed v => if v = u then { st with document := none } else st
  | .configured _ => st.call time
  | .activated v => if v = u then st.call time else st
  | .ready | .shutDown => st

/-- How things stand after a deed. -/
def after (u : Uri) (st : Standing) (e : Nat × Deed) : Standing :=
  match e.2 with
  | .heard h => st.hear u e.1 h
  | _ => st

end Standing

/-- How things stand with a document after some deeds. -/
def standing (u : Uri) (log : List (Nat × Deed)) : Standing :=
  log.foldl (Standing.after u) ⟨none, none⟩

variable {s : Server} {u : Uri} {log more : List (Nat × Deed)} {around : Surroundings}

theorem standing_append_heard (h : Heard) (time : Nat) :
    standing u (log ++ [(time, .heard h)]) = (standing u log).hear u time h :=
  List.foldl_append ..

/-! ### Deeds by which nothing is heard -/

/-- Whether nothing is heard, analysed or sent, but that the client is asked for settings. -/
def Deed.isQuiet : Deed → Bool
  | stored _ | asked _ _ | gaveUp _ | reported _ _ _ => true
  | heard _ | refreshed _ _ _ _ | sent _ => false

/-- Deeds that are quiet. -/
def Quiet (deeds : List Deed) : Prop := ∀ d ∈ deeds, d.isQuiet

namespace Quiet

theorem append {deeds more : List Deed} (h : Quiet deeds) (h' : Quiet more) :
    Quiet (deeds ++ more) := List.forall_mem_append.2 ⟨h, h'⟩

theorem stored (uses : List Store.Use) : Quiet (uses.map .stored) :=
  List.forall_mem_map.2 fun _ _ => rfl

theorem findSettings (s : Server) (around : Surroundings) (uri : Uri) :
    Quiet (s.deedsToFindSettings around uri) := by
  unfold deedsToFindSettings
  split
  · refine List.forall_mem_cons.2 ⟨rfl, ?_⟩
    split
    · exact List.forall_mem_nil _
    · refine List.forall_mem_singleton.2 ?_
      split <;> rfl
  · exact List.forall_mem_nil _

theorem lookUp (s : Server) (around : Surroundings) (q : Query) :
    Quiet (s.deedsToLookUp around q) := by
  cases q with
  | definition uri p | hover uri p => exact stored _
  | diagnostic uri =>
    simp only [deedsToLookUp]
    split
    · exact (findSettings s around uri).append (List.forall_mem_cons.2 ⟨rfl, stored _⟩)
    · exact List.forall_mem_nil _

end Quiet

/-- Nothing is heard. -/
def Unheard (deeds : List Deed) : Prop := ∀ h, Deed.heard h ∉ deeds

namespace Unheard

theorem append {deeds more : List Deed} (h : Unheard deeds) (h' : Unheard more) :
    Unheard (deeds ++ more) :=
  fun x hx => (List.mem_append.1 hx).elim (h x) (h' x)

theorem of_quiet {deeds : List Deed} (h : Quiet deeds) : Unheard deeds :=
  fun x hx => absurd (h _ hx) (by simp [Deed.isQuiet])

theorem send (s : Server) (m : Message) : Unheard (s.deedsToSend m) := by
  unfold deedsToSend
  split <;> simp [Unheard]

theorem publish (s : Server) (around : Surroundings) (uri : Uri) (settings : Settings) :
    Unheard (s.deedsToPublish around uri settings) := by
  unfold deedsToPublish
  have hbegin : Unheard [.refreshed around s.session uri settings] := by simp [Unheard]
  refine (hbegin.append (of_quiet (.stored _))).append ?_
  split
  · simp [Unheard]
  · exact send s _

theorem update (s : Server) (around : Surroundings) (uri : Uri) :
    Unheard (s.deedsToUpdate around uri) := by
  unfold deedsToUpdate
  split
  · exact (of_quiet (.findSettings s around uri)).append (publish _ around uri _)
  · simp [Unheard]

theorem ring (s : Server) (around : Surroundings) (a : Alarm) :
    Unheard ((deedsToRing around s a).map Prod.snd) := by
  unfold deedsToRing
  simp only
  split
  · rw [map_snd_deeds]
    exact update _ around a.uri
  · simp [Unheard]

theorem ringAll (s : Server) (around : Surroundings) (alarms : List Alarm) :
    Unheard ((deedsToRingAll around s alarms).map Prod.snd) := by
  induction alarms generalizing s with
  | nil => simp [Unheard, deedsToRingAll]
  | cons a alarms ih =>
    rw [deedsToRingAll, List.map_append]
    exact (ring s around a).append (ih _)

end Unheard

/-- How things stand is a matter of what is heard. -/
theorem standing_append (hmore : Unheard (more.map Prod.snd)) :
    standing u (log ++ more) = standing u log := by
  induction more using List.reverseRecOn with
  | nil => rw [List.append_nil]
  | append_singleton more e ih =>
    rw [← ih fun h hh => hmore h (by
      rw [List.map_append]
      exact List.mem_append_left _ hh)]
    obtain ⟨time, d⟩ := e
    unfold standing
    rw [← List.append_assoc, List.foldl_concat]
    cases d with
    | heard h => exact absurd (by simp) (hmore h)
    | _ => rfl

/-! ### What a server goes by -/

/-- A server goes by what it has heard. -/
structure Upholds (s : Server) (log : List (Nat × Deed)) : Prop where
  punctual : s.Punctual
  documents : ∀ u, s.session.document? u = (standing u log).document
  called : ∀ u, (last? u s.alarms).map Alarm.due
    = ((standing u log).called.map (· + Debouncer.standardDelay)).filter (s.clock < ·)
  past : ∀ e ∈ log, e.1 ≤ s.clock

namespace Upholds

variable {s' : Server} {x : Heard}

/-- Where time stands still things stand as they did. -/
theorem congr (h : s.Upholds log) (hdocuments : s'.session.documents = s.session.documents)
    (hdebouncer : s'.debouncer = s.debouncer) (halarms : s'.alarms = s.alarms)
    (hclock : s'.clock = s.clock) : s'.Upholds log where
  punctual := h.punctual.congr hdebouncer halarms hclock
  documents := fun u => by
    rw [← h.documents, Session.document?, hdocuments, Session.document?]
  called := fun u => by rw [halarms, hclock, h.called]
  past := hclock ▸ h.past

/-- Deeds by which nothing is heard do not matter. -/
theorem unheard (h : s.Upholds log) {deeds : List Deed} (hdeeds : Unheard deeds) :
    s.Upholds (log ++ deeds.map fun d => (s.clock, d)) := by
  have hstanding (u : Uri) : standing u (log ++ deeds.map fun d => (s.clock, d)) = standing u log :=
    standing_append (by rw [map_snd_deeds]; exact hdeeds)
  exact {
    punctual := h.punctual
    documents := fun u => by rw [hstanding, h.documents]
    called := fun u => by rw [hstanding, h.called]
    past := fun e he => by
      rcases List.mem_append.1 he with he | he
      · exact h.past e he
      · obtain ⟨d, -, rfl⟩ := List.mem_map.1 he
        exact Nat.le_refl _ }

theorem session_scheduleAll (s : Server) (uris : List Uri) :
    (uris.foldl scheduleUpdate s).session = s.session
      ∧ (uris.foldl scheduleUpdate s).clock = s.clock := by
  induction uris generalizing s with
  | nil => exact ⟨rfl, rfl⟩
  | cons u uris ih => exact ih (s.scheduleUpdate u)

/-- After something is heard the server goes by it, if it has the right documents and asks
for the right updates. -/
theorem concat (h : s.Upholds log) (uris : List Uri) (hdebouncer : s'.debouncer = s.debouncer)
    (halarms : s'.alarms = s.alarms) (hclock : s'.clock = s.clock)
    (hdocuments : ∀ u, s'.session.document? u = ((standing u log).hear u s.clock x).document)
    (hcalled : ∀ u, ((standing u log).hear u s.clock x).called
      = if u ∈ uris then some s.clock else (standing u log).called) :
    (uris.foldl scheduleUpdate s').Upholds (log ++ [(s.clock, .heard x)]) := by
  obtain ⟨hsession, hclock'⟩ := session_scheduleAll s' uris
  rw [hclock] at hclock'
  exact {
    punctual := (h.punctual.congr hdebouncer halarms hclock).scheduleAll uris
    documents := fun u => by rw [hsession, hdocuments, standing_append_heard]
    called := fun u => by
      rw [last?_scheduleAll, halarms, hclock', hclock, standing_append_heard, hcalled]
      split
      · simp [Option.filter, Debouncer.standardDelay]
      · exact h.called u
    past := fun e he => by
      rw [hclock']
      rcases List.mem_append.1 he with he | he
      · exact h.past e he
      · rw [List.mem_singleton.1 he] }

/-- An update of one document is asked for if it is open. -/
theorem called_if_open (v : Uri) (time : Nat) :
    (if v = u then ((standing u log).call time).called else (standing u log).called)
      = if u ∈ if (standing v log).document.isSome then [v] else [] then some time
        else (standing u log).called := by
  by_cases hu : v = u
  · cases hopen : (standing u log).document.isSome <;> simp [hu, hopen]
  · cases (standing v log).document.isSome <;> simp [hu, Ne.symm hu]

/-- **When something is heard**, the server goes by it. -/
theorem hear (h : s.Upholds log) (x : Heard) :
    (s.hear x).Upholds (log ++ (s.deedsToHear x).map fun d => (s.clock, d)) := by
  have hopen (u : Uri) : s.session.isOpen u = (standing u log).document.isSome :=
    congrArg Option.isSome (h.documents u)
  rw [hear_eq]
  cases x with
  | ready =>
    have hnow : s.Upholds (log ++ [(s.clock, .heard .ready)]) :=
      h.concat [] rfl rfl rfl h.documents fun u => rfl
    have hsent : Unheard
        ((if s.flags.configuration then s.deedsToSend .registerForConfiguration else [])
          ++ s.deedsToSend (.log "XElement Language Server initialized")) := by
      refine Unheard.append ?_ (.send s _)
      split
      · exact .send s _
      · simp [Unheard]
    have hwaits := Waits.initialized s
    have hall := (hnow.unheard hsent).congr hwaits.documents hwaits.debouncer hwaits.alarms
      hwaits.clock
    rwa [List.append_assoc] at hall
  | opened p =>
    refine h.concat [p.uri] rfl rfl rfl (fun u => ?_) fun u => ?_
    · refine (s.session.document?_openDocument u p.uri p.version p.text).trans ?_
      by_cases hu : p.uri = u <;> simp [Standing.hear, hu, h.documents]
    · by_cases hu : p.uri = u
      · simp [Standing.hear, hu]
      · simp [Standing.hear, hu, Ne.symm hu]
  | changed p =>
    refine h.concat _ rfl rfl rfl (fun u => ?_) fun u => ?_
    · refine (s.session.document?_change u p.uri p.version p.edits).trans ?_
      by_cases hu : p.uri = u <;> simp [Standing.hear, hu, h.documents]
    · rw [affected, hopen, ← called_if_open, Standing.hear]
      split <;> rfl
  | closed v =>
    refine h.concat [] rfl rfl rfl (fun u => ?_) fun u => ?_
    · refine (s.session.document?_close u v).trans ?_
      by_cases hu : v = u <;> simp [Standing.hear, hu, h.documents]
    · by_cases hu : v = u <;> simp [Standing.hear, hu]
  | configured change =>
    have hwaits := Waits.configured s change
    refine h.concat _ hwaits.debouncer hwaits.alarms hwaits.clock (fun u => ?_) fun u => ?_
    · rw [Session.document?, hwaits.documents, ← Session.document?, h.documents, Standing.hear,
        Standing.document_call]
    · simp only [affected, Session.mem_openUris, h.documents, Standing.hear, Standing.called_call]
  | activated v =>
    refine h.concat _ rfl rfl rfl (fun u => ?_) fun u => ?_
    · rw [absorb, h.documents, Standing.hear]
      split
      · rw [Standing.document_call]
      · rfl
    · rw [affected, hopen, ← called_if_open, Standing.hear]
      split <;> rfl
  | shutDown =>
    exact h.concat [] rfl rfl rfl h.documents fun _ => rfl

/-- **When time has passed**, things stand as they did. -/
theorem pass (h : s.Upholds log) (around : Surroundings) (milliseconds : Nat) :
    (s.pass around milliseconds).Upholds (log ++ s.deedsToPass around milliseconds) := by
  have hstanding (u : Uri) :
      standing u (log ++ s.deedsToPass around milliseconds) = standing u log :=
    standing_append (.ringAll _ around _)
  exact {
    punctual := h.punctual.pass around milliseconds
    documents := fun u => by
      rw [hstanding, ← h.documents, Session.document?, Session.document?]
      exact congrArg _ (Waits.ringAll _ around _).2.1
    called := fun u => by
      rw [h.punctual.last?_pass around milliseconds, h.called, hstanding]
      cases (standing u log).called with
      | none => rfl
      | some time =>
        by_cases hover : s.clock + milliseconds < time + Debouncer.standardDelay
        · have hahead : s.clock < time + Debouncer.standardDelay := by omega
          simp [Option.filter, pass_eq, hover, hahead]
        · by_cases hahead : s.clock < time + Debouncer.standardDelay <;>
            simp [Option.filter, pass_eq, hover, hahead]
    past := fun e he => by
      show e.1 ≤ s.clock + milliseconds
      rcases List.mem_append.1 he with he | he
      · exact (h.past e he).trans (Nat.le_add_right _ _)
      · exact (h.punctual.time_of_mem he).2 }

end Upholds

/-- **What a server goes by** after all turns: what it has heard. -/
theorem upholds_run (turns : List (Surroundings × Turn)) :
    (start.run turns).Upholds (start.log turns) := by
  induction turns using List.reverseRecOn with
  | nil =>
    exact {
      punctual := ⟨⟨rfl, rfl, fun _ => rfl, .nil, by simp [start], .nil, by simp [start]⟩,
        by simp [start]⟩
      documents := fun _ => rfl
      called := fun _ => rfl
      past := fun _ he => absurd he List.not_mem_nil }
  | append_singleton turns turn ih =>
    obtain ⟨around, t⟩ := turn
    rw [log_concat, run_concat]
    have hgoes := (start.run turns).goes_turn around t
    generalize (start.run turns).deedsOf around t = deeds,
      (start.run turns).turn around t = s' at hgoes ⊢
    cases hgoes with
    | looks q hready =>
      have hwaits := Waits.lookUp (start.run turns) around q
      exact (ih.unheard (.of_quiet (.lookUp _ around q))).congr hwaits.documents hwaits.debouncer hwaits.alarms
        hwaits.clock
    | hears x hready => exact ih.hear x
    | passes milliseconds => exact ih.pass around milliseconds
    | converses _ h =>
      rw [List.append_nil]
      exact ih.congr (by rw [h.rest]) (by rw [h.rest]) (by rw [h.rest]) (by rw [h.rest])

end Server

end ElementLens
