/-
Settings that come late.

A client takes its time to tell its settings, and the server does not wait: it goes on
with what it hears. So an update of a document, or a report on it, is an errand
(`Server.Errand`) that is done in stages. When it is taken up the document has to be
open; then the settings are looked up, and if they are not known the client is asked;
its reply is kept whenever it comes; and last the document is refreshed, or reported on.

If the document is closed before the reply comes, its settings are kept for a document
that is not open:

* **`Busy.run_undisturbed`** — an errand without anything in between is an update, or a
  report;
* **`Busy.told_log_iff`** — what the server was told of the settings of a document;
* **`Busy.settings_of_closed_iff`** — the settings of a closed document are those of a
  reply that came late.
-/
import ElementLens.Proofs.Server.Settings
import ElementLens.Proofs.Server.Standing

namespace ElementLens

namespace Server

/-- What an errand is for: an update of a document, or a report on it. -/
inductive Purpose where
  | update | report
deriving DecidableEq

/-- How far an errand is: it was taken up, the client was asked for the settings, or they
are known. -/
inductive Stage where
  | takenUp
  | asked
  | settled (settings : Settings)

/-- Something to do for a document, under a number of its own. -/
structure Errand where
  number : Nat
  uri : Uri
  purpose : Purpose
  stage : Stage

/-- A server, the errands that are under way, and how many there were. -/
structure Busy where
  server : Server
  errands : List Errand
  count : Nat

/-- What is done next for an errand: its settings are looked up, the reply of the client
has come, or it is finished. -/
inductive Act where
  | look
  | reply (reply : Option (List Json))
  | finish (around : Surroundings)

/-- What may happen next: something is heard, an errand is taken up, or something is done
for one. -/
inductive Move where
  | hear (h : Heard)
  | takeUp (purpose : Purpose) (uri : Uri)
  | work (number : Nat) (act : Act)

/-- Whether an errand is taken up: the document is open, and the client may ask for a
report only while the conversation lasts. -/
def admits (s : Server) (uri : Uri) : Purpose → Bool
  | .update => s.session.isOpen uri
  | .report => s.session.isOpen uri && s.lifecycle = .ready

/-- Finishes an errand. -/
def finishErrand (s : Server) (around : Surroundings) (uri : Uri) (settings : Settings) :
    Purpose → Server
  | .update => s.publish around uri settings
  | .report => { s with session := (s.session.diagnostics uri settings).2 }

/-- Does something for an errand. There is no stage after the last one. -/
def work (s : Server) (e : Errand) (act : Act) : Option (Server × Option Stage) :=
  match e.stage, act with
  | .takenUp, .look =>
    match s.knownSettings e.uri with
    | (some settings, s) => some (s, some (.settled settings))
    | (none, s) => some (s.send (.askConfiguration e.uri), some .asked)
  | .asked, .reply reply =>
    let settings := settingsOfReply reply
    some (s.receiveSettings e.uri settings, some (.settled settings))
  | .settled settings, .finish around =>
    some (s.finishErrand around e.uri settings e.purpose, none)
  | _, _ => none

/-- An errand that is done at once. -/
def attend (s : Server) (around : Surroundings) (uri : Uri) : Purpose → Server
  | .update => s.update around uri
  | .report => (s.diagnostic around uri).2

namespace Busy

/-- A server to which the client has introduced itself. -/
def start (flags : ClientFlags) : Busy :=
  ⟨{ Server.start with lifecycle := .ready, flags }, [], 0⟩

/-- The errand with a number. -/
def errand? (b : Busy) (number : Nat) : Option Errand :=
  b.errands.find? fun e => e.number = number

/-- An errand comes to its next stage, or is done. -/
def put (b : Busy) (number : Nat) (server : Server) : Option Stage → Busy
  | some stage =>
    let errands := b.errands.map fun e => if e.number = number then { e with stage } else e
    { b with server, errands }
  | none =>
    let errands := b.errands.filter fun e => e.number ≠ number
    { b with server, errands }

/-- What a move does. -/
def step (b : Busy) : Move → Busy
  | .hear h => if b.server.lifecycle = .ready then { b with server := b.server.hear h } else b
  | .takeUp purpose uri =>
    if b.server.admits uri purpose then
      { b with errands := b.errands ++ [⟨b.count, uri, purpose, .takenUp⟩], count := b.count + 1 }
    else b
  | .work number act =>
    match (b.errand? number).bind fun e => b.server.work e act with
    | some (server, next) => b.put number server next
    | none => b

/-- The server after some moves. -/
def run (b : Busy) (moves : List Move) : Busy := moves.foldl step b

end Busy

/-! ### What is remembered -/

/-- What is remembered is due to some deeds, and settings are only changed by what is
heard and by replies. -/
structure Minds (s : Server) (deeds : List Deed) (s' : Server) : Prop where
  memory : s'.memory = s.memory.after s.flags.configuration deeds
  keeps : ∀ d ∈ deeds, d.Keeps
  flags : s'.flags = s.flags

theorem Does.minds {s s' : Server} {deeds : List Deed} (h : Does s deeds s') : Minds s deeds s' :=
  ⟨h.memory, Deed.keeps_of_allFit h.fit, h.flags⟩

namespace Minds

variable {s s' s'' : Server} {deeds more : List Deed}

theorem nil (hmemory : s'.memory = s.memory) (hflags : s'.flags = s.flags) : Minds s [] s' :=
  ⟨hmemory, List.forall_mem_nil _, hflags⟩

theorem append (h : Minds s deeds s') (h' : Minds s' more s'') : Minds s (deeds ++ more) s'' where
  memory := by rw [h'.memory, h.memory, h.flags, Memory.after_append]
  keeps := List.forall_mem_append.2 ⟨h.keeps, h'.keeps⟩
  flags := h'.flags.trans h.flags

/-- The rest of a server does not matter. -/
theorem congr (h : Minds s deeds s') (hmemory : s''.memory = s'.memory)
    (hflags : s''.flags = s'.flags) : Minds s deeds s'' := by
  simpa using h.append (.nil hmemory hflags)

end Minds

theorem memory_send (s : Server) (m : Message) :
    (s.send m).memory = s.memory ∧ (s.send m).flags = s.flags
      ∧ (s.send m).session = s.session := by
  unfold send
  split <;> exact ⟨rfl, rfl, rfl⟩

/-- What is done with the store to finish an errand. -/
def deedsToFinish (s : Server) (around : Surroundings) (uri : Uri) (settings : Settings) :
    Purpose → List Deed
  | .update =>
    (Workspace.usesOf around.loader ⟨s.session, around.files⟩ (.refresh uri settings)).map .stored
  | .report =>
    (Workspace.usesOf around.loader ⟨s.session, around.files⟩ (.diagnostics uri settings)).map
      .stored

/-- What is done with what is remembered for an errand. -/
def deedsToWork (s : Server) (e : Errand) (act : Act) : List Deed :=
  match e.stage, act with
  | .takenUp, .look => if s.flags.configuration then [.stored (.looked e.uri)] else []
  | .asked, .reply reply => [.asked e.uri reply]
  | .settled settings, .finish around => s.deedsToFinish around e.uri settings e.purpose
  | _, _ => []

theorem minds_knownSettings (s : Server) (uri : Uri) :
    Minds s (if s.flags.configuration then [.stored (.looked uri)] else [])
        (s.knownSettings uri).2
      ∧ (s.knownSettings uri).2.session.document? = s.session.document? := by
  unfold knownSettings
  cases hcapable : s.flags.configuration with
  | false => exact ⟨.nil rfl rfl, rfl⟩
  | true => exact ⟨⟨rfl, List.forall_mem_singleton.2 trivial, rfl⟩, rfl⟩

theorem lifecycle_knownSettings (s : Server) (uri : Uri) :
    (s.knownSettings uri).2.lifecycle = s.lifecycle := by
  unfold knownSettings
  split <;> rfl

/-- Finishing an errand leaves the documents alone, and changes settings in no other way
than a refresh or a look at the problems may. -/
theorem minds_finish (s : Server) (around : Surroundings) (uri : Uri) (settings : Settings)
    (purpose : Purpose) :
    Minds s (s.deedsToFinish around uri settings purpose)
        (s.finishErrand around uri settings purpose)
      ∧ (s.finishErrand around uri settings purpose).session.document? = s.session.document? := by
  cases purpose with
  | report =>
    exact ⟨(s.does_step around (.diagnostics uri settings) (fun _ => by simp) (by simp)).minds, rfl⟩
  | update =>
    have hstep := (s.does_step around (.refresh uri settings) (fun _ => by simp) (by simp)).minds
    have hdocuments := s.session.document?_refresh around.loader around.files uri settings
    unfold finishErrand publish
    simp only [Workspace.step] at hstep
    rcases hrefresh : s.session.refresh around.loader around.files uri settings with
      ⟨_ | found, session⟩
    · rw [hrefresh] at hstep hdocuments
      exact ⟨hstep, hdocuments⟩
    · rw [hrefresh] at hstep hdocuments
      obtain ⟨hmemory, hflags, hsession⟩ :=
        memory_send { s with session } (.publish uri found)
      exact ⟨hstep.congr hmemory hflags, by rw [hsession]; exact hdocuments⟩

/-- **What is done for an errand** leaves the documents alone, and changes settings by
replies only. -/
theorem minds_work {s s' : Server} {e : Errand} {act : Act} {next : Option Stage}
    (h : s.work e act = some (s', next)) :
    Minds s (s.deedsToWork e act) s' ∧ s'.session.document? = s.session.document? := by
  obtain ⟨number, uri, purpose, stage⟩ := e
  cases stage with
  | takenUp =>
    cases act with
    | look =>
      obtain ⟨hminds, hdocuments⟩ := s.minds_knownSettings uri
      unfold work at h
      simp only at h
      rcases hknown : s.knownSettings uri with ⟨_ | settings, s₁⟩
      · rw [hknown] at h hminds hdocuments
        obtain ⟨rfl, -⟩ := Prod.mk.inj (Option.some.inj h)
        obtain ⟨hmemory, hflags, hsession⟩ := memory_send s₁ (.askConfiguration uri)
        exact ⟨hminds.congr hmemory hflags, by rw [hsession]; exact hdocuments⟩
      · rw [hknown] at h hminds hdocuments
        obtain ⟨rfl, -⟩ := Prod.mk.inj (Option.some.inj h)
        exact ⟨hminds, hdocuments⟩
    | reply | finish => exact absurd h (by simp [work])
  | asked =>
    cases act with
    | reply reply =>
      obtain ⟨rfl, -⟩ := Prod.mk.inj (Option.some.inj h)
      exact ⟨⟨rfl, List.forall_mem_singleton.2 trivial, rfl⟩, rfl⟩
    | look | finish => exact absurd h (by simp [work])
  | settled settings =>
    cases act with
    | finish around =>
      obtain ⟨rfl, -⟩ := Prod.mk.inj (Option.some.inj h)
      exact s.minds_finish around uri settings purpose
    | look | reply => exact absurd h (by simp [work])

/-- What is heard closes a document if it says so, and in no other way. -/
theorem closed_of_hear {s : Server} {h : Heard} {u : Uri} (hopen : s.session.isOpen u = true)
    (hclosed : (s.hear h).session.isOpen u = false) : h = .closed u := by
  rw [hear_eq, (Upholds.session_scheduleAll _ _).1] at hclosed
  cases h with
  | closed v =>
    by_contra hne
    have hv : v ≠ u := fun heq => hne (heq ▸ rfl)
    rw [absorb, didClose, Session.isOpen, Session.document?_close, if_neg hv, ← Session.isOpen,
      hopen] at hclosed
    exact absurd hclosed (by simp)
  | opened p =>
    rw [absorb, Session.isOpen, Session.document?_openDocument] at hclosed
    split at hclosed
    · exact absurd hclosed (by simp)
    · exact absurd (hopen.symm.trans hclosed) (by simp)
  | changed p =>
    rw [absorb, Session.isOpen, Session.document?_change] at hclosed
    split at hclosed
    · rw [Option.isSome_map] at hclosed
      exact absurd (hopen.symm.trans hclosed) (by simp)
    · exact absurd (hopen.symm.trans hclosed) (by simp)
  | ready =>
    have hsession : s.initialized.session = s.session := by
      unfold initialized
      rw [(memory_send _ _).2.2]
      split
      · exact (memory_send _ _).2.2
      · rfl
    rw [absorb, hsession, hopen] at hclosed
    exact absurd hclosed (by simp)
  | configured change =>
    have hdocuments := (Waits.configured s change).documents
    rw [Session.isOpen, Session.document?, hdocuments, ← Session.document?, ← Session.isOpen,
      hopen] at hclosed
    exact absurd hclosed (by simp)
  | activated v | shutDown => exact absurd (hopen.symm.trans hclosed) (by simp)

/-- Where nothing can be done for an errand, nothing is done. -/
theorem deedsToWork_of_none {s : Server} {e : Errand} {act : Act} (h : s.work e act = none) :
    s.deedsToWork e act = [] := by
  obtain ⟨number, uri, purpose, stage⟩ := e
  cases stage <;> cases act
  case takenUp.look =>
    unfold work at h
    simp only at h
    split at h <;> exact absurd h (by simp)
  case asked.reply | settled.finish => exact absurd h (by simp [work])
  all_goals rfl

namespace Busy

variable {b : Busy} {m : Move} {moves : List Move} {n k : Nat} {u : Uri} {e : Errand} {s : Server}
  {next : Option Stage} {settings : Settings}

/-- What a move does with what is remembered. -/
def deedsOf (b : Busy) : Move → List Deed
  | .hear h => if b.server.lifecycle = .ready then b.server.deedsToHear h else []
  | .takeUp _ _ => []
  | .work n act => ((b.errand? n).map fun e => b.server.deedsToWork e act).getD []

/-- What some moves do with what is remembered. -/
def log (b : Busy) : List Move → List Deed
  | [] => []
  | m :: moves => b.deedsOf m ++ (b.step m).log moves

@[simp] theorem run_nil (b : Busy) : b.run [] = b := rfl

@[simp] theorem run_cons (b : Busy) (m : Move) (moves : List Move) :
    b.run (m :: moves) = (b.step m).run moves := rfl

theorem run_append (b : Busy) (moves more : List Move) :
    b.run (moves ++ more) = (b.run moves).run more :=
  List.foldl_append ..

theorem log_append (b : Busy) (moves more : List Move) :
    b.log (moves ++ more) = b.log moves ++ (b.run moves).log more := by
  induction moves generalizing b with
  | nil => rfl
  | cons m moves ih => rw [List.cons_append, log, log, ih, List.append_assoc, run_cons]

/-! ### One move -/

@[simp] theorem server_put : (b.put n s next).server = s := by
  cases next <;> rfl

theorem step_work_of_some {act : Act} (he : b.errand? n = some e)
    (hwork : b.server.work e act = some (s, next)) : b.step (.work n act) = b.put n s next := by
  simp only [step, he, Option.bind_some, hwork]

theorem step_work_of_none {act : Act} (h : (b.errand? n).bind (b.server.work · act) = none) :
    b.step (.work n act) = b := by
  simp only [step, h]

/-- **What one move does** with what is remembered. -/
theorem minds_step (b : Busy) (m : Move) : Minds b.server (b.deedsOf m) (b.step m).server := by
  cases m with
  | hear h =>
    rw [deedsOf, step]
    split
    · next hready => exact (does_hear hready h).minds
    · exact .nil rfl rfl
  | takeUp purpose uri =>
    rw [deedsOf, step]
    split <;> exact .nil rfl rfl
  | work n act =>
    cases he : b.errand? n with
    | none =>
      rw [step_work_of_none (by rw [he, Option.bind_none]), deedsOf, he]
      exact .nil rfl rfl
    | some e =>
      rw [deedsOf, he, Option.map_some, Option.getD_some]
      cases hwork : b.server.work e act with
      | none =>
        rw [step_work_of_none (by rw [he, Option.bind_some, hwork]), deedsToWork_of_none hwork]
        exact .nil rfl rfl
      | some result =>
        rw [step_work_of_some he hwork, server_put]
        exact (minds_work hwork).1

theorem minds_run (b : Busy) (moves : List Move) :
    Minds b.server (b.log moves) (b.run moves).server := by
  induction moves generalizing b with
  | nil => exact .nil rfl rfl
  | cons m moves ih => exact (b.minds_step m).append (ih _)

/-- Nothing but what is heard changes the documents. -/
theorem document?_step (hm : ∀ h, m ≠ .hear h) :
    (b.step m).server.session.document? = b.server.session.document? := by
  cases m with
  | hear h => exact absurd rfl (hm h)
  | takeUp purpose uri =>
    rw [step]
    split <;> rfl
  | work n act =>
    cases hwork : (b.errand? n).bind (b.server.work · act) with
    | none => rw [step_work_of_none hwork]
    | some result =>
      obtain ⟨e, he, hwork⟩ := Option.bind_eq_some_iff.1 hwork
      rw [step_work_of_some he hwork, server_put]
      exact (minds_work hwork).2

/-- **A document is closed** when this is heard. -/
theorem closed_of_step (hopen : b.server.session.isOpen u = true)
    (hclosed : (b.step m).server.session.isOpen u = false) :
    m = .hear (.closed u) ∧ b.deedsOf m = [.heard (.closed u)] := by
  have hheard : ∃ h, m = .hear h := by
    by_contra hne
    rw [Session.isOpen, document?_step fun h heq => hne ⟨h, heq⟩, ← Session.isOpen,
      hopen] at hclosed
    exact absurd hclosed (by simp)
  obtain ⟨h, rfl⟩ := hheard
  rw [step] at hclosed
  split at hclosed
  · next hready =>
    obtain rfl := closed_of_hear hopen hclosed
    exact ⟨rfl, if_pos hready⟩
  · exact absurd (hopen.symm.trans hclosed) (by simp)

/-- A document stays open while nothing invalidates its settings. -/
theorem isOpen_run (hopen : b.server.session.isOpen u = true)
    (hkept : ∀ d ∈ b.log moves, d.invalidates u = false) :
    (b.run moves).server.session.isOpen u = true := by
  induction moves generalizing b with
  | nil => exact hopen
  | cons m moves ih =>
    obtain ⟨hnow, hrest⟩ := List.forall_mem_append.1 hkept
    refine ih ?_ hrest
    by_contra hclosed
    rw [Bool.not_eq_true] at hclosed
    obtain ⟨-, hdeeds⟩ := closed_of_step hopen hclosed
    rw [hdeeds] at hnow
    exact absurd (hnow _ List.mem_cons_self) (by simp [Deed.invalidates])

/-! ### Errands -/

theorem errand?_put : (b.put k s next).errand? n
    = if n = k then next.bind fun stage => (b.errand? n).map fun e => { e with stage }
      else b.errand? n := by
  cases next with
  | none => exact find?_filter_ne Errand.number b.errands k n
  | some stage =>
    exact find?_map_ite Errand.number (f := fun e => { e with stage }) (fun _ => rfl) b.errands k n

/-- An errand was taken up when its document was open. -/
theorem errand?_step (h : (b.step m).errand? n = some e) :
    (∃ e', b.errand? n = some e' ∧ e'.uri = e.uri)
      ∨ (∃ purpose, m = .takeUp purpose e.uri) ∧ b.server.session.isOpen e.uri = true := by
  cases m with
  | hear heard =>
    rw [step] at h
    split at h <;> exact .inl ⟨e, h, rfl⟩
  | takeUp purpose uri =>
    rw [step] at h
    split at h
    · next hadmits =>
      rw [errand?, List.find?_append] at h
      rcases Option.or_eq_some_iff.1 h with hold | ⟨-, hnew⟩
      · exact .inl ⟨e, hold, rfl⟩
      · rw [List.find?_singleton] at hnew
        split at hnew
        · obtain rfl := Option.some.inj hnew
          refine .inr ⟨⟨purpose, rfl⟩, ?_⟩
          cases purpose with
          | update => exact hadmits
          | report => exact (Bool.and_eq_true_iff.1 hadmits).1
        · exact absurd hnew (by simp)
    · exact .inl ⟨e, h, rfl⟩
  | work k act =>
    cases hwork : (b.errand? k).bind (b.server.work · act) with
    | none =>
      rw [step_work_of_none hwork] at h
      exact .inl ⟨e, h, rfl⟩
    | some result =>
      obtain ⟨e', he', hwork⟩ := Option.bind_eq_some_iff.1 hwork
      rw [step_work_of_some he' hwork, errand?_put] at h
      split at h
      · obtain ⟨stage, -, h⟩ := Option.bind_eq_some_iff.1 h
        obtain ⟨e'', hold, rfl⟩ := Option.map_eq_some_iff.1 h
        exact .inl ⟨e'', hold, rfl⟩
      · exact .inl ⟨e, h, rfl⟩

theorem run_concat : b.run (moves ++ [m]) = (b.run moves).step m :=
  List.foldl_append ..

theorem log_concat : b.log (moves ++ [m]) = b.log moves ++ (b.run moves).deedsOf m := by
  rw [log_append, log, log, List.append_nil]

/-- If the document of an errand is not open, it was closed while the errand was under
way. -/
theorem exists_close (hstart : b.errands = []) (he : (b.run moves).errand? n = some e)
    (hclosed : (b.run moves).server.session.isOpen e.uri = false) :
    ∃ before after, moves = before ++ .hear (.closed e.uri) :: after
      ∧ ∃ e', (b.run before).errand? n = some e' ∧ e'.uri = e.uri := by
  -- along the moves, the last one being the one that is added
  induction moves using List.reverseRecOn generalizing e with
  | nil =>
    rw [run_nil, errand?, hstart] at he
    exact absurd he (by simp)
  | append_singleton moves m ih =>
    rw [run_concat] at he hclosed
    cases hopen : (b.run moves).server.session.isOpen e.uri with
    | true =>
      obtain ⟨rfl, -⟩ := closed_of_step hopen hclosed
      refine ⟨moves, [], rfl, ?_⟩
      obtain hold | ⟨⟨purpose, hm⟩, -⟩ := errand?_step he
      · exact hold
      · exact absurd hm (by simp)
    | false =>
      obtain ⟨e', he', huri⟩ | ⟨-, hadmitted⟩ := errand?_step he
      · rw [← huri] at hopen
        obtain ⟨before, after, rfl, e'', he'', huri'⟩ := ih he' hopen
        exact ⟨before, after ++ [m], by simp [huri], e'', he'', huri'.trans huri⟩
      · exact absurd (hopen.symm.trans hadmitted) (by simp)

/-! ### Errands that nothing interrupts -/

/-- Every errand has a number that was not used before. -/
def Numbered (b : Busy) : Prop := ∀ e ∈ b.errands, e.number < b.count

theorem numbered_step (h : b.Numbered) (m : Move) : (b.step m).Numbered := by
  cases m with
  | hear heard =>
    rw [step]
    split <;> exact h
  | takeUp purpose uri =>
    rw [step]
    split
    · intro e he
      rcases List.mem_append.1 he with he | he
      · exact (h e he).trans (Nat.lt_succ_self _)
      · rw [List.mem_singleton.1 he]
        exact Nat.lt_succ_self _
    · exact h
  | work n act =>
    rw [step]
    split
    · next server next _ =>
      cases next with
      | some stage =>
        intro e he
        obtain ⟨e', he', rfl⟩ := List.mem_map.1 he
        split <;> exact h e' he'
      | none => exact fun e he => h e (List.mem_of_mem_filter he)
    · exact h

theorem numbered_run (flags : ClientFlags) (moves : List Move) :
    ((start flags).run moves).Numbered := by
  induction moves using List.reverseRecOn with
  | nil => exact List.forall_mem_nil _
  | append_singleton moves m ih =>
    rw [run_concat]
    exact numbered_step ih m

/-- The errand that was taken up last, with those before it. -/
def withLast (b : Busy) (s : Server) (uri : Uri) (purpose : Purpose) (stage : Stage) : Busy :=
  ⟨s, b.errands ++ [⟨b.count, uri, purpose, stage⟩], b.count + 1⟩

theorem errand?_count (h : b.Numbered) : b.errand? b.count = none :=
  List.find?_eq_none.2 fun e he => by simpa using (h e he).ne

theorem errand?_withLast (h : b.Numbered) {uri : Uri} {purpose : Purpose} {stage : Stage} :
    (b.withLast s uri purpose stage).errand? b.count = some ⟨b.count, uri, purpose, stage⟩ := by
  rw [withLast, errand?, List.find?_append, ← errand?, errand?_count h, Option.none_or,
    List.find?_singleton, if_pos (decide_eq_true rfl)]

theorem put_withLast_some (h : b.Numbered) {s' : Server} {uri : Uri} {purpose : Purpose}
    {stage stage' : Stage} :
    (b.withLast s uri purpose stage).put b.count s' (some stage')
      = b.withLast s' uri purpose stage' := by
  have hothers : (b.errands.map fun e =>
      if e.number = b.count then { e with stage := stage' } else e) = b.errands :=
    (List.map_congr_left fun e he => if_neg (h e he).ne).trans (List.map_id _)
  rw [put, withLast, withLast, List.map_append, hothers, List.map_singleton, if_pos rfl]

theorem put_withLast_none (h : b.Numbered) {s' : Server} {uri : Uri} {purpose : Purpose}
    {stage : Stage} :
    (b.withLast s uri purpose stage).put b.count s' none = ⟨s', b.errands, b.count + 1⟩ := by
  have hothers : (b.errands.filter fun e => e.number ≠ b.count) = b.errands :=
    List.filter_eq_self.2 fun e he => by simpa using (h e he).ne
  rw [put, withLast, List.filter_append, hothers]
  simp

theorem attend_of_closed {around : Surroundings} {uri : Uri} {purpose : Purpose}
    (hclosed : s.session.isOpen uri = false) : s.attend around uri purpose = s := by
  cases purpose with
  | update => rw [attend, update, if_neg (by simp [hclosed])]
  | report => rw [attend, diagnostic, if_neg (by simp [hclosed])]

theorem attend_of_open {around : Surroundings} {uri : Uri} {purpose : Purpose}
    (hopen : s.session.isOpen uri = true) :
    s.attend around uri purpose
      = (s.documentSettings around uri).2.finishErrand around uri
          (s.documentSettings around uri).1 purpose := by
  cases purpose with
  | update => rw [attend, update, if_pos hopen, finishErrand]
  | report => rw [attend, diagnostic, if_pos hopen, finishErrand]

/-- **An errand that nothing interrupts** is an update of a document, or a report on it, in
any state that is reached (`numbered_run`). -/
theorem run_undisturbed (h : b.Numbered) (hready : b.server.lifecycle = .ready)
    (around : Surroundings) (uri : Uri) (purpose : Purpose) :
    (b.run [.takeUp purpose uri, .work b.count .look, .work b.count (.reply around.configuration),
        .work b.count (.finish around)]).server = b.server.attend around uri purpose
      ∧ (b.run [.takeUp purpose uri, .work b.count .look,
        .work b.count (.reply around.configuration),
        .work b.count (.finish around)]).errands = b.errands := by
  have hadmits : b.server.admits uri purpose = b.server.session.isOpen uri := by
    cases purpose <;> simp [admits, hready]
  rw [run_cons]
  cases hopen : b.server.session.isOpen uri with
  | false =>
    have hidle (act : Act) : b.step (.work b.count act) = b :=
      step_work_of_none (by rw [errand?_count h, Option.bind_none])
    rw [show b.step (.takeUp purpose uri) = b by rw [step, if_neg (by simp [hadmits, hopen])],
      run_cons, hidle, run_cons, hidle, run_cons, hidle, run_nil, attend_of_closed hopen]
    exact ⟨rfl, rfl⟩
  | true =>
    have htaken : b.step (.takeUp purpose uri) = b.withLast b.server uri purpose .takenUp := by
      rw [step, if_pos (hadmits.trans hopen), withLast]
    have hfinish (s : Server) (settings : Settings) :
        (b.withLast s uri purpose (.settled settings)).run [.work b.count (.finish around)]
          = ⟨s.finishErrand around uri settings purpose, b.errands, b.count + 1⟩ := by
      rw [run_cons, step_work_of_some (errand?_withLast h) rfl, put_withLast_none h, run_nil]
      rfl
    rw [htaken, attend_of_open hopen, run_cons, run_cons]
    rcases hknown : b.server.knownSettings uri with ⟨_ | settings, s⟩
    · -- the settings are asked for, and the reply comes
      have hsettings : b.server.documentSettings around uri
          = (settingsOfReply around.configuration, (s.send (.askConfiguration uri)).receiveSettings
              uri (settingsOfReply around.configuration)) := by
        have hlifecycle : s.lifecycle = .ready := by
          rw [← hready, ← b.server.lifecycle_knownSettings uri, hknown]
        have hlasting : s.isOver = false := by
          rw [isOver, hlifecycle]
          rfl
        simp [documentSettings, hknown, hlasting]
      have hlook : b.server.work ⟨b.count, uri, purpose, .takenUp⟩ .look
          = some (s.send (.askConfiguration uri), some .asked) := by simp only [work, hknown]
      rw [step_work_of_some (errand?_withLast h) hlook, put_withLast_some h,
        step_work_of_some (errand?_withLast h) rfl, put_withLast_some h, hfinish, hsettings]
      exact ⟨rfl, rfl⟩
    · -- the settings are known, so no reply is waited for
      have hsettings : b.server.documentSettings around uri = (settings, s) := by
        simp only [documentSettings, hknown]
      have hlook : b.server.work ⟨b.count, uri, purpose, .takenUp⟩ .look
          = some (s, some (.settled settings)) := by simp only [work, hknown]
      rw [step_work_of_some (errand?_withLast h) hlook, put_withLast_some h,
        step_work_of_none (by rw [errand?_withLast h]; rfl), hfinish, hsettings]
      exact ⟨rfl, rfl⟩

/-! ### Replies -/

/-- An errand waits for the settings of a document. -/
def Awaits (b : Busy) (n : Nat) (u : Uri) : Prop :=
  ∃ e, b.errand? n = some e ∧ e.uri = u ∧ e.stage = .asked

/-- Some settings are those of the last reply for a document, and nothing has invalidated
them since; the moves are given before the reply and after it. -/
structure Replied (b : Busy) (u : Uri) (settings : Settings) (before : List Move) (n : Nat)
    (reply : Option (List Json)) (after : List Move) : Prop where
  awaited : (b.run before).Awaits n u
  settings : settings = settingsOfReply reply
  since : ∀ d ∈ ((b.run before).step (.work n (.reply reply))).log after,
    d.reply? u = none ∧ d.invalidates u = false

theorem Awaits.deedsOf (h : b.Awaits n u) (reply : Option (List Json)) :
    b.deedsOf (.work n (.reply reply)) = [.asked u reply] := by
  obtain ⟨⟨number, uri, purpose, stage⟩, he, rfl, rfl⟩ := h
  rw [Busy.deedsOf, he]
  rfl

theorem reply?_of_mem_deedsToHear {s : Server} {h : Heard} {d : Deed} (hd : d ∈ s.deedsToHear h) :
    d.reply? u = none := by
  have hsend (m : Message) (hd : d ∈ s.deedsToSend m) : d.reply? u = none := by
    unfold deedsToSend at hd
    split at hd
    · exact absurd hd List.not_mem_nil
    · rw [List.mem_singleton.1 hd]
      rfl
  rcases List.mem_cons.1 hd with rfl | hd
  · rfl
  · split at hd
    · rcases List.mem_append.1 hd with hd | hd
      · split at hd
        · exact hsend _ hd
        · exact absurd hd List.not_mem_nil
      · exact hsend _ hd
    · exact absurd hd List.not_mem_nil

theorem reply?_of_mem_stored (uses : List Store.Use) {d : Deed} (hd : d ∈ uses.map .stored) :
    d.reply? u = none := by
  obtain ⟨use, -, rfl⟩ := List.mem_map.1 hd
  rfl

/-- A reply for a document has come to an errand that waits for it. -/
theorem awaits_of_reply {d : Deed} {reply : Option (List Json)} (hd : d ∈ b.deedsOf m)
    (hreply : d.reply? u = some reply) : ∃ n, m = .work n (.reply reply) ∧ b.Awaits n u := by
  have hnone (hnone : d.reply? u = none) : False := absurd (hreply.symm.trans hnone) (by simp)
  cases m with
  | hear h =>
    rw [Busy.deedsOf] at hd
    split at hd
    · exact (hnone (reply?_of_mem_deedsToHear hd)).elim
    · exact absurd hd List.not_mem_nil
  | takeUp purpose uri => exact absurd hd List.not_mem_nil
  | work n act =>
    cases he : b.errand? n with
    | none =>
      rw [Busy.deedsOf, he] at hd
      exact absurd hd List.not_mem_nil
    | some e =>
      obtain ⟨number, uri, purpose, stage⟩ := e
      rw [Busy.deedsOf, he, Option.map_some, Option.getD_some] at hd
      cases stage <;> cases act
      case takenUp.look =>
        unfold deedsToWork at hd
        simp only at hd
        split at hd
        · exact (hnone (reply?_of_mem_stored [.looked uri] hd)).elim
        · exact absurd hd List.not_mem_nil
      case asked.reply reply' =>
        rw [List.mem_singleton.1 hd, Deed.reply?] at hreply
        split at hreply
        · next huri =>
          rw [Option.some.inj hreply]
          exact ⟨n, rfl, _, he, huri, rfl⟩
        · exact absurd hreply (by simp)
      case settled.finish settings around =>
        cases purpose <;> exact (hnone (reply?_of_mem_stored _ hd)).elim
      all_goals exact absurd hd List.not_mem_nil

/-- Deeds among which there is no reply tell what was known before, unless one of them
invalidates it. -/
theorem foldl_tells_eq_some_iff {deeds : List Deed} {old : Option Settings}
    (h : ∀ d ∈ deeds, d.reply? u = none) :
    deeds.foldl (Deed.tells u) old = some settings
      ↔ old = some settings ∧ ∀ d ∈ deeds, d.invalidates u = false := by
  induction deeds generalizing old with
  | nil => simp
  | cons d deeds ih =>
    obtain ⟨hd, hdeeds⟩ := List.forall_mem_cons.1 h
    rw [List.foldl_cons, ih hdeeds, Deed.tells, hd, List.forall_mem_cons]
    cases d.invalidates u <;> simp

/-- With one more move, the last reply for a document is an earlier one, which this move does
not supersede, or it comes with this move. -/
theorem replied_concat :
    (∃ before n reply after, moves ++ [m] = before ++ .work n (.reply reply) :: after
        ∧ b.Replied u settings before n reply after)
      ↔ ((∃ before n reply after, moves = before ++ .work n (.reply reply) :: after
            ∧ b.Replied u settings before n reply after)
          ∧ ∀ d ∈ (b.run moves).deedsOf m, d.reply? u = none ∧ d.invalidates u = false)
        ∨ ∃ n reply, m = .work n (.reply reply) ∧ (b.run moves).Awaits n u
          ∧ settings = settingsOfReply reply := by
  constructor
  · rintro ⟨before, n, reply, after, hmoves, hawaited, hsettings, hsince⟩
    rcases List.eq_nil_or_concat after with rfl | ⟨after, m', rfl⟩
    · obtain ⟨rfl, hm⟩ := List.append_inj' hmoves rfl
      obtain rfl := List.singleton_inj.1 hm
      exact .inr ⟨n, reply, rfl, hawaited, hsettings⟩
    · rw [List.concat_eq_append, ← List.cons_append, ← List.append_assoc] at hmoves
      obtain ⟨rfl, hm⟩ := List.append_inj' hmoves rfl
      obtain rfl := List.singleton_inj.1 hm
      rw [List.concat_eq_append, log_concat, ← run_cons, ← run_append] at hsince
      obtain ⟨hbefore, hlast⟩ := List.forall_mem_append.1 hsince
      exact .inl ⟨⟨before, n, reply, after, rfl, hawaited, hsettings, hbefore⟩, hlast⟩
  · rintro (⟨⟨before, n, reply, after, rfl, hreplied⟩, hlast⟩ | ⟨n, reply, rfl, hawaits, hsettings⟩)
    · refine ⟨before, n, reply, after ++ [m], by simp, hreplied.awaited, hreplied.settings, ?_⟩
      rw [log_concat, ← run_cons, ← run_append]
      exact List.forall_mem_append.2 ⟨hreplied.since, hlast⟩
    · exact ⟨moves, n, reply, [], rfl, hawaits, hsettings, List.forall_mem_nil _⟩

/-- **What the server was told** of the settings of a document: what was in the last
reply that came to an errand, if nothing has invalidated it since. -/
theorem told_log_iff : told u (b.log moves) = some settings
    ↔ ∃ before n reply after, moves = before ++ .work n (.reply reply) :: after
      ∧ b.Replied u settings before n reply after := by
  -- along the moves, the last one being the one that is added
  induction moves using List.reverseRecOn with
  | nil => simp [told, log]
  | append_singleton moves m ih =>
    rw [log_concat, told, List.foldl_append, ← told, replied_concat, ← ih]
    by_cases hnone : ∀ d ∈ (b.run moves).deedsOf m, d.reply? u = none
    · have hother : ¬∃ n reply, m = .work n (.reply reply) ∧ (b.run moves).Awaits n u
          ∧ settings = settingsOfReply reply := by
        rintro ⟨n, reply, rfl, hawaits, -⟩
        rw [hawaits.deedsOf] at hnone
        exact absurd (hnone _ List.mem_cons_self) (by simp [Deed.reply?])
      rw [foldl_tells_eq_some_iff hnone, or_iff_left hother]
      exact and_congr_right fun _ =>
        ⟨fun h d hd => ⟨hnone d hd, h d hd⟩, fun h d hd => (h d hd).2⟩
    · simp only [not_forall] at hnone
      obtain ⟨d, hd, hreply⟩ := hnone
      obtain ⟨reply, hreply⟩ := Option.ne_none_iff_exists'.1 hreply
      obtain ⟨n, rfl, hawaits⟩ := awaits_of_reply hd hreply
      rw [hawaits.deedsOf]
      constructor
      · intro htold
        exact .inr ⟨n, reply, rfl, hawaits, by simpa [Deed.tells, Deed.reply?] using htold.symm⟩
      · rintro (⟨-, hlast⟩ | ⟨n', reply', hm, -, rfl⟩)
        · exact absurd (hlast _ List.mem_cons_self).1 (by simp [Deed.reply?])
        · obtain ⟨-, hact⟩ := Move.work.inj hm
          rw [Act.reply.inj hact]
          simp [Deed.tells, Deed.reply?]

/-! ### Closed documents -/

/-- The settings of a document are those of a reply that came late: the document was
closed while an errand for it was under way, and was not open when the reply came. Nothing has
invalidated the settings since. -/
def CameLate (b : Busy) (moves : List Move) (u : Uri) (settings : Settings) : Prop :=
  ∃ before n reply after, moves = before ++ .work n (.reply reply) :: after
    ∧ b.Replied u settings before n reply after
    ∧ (b.run before).server.session.isOpen u = false
    ∧ ∃ earlier later, before = earlier ++ .hear (.closed u) :: later
      ∧ ∃ e, (b.run earlier).errand? n = some e ∧ e.uri = u

/-- **The settings of a closed document**, if there is room for all documents that are
looked up, are those of a reply that came late. So there are none if every reply came
before the document was closed. -/
theorem settings_of_closed_iff (flags : ClientFlags) (moves : List Move) (u : Uri)
    (settings : Settings) (hcapable : flags.configuration = true)
    (hclosed : ((start flags).run moves).server.session.isOpen u = false)
    (hroom : (lookedUp ((start flags).log moves)).card ≤ 10001) :
    (((start flags).run moves).server.session.store.settings u).1 = some settings
      ↔ (start flags).CameLate moves u settings := by
  have hminds := (start flags).minds_run moves
  have hstore : ((start flags).run moves).server.session.store
      = (Memory.start.after true ((start flags).log moves)).store := by
    have hmemory := hminds.memory
    rw [show (start flags).server.flags.configuration = true from hcapable] at hmemory
    exact congrArg Memory.store hmemory
  have hknown := (settings?_eq_told hminds.keeps hroom (Finset.Subset.refl _)).2 u
  rw [Store.settings_fst, hstore, hknown, told_log_iff]
  constructor
  · rintro ⟨before, n, reply, after, rfl, hreplied⟩
    -- a document that is open when the reply comes would still be open
    have hlate : ((start flags).run before).server.session.isOpen u = false := by
      by_contra hopen
      rw [Bool.not_eq_false] at hopen
      have hstill :
          (((start flags).run before).step (.work n (.reply reply))).server.session.isOpen u
            = true := by
        rw [Session.isOpen, document?_step fun h => by simp, ← Session.isOpen, hopen]
      rw [run_append, run_cons, isOpen_run hstill fun d hd => (hreplied.since d hd).2] at hclosed
      exact absurd hclosed (by simp)
    obtain ⟨e, he, rfl, -⟩ := hreplied.awaited
    exact ⟨before, n, reply, after, rfl, hreplied, hlate, exists_close rfl he hlate⟩
  · rintro ⟨before, n, reply, after, hmoves, hreplied, -⟩
    exact ⟨before, n, reply, after, hmoves, hreplied⟩

/-! ### A document that is closed too early

The client is asked for the settings of a document, and closes the document before it
tells them. -/

namespace Early

/-- A client that tells its settings. -/
def flags : ClientFlags := { ClientFlags.none with configuration := true }

/-- The document is closed while its update waits for the settings. -/
def conversation : List Move := [
  .hear (.opened ⟨Sample.uri, 1, "x"⟩),
  .takeUp .update Sample.uri,
  .work 0 .look,
  .hear (.closed Sample.uri),
  .work 0 (.reply Sample.around.configuration),
  .work 0 (.finish Sample.around)]

end Early

/-- The document is not open, and there is nothing to do for it; its settings are kept. -/
theorem settings_kept_after_close :
    ((start Early.flags).run Early.conversation).server.session.isOpen Sample.uri = false
      ∧ ((start Early.flags).run Early.conversation).errands.isEmpty = true
      ∧ (((start Early.flags).run Early.conversation).server.session.store.settings Sample.uri).1
        = some ⟨7⟩ := by
  decide +kernel

/-- The settings that are kept are those that came late. -/
theorem settings_of_closed_late :
    ((start Early.flags).run Early.conversation).server.session.isOpen Sample.uri = false
      ∧ (lookedUp ((start Early.flags).log Early.conversation)).card ≤ 10001
      ∧ (start Early.flags).CameLate Early.conversation Sample.uri ⟨7⟩ := by
  have hclosed :
      ((start Early.flags).run Early.conversation).server.session.isOpen Sample.uri = false := by
    decide +kernel
  have hroom : (lookedUp ((start Early.flags).log Early.conversation)).card ≤ 10001 := by
    decide +kernel
  have hkept :
      (((start Early.flags).run Early.conversation).server.session.store.settings Sample.uri).1
        = some ⟨7⟩ := by
    decide +kernel
  exact ⟨hclosed, hroom,
    (settings_of_closed_iff Early.flags Early.conversation Sample.uri ⟨7⟩ rfl hclosed hroom).1
      hkept⟩

end Busy

end Server

end ElementLens
