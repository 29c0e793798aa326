/-
What a server does.

Beside each function of the server stands the list of the deeds (`Server.Deed`)
that it does, in order: what is heard, how the store is used, when the client is
asked for settings, which documents are analysed or reported on and with which
settings, and what is sent. The log of a run (`Server.log`) has them all, with the
times at which they are done.

Only deeds change what is remembered and what was sent (`Server.Does`); and the
settings that a deed goes by are those that are remembered (`Deed.Fits`), since
the client is only asked for settings of which nothing is remembered:

* **`does_documentSettings`** — finding the settings of a document;
* **`does_turn`** — a turn, once the client has introduced itself;
* **`does_run`** — all turns.
-/
import ElementLens.Proofs.Server.Turns
import ElementLens.Proofs.Workspace.Run

namespace ElementLens

namespace Store

variable {s : Store} {uri : Uri}

/-- The settings of a document, which is not looked up for them. -/
def settings? (s : Store) (uri : Uri) : Option Settings := (s.peek? uri).bind Entry.settings

theorem settings_getD (s : Store) (uri : Uri) :
    ((s.peek? uri).getD Entry.empty).settings = s.settings? uri := by
  unfold settings?
  cases s.peek? uri <;> rfl

/-- What a look-up hands out is what is there. -/
theorem settings_fst (s : Store) (uri : Uri) : (s.settings uri).1 = s.settings? uri := by
  rw [← settings_getD]
  exact congrArg Entry.settings (s.get_fst uri Entry.empty)

theorem settings?_lookup_self (s : Store) (uri : Uri) :
    (s.lookup uri).2.settings? uri = s.settings? uri := by
  unfold settings?
  rw [show (s.lookup uri).2 = s.use uri Entry.empty from rfl, RecencyCache.peek?_use_self]
  exact settings_getD s uri

theorem settings?_setSettings_self (s : Store) (uri : Uri) (settings : Settings) :
    (s.setSettings uri settings).settings? uri = some settings := by
  have hvalue := RecencyCache.peek?_mapValue_self
    (f := fun e : Entry => { e with settings := some settings })
    (RecencyCache.peek?_use_self (c := s) uri Entry.empty)
  exact congrArg (Option.bind · Entry.settings) hvalue

/-- Whether a use of the store leaves the settings alone. -/
def Use.KeepsSettings : Use → Prop
  | looked _ | refreshed _ _ | imported _ _ => True
  | unset _ | cleared => False

end Store

namespace Server

/-- Something that a server does: it hears something; it uses the store; it asks the
client for the settings of a document and gets a reply, if one that can be used, or
cannot ask any more; it analyses a document of a session by given settings, or
reports on it; it sends something. -/
inductive Deed where
  | heard (h : Heard)
  | stored (use : Store.Use)
  | asked (uri : Uri) (reply : Option (List Json))
  | gaveUp (uri : Uri)
  | refreshed (around : Surroundings) (session : Session) (uri : Uri) (settings : Settings)
  | reported (session : Session) (uri : Uri) (settings : Settings)
  | sent (m : Message)

/-- What is remembered: the store, and the settings for clients that cannot be
asked. -/
structure Memory where
  store : Store
  settings : Settings

/-- What a server remembers. -/
def memory (s : Server) : Memory := ⟨s.session.store, s.settings⟩

/-- The settings of a document as they are remembered. A client may be capable of
telling them or not. -/
def Memory.settings? (capable : Bool) (m : Memory) (uri : Uri) : Option Settings :=
  if capable then m.store.settings? uri else some m.settings

namespace Deed

/-- What is sent. -/
def message? : Deed → Option Message
  | asked uri _ => some (.askConfiguration uri)
  | sent m => some m
  | heard _ | stored _ | gaveUp _ | refreshed _ _ _ _ | reported _ _ _ => none

/-- What is remembered after a deed. -/
def act (capable : Bool) (m : Memory) : Deed → Memory
  | heard (.closed uri) => { m with store := m.store.clearSettings uri }
  | heard (.configured change) =>
    if capable then { m with store := m.store.clear }
    else { m with settings := Settings.ofChange change }
  | heard _ | refreshed _ _ _ _ | reported _ _ _ | sent _ => m
  | stored use => { m with store := use.act m.store }
  | asked uri reply => { m with store := m.store.setSettings uri (settingsOfReply reply) }
  | gaveUp uri => { m with store := m.store.setSettings uri (settingsOfReply none) }

/-- A deed fits what is remembered. Settings are asked for if none are remembered,
and a document is analysed or reported on by those that are. -/
def Fits (capable : Bool) (m : Memory) : Deed → Prop
  | heard _ => True
  | stored use => use.KeepsSettings
  | asked uri _ | gaveUp uri => m.settings? capable uri = none
  | refreshed _ _ uri settings | reported _ uri settings =>
    m.settings? capable uri = some settings
  | sent message => ∀ uri, message ≠ .askConfiguration uri

/-- Each of some deeds fits what is remembered after those before it. -/
def AllFit (capable : Bool) (m : Memory) : List Deed → Prop
  | [] => True
  | d :: deeds => d.Fits capable m ∧ AllFit capable (d.act capable m) deeds

end Deed

/-- What is remembered after some deeds. -/
def Memory.after (capable : Bool) (m : Memory) (deeds : List Deed) : Memory :=
  deeds.foldl (Deed.act capable) m

theorem Memory.after_append {capable : Bool} {m : Memory} (deeds more : List Deed) :
    m.after capable (deeds ++ more) = (m.after capable deeds).after capable more :=
  List.foldl_append ..

theorem Deed.allFit_append {capable : Bool} {m : Memory} {deeds more : List Deed} :
    AllFit capable m (deeds ++ more)
      ↔ AllFit capable m deeds ∧ AllFit capable (m.after capable deeds) more := by
  induction deeds generalizing m with
  | nil => simp [AllFit, Memory.after]
  | cons d deeds ih => simp [AllFit, ih, and_assoc, Memory.after]

/-- A server comes to be another one by some deeds. They fit, and what the other
server remembers and has sent is due to them. -/
structure Does (s : Server) (deeds : List Deed) (s' : Server) : Prop where
  memory : s'.memory = s.memory.after s.flags.configuration deeds
  outbox : s'.outbox = (deeds.filterMap Deed.message?).reverse ++ s.outbox
  fit : Deed.AllFit s.flags.configuration s.memory deeds
  flags : s'.flags = s.flags
  begun : s'.lifecycle = .beginning → s.lifecycle = .beginning
  ended : s.lifecycle = .over → s'.lifecycle = .over

namespace Does

variable {s s' s'' : Server} {deeds more : List Deed}

theorem nil (hmemory : s'.memory = s.memory) (houtbox : s'.outbox = s.outbox)
    (hflags : s'.flags = s.flags) (hbegun : s'.lifecycle = .beginning → s.lifecycle = .beginning)
    (hover : s.lifecycle = .over → s'.lifecycle = .over) : Does s [] s' :=
  ⟨hmemory, houtbox, trivial, hflags, hbegun, hover⟩

theorem append (h : Does s deeds s') (h' : Does s' more s'') : Does s (deeds ++ more) s'' where
  memory := by rw [h'.memory, h.memory, h.flags, Memory.after_append]
  outbox := by
    rw [h'.outbox, h.outbox, List.filterMap_append, List.reverse_append, List.append_assoc]
  fit := Deed.allFit_append.2 ⟨h.fit, by rw [← h.memory, ← h.flags]; exact h'.fit⟩
  flags := h'.flags.trans h.flags
  begun := fun hs => h.begun (h'.begun hs)
  ended := fun hs => h'.ended (h.ended hs)

/-- The rest of a server does not matter. -/
theorem congr (h : Does s deeds s') (hmemory : s''.memory = s'.memory)
    (houtbox : s''.outbox = s'.outbox) (hflags : s''.flags = s'.flags)
    (hlifecycle : s''.lifecycle = s'.lifecycle) : Does s deeds s'' := by
  have hrest : Does s' [] s'' :=
    .nil hmemory houtbox hflags (hlifecycle ▸ id) fun h => hlifecycle.trans h
  simpa using h.append hrest

/-- A deed that sends nothing. -/
theorem single {d : Deed} (hfits : d.Fits s.flags.configuration s.memory)
    (hmessage : d.message? = none) (hmemory : s'.memory = d.act s.flags.configuration s.memory)
    (houtbox : s'.outbox = s.outbox) (hflags : s'.flags = s.flags)
    (hlifecycle : s'.lifecycle = s.lifecycle) : Does s [d] s' where
  memory := hmemory
  outbox := by
    rw [List.filterMap_cons_none hmessage]
    exact houtbox
  fit := ⟨hfits, trivial⟩
  flags := hflags
  begun := hlifecycle ▸ id
  ended := fun h => hlifecycle.trans h

end Does

variable {s : Server} {around : Surroundings} {uri : Uri} {settings : Settings}

/-! ### Sending and finding settings -/

/-- What is done to send a message. -/
def deedsToSend (s : Server) (m : Message) : List Deed := if s.isOver then [] else [.sent m]

theorem does_send {m : Message} (hm : ∀ uri, m ≠ .askConfiguration uri) :
    Does s (s.deedsToSend m) (s.send m) := by
  unfold deedsToSend send
  split
  · exact .nil rfl rfl rfl id id
  · exact ⟨rfl, rfl, ⟨hm, trivial⟩, rfl, id, id⟩

/-- What is done to find the settings of a document. -/
def deedsToFindSettings (s : Server) (around : Surroundings) (uri : Uri) : List Deed :=
  if s.flags.configuration then
    .stored (.looked uri) ::
      match (s.session.store.settings uri).1 with
      | some _ => []
      | none => [if s.isOver then .gaveUp uri else .asked uri around.configuration]
  else []

/-- **How the settings of a document are found.** They are remembered then. -/
theorem does_documentSettings (s : Server) (around : Surroundings) (uri : Uri) :
    Does s (s.deedsToFindSettings around uri) (s.documentSettings around uri).2
      ∧ (s.documentSettings around uri).2.memory.settings? s.flags.configuration uri
        = some (s.documentSettings around uri).1 := by
  unfold deedsToFindSettings documentSettings knownSettings
  cases hcapable : s.flags.configuration with
  | false => exact ⟨.nil rfl rfl rfl id id, rfl⟩
  | true =>
    obtain ⟨s₁, hs₁⟩ :
        ∃ s₁, s₁ = { s with session := s.session.withStore (s.session.store.lookup uri).2 } :=
      ⟨_, rfl⟩
    have hlooked : Does s [.stored (.looked uri)] s₁ := by
      rw [hs₁]
      exact .single trivial rfl rfl rfl rfl rfl
    have hfirst : s₁.memory.settings? true uri = (s.session.store.settings uri).1 := by
      rw [hs₁, Store.settings_fst]
      exact s.session.store.settings?_lookup_self uri
    have hover : s₁.isOver = s.isOver := by rw [hs₁]; rfl
    have hkept : { s with session := s.session.withStore (s.session.store.settings uri).2 } = s₁ :=
      hs₁.symm
    simp only [if_true, hkept]
    cases hknown : (s.session.store.settings uri).1 with
    | some known => exact ⟨hlooked, hfirst.trans hknown⟩
    | none =>
      rw [hknown] at hfirst
      have hcapable₁ : s₁.flags.configuration = true := by rw [hlooked.flags, hcapable]
      -- the client is asked, unless the conversation is over
      have hreceived : Does s₁ [if s.isOver then .gaveUp uri else .asked uri around.configuration]
          ((s₁.send (.askConfiguration uri)).receiveSettings uri
            (settingsOfReply (if s₁.isOver then none else around.configuration))) := by
        unfold send
        rw [hover]
        cases s.isOver with
        | true =>
          exact .single (by rw [hcapable₁]; exact hfirst) rfl rfl rfl rfl rfl
        | false =>
          exact ⟨rfl, rfl, ⟨by rw [hcapable₁]; exact hfirst, trivial⟩, rfl, id, id⟩
      refine ⟨hlooked.append hreceived, ?_⟩
      unfold Memory.settings?
      exact Store.settings?_setSettings_self _ uri _

/-! ### Updates -/

/-- Uses of the store that leave the settings alone. -/
theorem does_stored {session : Session} {uses : List Store.Use}
    (hstore : session.store = s.session.store.after uses) (hkeeps : ∀ u ∈ uses, u.KeepsSettings) :
    Does s (uses.map .stored) { s with session } := by
  have hall (m : Memory) : Deed.AllFit s.flags.configuration m (uses.map .stored)
      ∧ m.after s.flags.configuration (uses.map .stored) = ⟨m.store.after uses, m.settings⟩ := by
    clear hstore
    induction uses generalizing m with
    | nil => exact ⟨trivial, rfl⟩
    | cons u uses ih =>
      obtain ⟨hfit, hafter⟩ := ih (fun u hu => hkeeps u (List.mem_cons_of_mem _ hu))
        { m with store := u.act m.store }
      exact ⟨⟨hkeeps u List.mem_cons_self, hfit⟩, hafter⟩
  have hsilent : (uses.map Deed.stored).filterMap Deed.message? = [] := by
    simp [Deed.message?]
  exact {
    memory := by
      rw [(hall _).2]
      exact congrArg (Memory.mk · s.settings) hstore
    outbox := by rw [hsilent]; rfl
    fit := (hall _).1
    flags := rfl
    begun := id
    ended := id }

/-- What an open session does for its client, as steps of a workspace. -/
theorem does_step (s : Server) (around : Surroundings) (a : Workspace.Step)
    (hclose : ∀ uri, a ≠ .close uri) (hclear : a ≠ .clear) :
    Does s ((Workspace.usesOf around.loader ⟨s.session, around.files⟩ a).map .stored)
      { s with session := (Workspace.step around.loader ⟨s.session, around.files⟩ a).session } := by
  have hproceeds := Workspace.proceeds_step around.loader ⟨s.session, around.files⟩ a
  refine does_stored hproceeds.store fun u hu => ?_
  have hallowed := hproceeds.allowed u hu
  cases u with
  | looked uri | refreshed d r | imported d r => trivial
  | unset uri => exact absurd hallowed (hclose uri)
  | cleared => exact absurd hallowed hclear

/-- What is done to refresh a document and publish its problems. -/
def deedsToPublish (s : Server) (around : Surroundings) (uri : Uri) (settings : Settings) :
    List Deed :=
  .refreshed around s.session uri settings ::
    (Workspace.usesToRefresh around.loader ⟨s.session, around.files⟩ uri settings).map .stored
    ++ match (s.session.refresh around.loader around.files uri settings).1 with
      | none => []
      | some found => s.deedsToSend (.publish uri found)

theorem does_publish (hsettings : s.memory.settings? s.flags.configuration uri = some settings) :
    Does s (s.deedsToPublish around uri settings) (s.publish around uri settings) := by
  have hbegin : Does s [.refreshed around s.session uri settings] s :=
    .single hsettings rfl rfl rfl rfl rfl
  have hstep := hbegin.append
    (s.does_step around (.refresh uri settings) (fun _ => by simp) (by simp))
  unfold deedsToPublish publish
  simp only [Workspace.step, Workspace.usesOf, List.singleton_append] at hstep
  rcases hrefresh : s.session.refresh around.loader around.files uri settings with ⟨found, session⟩
  rw [hrefresh] at hstep
  cases found with
  | none => simpa using hstep
  | some found => exact hstep.append (does_send (s := { s with session }) fun uri => by simp)

/-- What is done to update a document. -/
def deedsToUpdate (s : Server) (around : Surroundings) (uri : Uri) : List Deed :=
  if s.session.isOpen uri then
    let (settings, s') := s.documentSettings around uri
    s.deedsToFindSettings around uri ++ s'.deedsToPublish around uri settings
  else []

theorem does_update (s : Server) (around : Surroundings) (uri : Uri) :
    Does s (s.deedsToUpdate around uri) (s.update around uri) := by
  unfold deedsToUpdate update
  split
  · obtain ⟨hfind, hsettings⟩ := s.does_documentSettings around uri
    rw [← hfind.flags] at hsettings
    exact hfind.append (does_publish hsettings)
  · exact .nil rfl rfl rfl id id

/-- The server when the time of an alarm has come, and whether the alarm is the
newest one of its document. -/
def awaken (s : Server) (alarm : Alarm) : Server :=
  { s with
    clock := max s.clock alarm.due
    debouncer := (s.debouncer.wake alarm.generation).enter alarm.generation }

/-- What is done when the time of an alarm has come. -/
def deedsToRing (around : Surroundings) (s : Server) (alarm : Alarm) : List (Nat × Deed) :=
  let s := s.awaken alarm
  if s.debouncer.isRunning alarm.generation then
    (s.deedsToUpdate around alarm.uri).map fun d => (s.clock, d)
  else []

theorem ring_eq (s : Server) (around : Surroundings) (alarm : Alarm) :
    ring around s alarm =
      if (s.awaken alarm).debouncer.isRunning alarm.generation then
        { (s.awaken alarm).update around alarm.uri with
          debouncer :=
            ((s.awaken alarm).update around alarm.uri).debouncer.finish alarm.generation }
      else s.awaken alarm := rfl

theorem map_snd_deeds (time : Nat) (deeds : List Deed) :
    (deeds.map fun d => (time, d)).map Prod.snd = deeds := by
  rw [List.map_map]
  exact List.map_id _

theorem does_ring (s : Server) (around : Surroundings) (alarm : Alarm) :
    Does s ((deedsToRing around s alarm).map Prod.snd) (ring around s alarm) := by
  have hawake : Does s [] (s.awaken alarm) := .nil rfl rfl rfl id id
  rw [ring_eq]
  unfold deedsToRing
  simp only
  split
  · rw [map_snd_deeds]
    exact (hawake.append (does_update _ around alarm.uri)).congr rfl rfl rfl rfl
  · exact hawake

/-- What is done when the time of one alarm after the other has come. -/
def deedsToRingAll (around : Surroundings) (s : Server) : List Alarm → List (Nat × Deed)
  | [] => []
  | alarm :: alarms =>
    deedsToRing around s alarm ++ deedsToRingAll around (ring around s alarm) alarms

theorem does_ringAll (s : Server) (around : Surroundings) (alarms : List Alarm) :
    Does s ((deedsToRingAll around s alarms).map Prod.snd) (alarms.foldl (ring around) s) := by
  induction alarms generalizing s with
  | nil => exact .nil rfl rfl rfl id id
  | cons alarm alarms ih =>
    rw [deedsToRingAll, List.map_append]
    exact (s.does_ring around alarm).append (ih _)

/-- The alarms that are due by some time. -/
def dueBy (s : Server) (stop : Nat) : List Alarm := s.alarms.takeWhile fun a => a.due ≤ stop

/-- The server without the alarms that are due by some time. -/
def without (s : Server) (stop : Nat) : Server :=
  { s with alarms := s.alarms.drop (s.dueBy stop).length }

/-- What is done while time passes. -/
def deedsToPass (s : Server) (around : Surroundings) (milliseconds : Nat) : List (Nat × Deed) :=
  let stop := s.clock + milliseconds
  deedsToRingAll around (s.without stop) (s.dueBy stop)

theorem pass_eq (s : Server) (around : Surroundings) (milliseconds : Nat) :
    s.pass around milliseconds =
      { (s.dueBy (s.clock + milliseconds)).foldl (ring around)
          (s.without (s.clock + milliseconds)) with
        clock := s.clock + milliseconds } := rfl

theorem does_pass (s : Server) (around : Surroundings) (milliseconds : Nat) :
    Does s ((s.deedsToPass around milliseconds).map Prod.snd) (s.pass around milliseconds) := by
  have hbegin : Does s [] (s.without (s.clock + milliseconds)) := .nil rfl rfl rfl id id
  exact (hbegin.append (does_ringAll _ around _)).congr rfl rfl rfl rfl

/-! ### Questions and notices -/

/-- What is done to look up the answer to a question. -/
def deedsToLookUp (s : Server) (around : Surroundings) : Query → List Deed
  | .definition uri p =>
    (Workspace.usesOf around.loader ⟨s.session, around.files⟩ (.definition uri p false)).map .stored
  | .hover uri p =>
    (Workspace.usesOf around.loader ⟨s.session, around.files⟩ (.hover uri p false)).map .stored
  | .diagnostic uri =>
    if s.session.isOpen uri then
      let (settings, s') := s.documentSettings around uri
      s.deedsToFindSettings around uri ++ .reported s'.session uri settings ::
        (s'.session.store.usesToDiagnose uri settings).map .stored
    else []

theorem does_lookUp (s : Server) (around : Surroundings) (q : Query) :
    Does s (s.deedsToLookUp around q) (s.lookUp around q) := by
  cases q with
  | definition uri p =>
    exact s.does_step around (.definition uri p false) (fun _ => by simp) (by simp)
  | hover uri p => exact s.does_step around (.hover uri p false) (fun _ => by simp) (by simp)
  | diagnostic uri =>
    unfold deedsToLookUp lookUp diagnostic
    simp only
    split
    · obtain ⟨hfind, hsettings⟩ := s.does_documentSettings around uri
      rw [← hfind.flags] at hsettings
      obtain ⟨s', hs'⟩ : ∃ s', s' = (s.documentSettings around uri).2 := ⟨_, rfl⟩
      rw [← hs'] at hfind hsettings
      have hreport : Does s' [.reported s'.session uri (s.documentSettings around uri).1] s' :=
        .single hsettings rfl rfl rfl rfl rfl
      have hstep := s'.does_step around (.diagnostics uri (s.documentSettings around uri).1)
        (fun _ => by simp) (by simp)
      exact hs' ▸ hfind.append (hreport.append hstep)
    · exact .nil rfl rfl rfl id id

/-- What is done when something is heard. -/
def deedsToHear (s : Server) (h : Heard) : List Deed :=
  .heard h ::
    match h with
    | .ready =>
      (if s.flags.configuration then s.deedsToSend .registerForConfiguration else [])
        ++ s.deedsToSend (.log "XElement Language Server initialized")
    | _ => []

/-- Asking for updates does nothing yet. -/
theorem does_scheduleAll (s : Server) (uris : List Uri) :
    Does s [] (uris.foldl scheduleUpdate s) := by
  induction uris generalizing s with
  | nil => exact .nil rfl rfl rfl id id
  | cons uri uris ih =>
    have hone : Does s [] (s.scheduleUpdate uri) := .nil rfl rfl rfl id id
    exact hone.append (ih _)

theorem does_absorb (hready : s.lifecycle = .ready) (h : Heard) :
    Does s (s.deedsToHear h) (s.absorb h) := by
  cases h with
  | ready =>
    have hheard : Does s [.heard .ready] s := .single trivial rfl rfl rfl rfl rfl
    have hregister : Does s
        (if s.flags.configuration then s.deedsToSend .registerForConfiguration else [])
        (if s.flags.configuration then s.send .registerForConfiguration else s) := by
      split
      · exact does_send fun _ => by simp
      · exact .nil rfl rfl rfl id id
    have hopen : (if s.flags.configuration then s.send .registerForConfiguration else s).isOver
        = s.isOver := by
      unfold send
      split
      · split <;> rfl
      · rfl
    have hlog := does_send (s := if s.flags.configuration then s.send .registerForConfiguration
      else s) (m := .log "XElement Language Server initialized") fun _ => by simp
    unfold deedsToSend at hlog
    rw [hopen] at hlog
    exact hheard.append (hregister.append hlog)
  | opened | changed | closed | activated => exact .single trivial rfl rfl rfl rfl rfl
  | configured change =>
    unfold absorb
    cases hcapable : s.flags.configuration with
    | true => exact .single trivial rfl (by rw [hcapable]; rfl) rfl rfl rfl
    | false => exact .single trivial rfl (by rw [hcapable]; rfl) rfl rfl rfl
  | shutDown =>
    exact ⟨rfl, rfl, ⟨trivial, trivial⟩, rfl, fun h => absurd h (by simp [absorb]),
      fun h => absurd (hready.symm.trans h) (by simp)⟩

theorem does_hear (hready : s.lifecycle = .ready) (h : Heard) :
    Does s (s.deedsToHear h) (s.hear h) := by
  rw [hear_eq, ← List.append_nil (s.deedsToHear h)]
  exact (does_absorb hready h).append (does_scheduleAll _ _)

/-! ### Turns -/

/-- What is done in a turn, with the times at which it is done. -/
def deedsOf (s : Server) (around : Surroundings) : Turn → List (Nat × Deed)
  | .request method params =>
    match s.query? method params with
    | none => []
    | some q => (s.deedsToLookUp around q).map fun d => (s.clock, d)
  | .notice method params =>
    match s.heard? method params with
    | none => []
    | some h => (s.deedsToHear h).map fun d => (s.clock, d)
  | .pass milliseconds => s.deedsToPass around milliseconds

/-- What is done in some turns, with the times at which it is done. -/
def log (s : Server) : List (Surroundings × Turn) → List (Nat × Deed)
  | [] => []
  | (around, t) :: turns => s.deedsOf around t ++ (s.turn around t).log turns

theorem log_concat (s : Server) (turns : List (Surroundings × Turn)) (around : Surroundings)
    (t : Turn) : s.log (turns ++ [(around, t)]) = s.log turns ++ (s.run turns).deedsOf around t := by
  induction turns generalizing s with
  | nil => exact List.append_nil _
  | cons turn turns ih =>
    rw [List.cons_append, log, log, ih, List.append_assoc]
    rfl

theorem ready_of_query {method : String} {params : Option Json} {q : Query}
    (hq : s.query? method params = some q) : s.lifecycle = .ready := by
  unfold query? at hq
  split at hq
  · assumption
  · exact absurd hq (by simp)

theorem ready_of_heard {method : String} {params : Option Json} {h : Heard}
    (hheard : s.heard? method params = some h) : s.lifecycle = .ready := by
  unfold heard? at hheard
  split at hheard
  · assumption
  · exact absurd hheard (by simp)

/-- What happens in a turn: a question is looked up, or something is heard, while the
conversation lasts; time passes; or nothing is done. -/
inductive Goes (s : Server) (around : Surroundings) : List (Nat × Deed) → Server → Prop
  | looks (q : Query) (hready : s.lifecycle = .ready) :
    Goes s around ((s.deedsToLookUp around q).map fun d => (s.clock, d)) (s.lookUp around q)
  | hears (h : Heard) (hready : s.lifecycle = .ready) :
    Goes s around ((s.deedsToHear h).map fun d => (s.clock, d)) (s.hear h)
  | passes (milliseconds : Nat) :
    Goes s around (s.deedsToPass around milliseconds) (s.pass around milliseconds)
  | converses (s' : Server) (h : Converses s s') : Goes s around [] s'

theorem goes_turn (s : Server) (around : Surroundings) (t : Turn) :
    s.Goes around (s.deedsOf around t) (s.turn around t) := by
  cases t with
  | request method params =>
    obtain ⟨q, hq, heq⟩ | ⟨hnone, hconverses⟩ := s.request_cases around method params
    · simp only [deedsOf, turn, hq, heq]
      exact .looks q (ready_of_query hq)
    · simp only [deedsOf, turn, hnone]
      exact .converses _ hconverses
  | notice method params =>
    obtain ⟨h, hheard, heq⟩ | ⟨hnone, hconverses⟩ := s.notice_eq method params
    · simp only [deedsOf, turn, hheard, heq]
      exact .hears h (ready_of_heard hheard)
    · simp only [deedsOf, turn, hnone]
      exact .converses _ hconverses
  | pass milliseconds => exact .passes milliseconds

/-- **What is done in a turn**, once the client has introduced itself. -/
theorem does_turn (hbegun : s.lifecycle ≠ .beginning) (around : Surroundings) (t : Turn) :
    Does s ((s.deedsOf around t).map Prod.snd) (s.turn around t) := by
  have hgoes := s.goes_turn around t
  generalize s.deedsOf around t = deeds, s.turn around t = s' at hgoes ⊢
  cases hgoes with
  | looks q hready => rw [map_snd_deeds]; exact s.does_lookUp around q
  | hears h hready => rw [map_snd_deeds]; exact does_hear hready h
  | passes milliseconds => exact s.does_pass around milliseconds
  | converses _ h =>
    exact .nil (by rw [h.rest]; rfl) (by rw [h.rest]) (h.flags hbegun) h.begun h.ended

/-- Until the client introduces itself nothing is done. -/
theorem Goes.of_beginning {flags : ClientFlags} {clock : Nat} {deeds : List (Nat × Deed)}
    {s' : Server} (h : Goes { start with flags, clock } around deeds s') :
    deeds = [] ∧ s' = { start with
      lifecycle := s'.lifecycle
      flags := s'.flags
      clock := s'.clock } := by
  cases h with
  | looks q hready => exact absurd hready (by simp [start])
  | hears h hready => exact absurd hready (by simp [start])
  | passes milliseconds => exact ⟨rfl, rfl⟩
  | converses _ h => exact ⟨rfl, h.rest.trans (by rw [h.rest])⟩

/-- A client that has not introduced itself has made the server do nothing. -/
theorem run_beginning {turns : List (Surroundings × Turn)}
    (hbeginning : (start.run turns).lifecycle = .beginning) :
    start.log turns = [] ∧ ∃ flags clock, start.run turns = { start with flags, clock } := by
  induction turns using List.reverseRecOn with
  | nil => exact ⟨rfl, start.flags, start.clock, rfl⟩
  | append_singleton turns turn ih =>
    obtain ⟨around, t⟩ := turn
    rw [run_concat] at hbeginning ⊢
    have hbegun : (start.run turns).lifecycle = .beginning := by
      by_contra hbegun
      exact hbegun ((does_turn hbegun around t).begun hbeginning)
    obtain ⟨hlog, flags, clock, hrun⟩ := ih hbegun
    have hgoes := (start.run turns).goes_turn around t
    rw [log_concat, hlog, List.nil_append]
    generalize (start.run turns).deedsOf around t = deeds,
      (start.run turns).turn around t = s' at hgoes hbeginning ⊢
    rw [hrun] at hgoes
    obtain ⟨hdeeds, hs'⟩ := hgoes.of_beginning
    exact ⟨hdeeds, s'.flags, s'.clock, hs'.trans (by rw [hbeginning]; rfl)⟩

/-- **What is done in all turns**, as if it had been known from the start what the
client is capable of. -/
theorem does_run (turns : List (Surroundings × Turn)) :
    Does { start with flags := (start.run turns).flags } ((start.log turns).map Prod.snd)
      (start.run turns) := by
  induction turns using List.reverseRecOn with
  | nil => exact .nil rfl rfl rfl id id
  | append_singleton turns turn ih =>
    obtain ⟨around, t⟩ := turn
    rw [log_concat, run_concat, List.map_append]
    by_cases hbegun : (start.run turns).lifecycle = .beginning
    · obtain ⟨hlog, flags, clock, hrun⟩ := run_beginning hbegun
      have hgoes := (start.run turns).goes_turn around t
      rw [hlog]
      generalize (start.run turns).deedsOf around t = deeds,
        (start.run turns).turn around t = s' at hgoes ⊢
      rw [hrun] at hgoes
      obtain ⟨rfl, hs'⟩ := hgoes.of_beginning
      exact .nil (by rw [hs']; rfl) (by rw [hs']) rfl (fun _ => rfl)
        fun h => absurd h (by simp [start])
    · have hturn := does_turn hbegun around t
      rw [hturn.flags]
      exact ih.append hturn

/-- What was sent in all turns, in order. -/
theorem outbox_run (turns : List (Surroundings × Turn)) :
    (start.run turns).outbox.reverse
      = ((start.log turns).map Prod.snd).filterMap Deed.message? := by
  have houtbox := (does_run turns).outbox
  rw [houtbox, List.reverse_append, List.reverse_reverse]
  exact List.nil_append _

end Server

end ElementLens
