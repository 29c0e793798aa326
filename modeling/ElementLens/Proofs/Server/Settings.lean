/-
The settings that a document is looked at by.

A client that is capable of telling its settings is asked for those of a document
when they are needed and not remembered. They are remembered until the document is
closed or the client says that its settings have changed, and as long as the store
has room. So the settings in force (`Server.InForce`) are those of its last reply,
which it gave since then; a client that cannot be asked says what its settings are
when they change.

* **`inForce_of_pass`** — every analysis and every report goes by the settings in
  force, however many documents there are;
* **`count_asked_le_one`** — and the client is not asked twice for what it has said, if
  the store has room for all documents.
-/
import ElementLens.Proofs.Server.Log

namespace ElementLens

namespace Server

open RecencyCache (Within Puts)

namespace Deed

/-- The reply to a request for the settings of a document. There is none if the
client cannot be asked any more. -/
def reply? (u : Uri) : Deed → Option (Option (List Json))
  | asked v reply => if v = u then some reply else none
  | gaveUp v => if v = u then some none else none
  | heard _ | stored _ | refreshed _ _ _ _ | reported _ _ _ | sent _ => none

/-- Whether the settings of a document may be other ones from then on: it is closed,
or settings have changed. -/
def invalidates (u : Uri) : Deed → Bool
  | heard (.closed v) => v = u
  | heard (.configured _) => true
  | heard _ | stored _ | asked _ _ | gaveUp _ | refreshed _ _ _ _ | reported _ _ _ | sent _ => false

/-- The document that is looked up. -/
def uri? : Deed → Option Uri
  | stored use => use.uri?
  | heard (.closed u) | asked u _ | gaveUp u => some u
  | heard _ | refreshed _ _ _ _ | reported _ _ _ | sent _ => none

/-- The document that is analysed or reported on, and the settings. -/
def pass? : Deed → Option (Uri × Settings)
  | refreshed _ _ u settings | reported _ u settings => some (u, settings)
  | heard _ | stored _ | asked _ _ | gaveUp _ | sent _ => none

/-- The settings in a notice of changed settings. -/
def configured? : Deed → Option Settings
  | heard (.configured change) => some (Settings.ofChange change)
  | heard _ | stored _ | asked _ _ | gaveUp _ | refreshed _ _ _ _ | reported _ _ _ | sent _ => none

end Deed

/-- Some settings are those of the last reply for a document, and nothing has
invalidated them since. -/
def Answered (u : Uri) (deeds : List Deed) (settings : Settings) : Prop :=
  ∃ before d reply since, deeds = before ++ d :: since ∧ d.reply? u = some reply
    ∧ (∀ e ∈ since, e.reply? u = none ∧ e.invalidates u = false)
    ∧ settings = settingsOfReply reply

/-- The settings that a client has said last, or the usual ones. -/
def lastConfigured (deeds : List Deed) : Settings :=
  (deeds.filterMap Deed.configured?).getLast?.getD .standard

example : lastConfigured [] = ⟨100⟩ := rfl

/-- Some settings are in force for a document. -/
def InForce (capable : Bool) (u : Uri) (deeds : List Deed) (settings : Settings) : Prop :=
  if capable then Answered u deeds settings else settings = lastConfigured deeds

/-- The documents that are looked up. -/
def lookedUp (deeds : List Deed) : Finset Uri := (deeds.filterMap Deed.uri?).toFinset

variable {u v : Uri} {d : Deed} {deeds before between after : List Deed} {m : Memory}
  {settings : Settings} {few : Finset Uri} {capable : Bool}

/-! ### Replies -/

/-- What is known of the settings of a document after a deed, going by replies. -/
def Deed.tells (u : Uri) (old : Option Settings) (d : Deed) : Option Settings :=
  match d.reply? u with
  | some reply => some (settingsOfReply reply)
  | none => if d.invalidates u then none else old

theorem Deed.tells_mono {old old' : Option Settings}
    (h : ∀ settings, old = some settings → old' = some settings)
    (hd : d.tells u old = some settings) : d.tells u old' = some settings := by
  unfold tells at hd ⊢
  cases hreply : d.reply? u with
  | some reply => simpa [hreply] using hd
  | none =>
    rw [hreply] at hd
    cases hkept : d.invalidates u with
    | true => simp [hkept] at hd
    | false => exact h settings (by simpa [hkept] using hd)

/-- What is known of the settings of a document after some deeds. -/
def told (u : Uri) (deeds : List Deed) : Option Settings := deeds.foldl (Deed.tells u) none

theorem told_concat : told u (deeds ++ [d]) = d.tells u (told u deeds) :=
  List.foldl_append ..

theorem Answered.concat (h : Answered u deeds settings) (hreply : d.reply? u = none)
    (hkept : d.invalidates u = false) : Answered u (deeds ++ [d]) settings := by
  obtain ⟨before, d', reply, since, rfl, hd', hsince, hsettings⟩ := h
  refine ⟨before, d', reply, since ++ [d], by simp, hd', ?_, hsettings⟩
  intro e he
  rcases List.mem_append.1 he with he | he
  · exact hsince e he
  · rw [List.mem_singleton.1 he]
    exact ⟨hreply, hkept⟩

theorem answered_of_told (h : told u deeds = some settings) : Answered u deeds settings := by
  induction deeds using List.reverseRecOn with
  | nil => exact absurd h (by simp [told])
  | append_singleton deeds d ih =>
    rw [told_concat, Deed.tells] at h
    cases hreply : d.reply? u with
    | some reply =>
      rw [hreply] at h
      exact ⟨deeds, d, reply, [], rfl, hreply, by simp, (Option.some.inj h).symm⟩
    | none =>
      rw [hreply] at h
      cases hkept : d.invalidates u with
      | true => simp [hkept] at h
      | false => exact (ih (by simpa [hkept] using h)).concat hreply hkept

namespace Deed

/-- Whether the settings in the store are only changed by what is heard and by replies. -/
def Keeps : Deed → Prop
  | stored use => use.KeepsSettings
  | heard _ | asked _ _ | gaveUp _ | refreshed _ _ _ _ | reported _ _ _ | sent _ => True

theorem Fits.keeps (h : d.Fits capable m) : d.Keeps := by
  cases d with
  | stored use => exact h
  | _ => trivial

theorem keeps_of_allFit (h : AllFit capable m deeds) : ∀ d ∈ deeds, d.Keeps := by
  induction deeds generalizing m with
  | nil => exact List.forall_mem_nil _
  | cons d deeds ih => exact List.forall_mem_cons.2 ⟨h.1.keeps, ih h.2⟩

/-- A deed that looks a document up leaves the settings in the store that it tells, and
tells nothing of other documents. -/
theorem puts (h : m.store.Linked) (hkeeps : d.Keeps) (hu : d.uri? = some u) :
    (∃ e, Puts m.store u e (d.act true m).store
        ∧ e.settings = d.tells u (m.store.settings? u))
      ∧ ∀ v ≠ u, ∀ old, d.tells v old = old := by
  cases d with
  | heard heard =>
    cases heard with
    | closed v =>
      obtain rfl := Option.some.inj hu
      refine ⟨⟨_, h.puts_modify v Entry.empty fun e => { e with settings := none }, ?_⟩, ?_⟩
      · simp [tells, reply?, invalidates]
      · intro w hw old
        simp [tells, reply?, invalidates, hw.symm]
    | ready | opened | changed | configured | activated | shutDown => exact absurd hu (by simp [uri?])
  | stored use =>
    refine ⟨?_, fun w _ old => rfl⟩
    cases use with
    | looked v =>
      obtain rfl := Option.some.inj hu
      exact ⟨_, h.puts_use v Entry.empty, m.store.settings_getD v⟩
    | refreshed document r | imported document r =>
      obtain rfl := Option.some.inj hu
      exact ⟨_, h.puts_modify document.uri Entry.empty fun e => { e with analysis := some r },
        m.store.settings_getD document.uri⟩
    | unset | cleared => exact hkeeps.elim
  | asked v reply =>
    obtain rfl := Option.some.inj hu
    refine ⟨⟨_, h.puts_modify v Entry.empty
      fun e => { e with settings := some (settingsOfReply reply) }, ?_⟩, ?_⟩
    · simp [tells, reply?]
    · intro w hw old
      simp [tells, reply?, invalidates, hw.symm]
  | gaveUp v =>
    obtain rfl := Option.some.inj hu
    refine ⟨⟨_, h.puts_modify v Entry.empty
      fun e => { e with settings := some (settingsOfReply none) }, ?_⟩, ?_⟩
    · simp [tells, reply?]
    · intro w hw old
      simp [tells, reply?, invalidates, hw.symm]
  | refreshed | reported | sent => exact absurd hu (by simp [uri?])

/-- A deed that looks no document up tells nothing and leaves the store alone, or
everything is forgotten. -/
theorem keeps_or_clears (hkeeps : d.Keeps) (hu : d.uri? = none) :
    ((d.act true m).store = m.store ∧ ∀ v old, d.tells v old = old)
      ∨ (d.act true m).store = m.store.clear ∧ ∀ v old, d.tells v old = none := by
  cases d with
  | heard heard =>
    cases heard with
    | closed v => exact absurd hu (by simp [uri?])
    | configured change => exact .inr ⟨rfl, fun _ _ => rfl⟩
    | ready | opened | changed | activated | shutDown => exact .inl ⟨rfl, fun _ _ => rfl⟩
  | stored use =>
    cases use with
    | unset | cleared => exact hkeeps.elim
    | looked | refreshed | imported => exact absurd hu (by simp [uri?, Store.Use.uri?])
  | asked | gaveUp => exact absurd hu (by simp [uri?])
  | refreshed | reported | sent => exact .inl ⟨rfl, fun _ _ => rfl⟩

theorem settings?_clear (s : Store) (u : Uri) : Store.settings? s.clear u = none := by
  rw [Store.settings?, (RecencyCache.Linked.clear s).peek?_eq_none List.not_mem_nil]
  rfl

theorem settings?_of_puts {s s' : Store} {e : Entry} (h : Puts s u e s') :
    s'.settings? u = e.settings := by
  rw [Store.settings?, h.value]
  rfl

theorem linked_act (h : m.store.Linked) (hkeeps : d.Keeps) :
    (d.act true m).store.Linked ∧ (d.act true m).store.capacity = m.store.capacity := by
  cases hu : d.uri? with
  | some u =>
    obtain ⟨⟨e, hputs, -⟩, -⟩ := puts h hkeeps hu
    exact ⟨hputs.linked, hputs.capacity⟩
  | none =>
    obtain ⟨hstore, -⟩ | ⟨hstore, -⟩ := keeps_or_clears hkeeps hu
    · rw [hstore]
      exact ⟨h, rfl⟩
    · rw [hstore]
      exact ⟨.clear _, rfl⟩

/-- What the store knows of a document after a deed was told. It may have been
forgotten. -/
theorem tells_of_settings? (h : m.store.Linked) (hkeeps : d.Keeps)
    (hv : (d.act true m).store.settings? v = some settings) :
    d.tells v (m.store.settings? v) = some settings := by
  cases hu : d.uri? with
  | some u =>
    obtain ⟨⟨e, hputs, he⟩, hothers⟩ := puts h hkeeps hu
    by_cases hvu : v = u
    · rw [hvu] at hv ⊢
      rw [← he, ← settings?_of_puts hputs, hv]
    · rw [hothers v hvu]
      by_cases hmem : v ∈ (d.act true m).store.keys
      · rw [Store.settings?, ← hputs.others v hmem hvu]
        exact hv
      · rw [Store.settings?, hputs.linked.peek?_eq_none hmem] at hv
        exact absurd hv (by simp)
  | none =>
    obtain ⟨hstore, htells⟩ | ⟨hstore, -⟩ := keeps_or_clears hkeeps hu
    · rw [htells, ← hstore, hv]
    · rw [hstore, settings?_clear] at hv
      exact absurd hv (by simp)

/-- If few documents are looked up at all, nothing is forgotten. -/
theorem settings?_act (h : m.store.Linked) (hroom : few.card ≤ m.store.capacity + 1)
    (hkeeps : d.Keeps) (hu : ∀ u, d.uri? = some u → u ∈ few) (hwithin : Within few m.store) :
    Within few (d.act true m).store
      ∧ ∀ v, (d.act true m).store.settings? v = d.tells v (m.store.settings? v) := by
  cases huri : d.uri? with
  | some u =>
    obtain ⟨⟨e, hputs, he⟩, hothers⟩ := puts h hkeeps huri
    refine ⟨hputs.within (hu u huri) hwithin, fun v => ?_⟩
    by_cases hvu : v = u
    · rw [hvu, settings?_of_puts hputs, he]
    · rw [hothers v hvu, Store.settings?, Store.settings?,
        hputs.peek?_within h hroom (hu u huri) hwithin hvu]
  | none =>
    obtain ⟨hstore, htells⟩ | ⟨hstore, htells⟩ := keeps_or_clears hkeeps huri
    · rw [hstore]
      exact ⟨hwithin, fun v => (htells v _).symm⟩
    · rw [hstore]
      exact ⟨fun k hk => absurd hk List.not_mem_nil, fun v => by rw [htells, settings?_clear]⟩

end Deed

/-- What is remembered at the beginning. -/
def Memory.start : Memory := ⟨Store.empty Store.standardCapacity, .standard⟩

theorem settings?_start (u : Uri) : Memory.start.store.settings? u = none := rfl

theorem Memory.after_concat : m.after capable (deeds ++ [d]) = d.act capable (m.after capable deeds) :=
  List.foldl_append ..

/-- The store knows what was told, as far as it has not forgotten it. -/
theorem told_of_settings? (h : ∀ d ∈ deeds, d.Keeps) :
    (Memory.start.after true deeds).store.Linked
      ∧ (Memory.start.after true deeds).store.capacity = Store.standardCapacity
      ∧ ∀ v settings, (Memory.start.after true deeds).store.settings? v = some settings →
        told v deeds = some settings := by
  induction deeds using List.reverseRecOn with
  | nil => exact ⟨.empty _, rfl, fun v settings hv =>
      absurd ((settings?_start v).symm.trans hv) (by simp)⟩
  | append_singleton deeds d ih =>
    obtain ⟨hdeeds, hd⟩ := List.forall_mem_append.1 h
    have hkeeps := hd d List.mem_cons_self
    obtain ⟨hlinked, hcapacity, htold⟩ := ih hdeeds
    rw [Memory.after_concat]
    obtain ⟨hlinked', hcapacity'⟩ := Deed.linked_act hlinked hkeeps
    refine ⟨hlinked', hcapacity'.trans hcapacity, fun v settings hv => ?_⟩
    rw [told_concat]
    exact Deed.tells_mono (htold v) (Deed.tells_of_settings? hlinked hkeeps hv)

/-- If few documents are looked up at all, the store knows all that was told. -/
theorem settings?_eq_told (h : ∀ d ∈ deeds, d.Keeps)
    (hroom : few.card ≤ Store.standardCapacity + 1) (hfew : lookedUp deeds ⊆ few) :
    Within few (Memory.start.after true deeds).store
      ∧ ∀ v, (Memory.start.after true deeds).store.settings? v = told v deeds := by
  induction deeds using List.reverseRecOn with
  | nil => exact ⟨fun k hk => absurd hk List.not_mem_nil, fun v => settings?_start v⟩
  | append_singleton deeds d ih =>
    obtain ⟨hdeeds, hd⟩ := List.forall_mem_append.1 h
    obtain ⟨hlinked, hcapacity, -⟩ := told_of_settings? hdeeds
    have hmem : ∀ u, d.uri? = some u → u ∈ few := by
      intro u hu
      refine hfew (List.mem_toFinset.2 (List.mem_filterMap.2 ⟨d, ?_, hu⟩))
      exact List.mem_append_right _ List.mem_cons_self
    obtain ⟨hwithin, htold⟩ := ih hdeeds fun u hu => hfew <| by
      rw [lookedUp, List.filterMap_append, List.toFinset_append]
      exact Finset.mem_union_left _ hu
    obtain ⟨hwithin', hact⟩ := Deed.settings?_act hlinked (by rw [hcapacity]; exact hroom)
      (hd d List.mem_cons_self) hmem hwithin
    rw [Memory.after_concat]
    refine ⟨hwithin', fun v => ?_⟩
    rw [told_concat, hact, htold]

/-- A client that cannot be asked has said the settings that are remembered. -/
theorem settings_eq_lastConfigured (deeds : List Deed) :
    (Memory.start.after false deeds).settings = lastConfigured deeds := by
  induction deeds using List.reverseRecOn with
  | nil => rfl
  | append_singleton deeds d ih =>
    rw [Memory.after_concat, lastConfigured, List.filterMap_append]
    cases hconfigured : d.configured? with
    | some settings =>
      rw [List.filterMap_cons_some hconfigured, List.filterMap_nil, List.getLast?_concat]
      cases d with
      | heard heard =>
        cases heard with
        | configured change => exact Option.some.inj hconfigured
        | _ => exact absurd hconfigured (by simp [Deed.configured?])
      | _ => exact absurd hconfigured (by simp [Deed.configured?])
    | none =>
      rw [List.filterMap_cons_none hconfigured, List.filterMap_nil, List.append_nil]
      refine Eq.trans ?_ ih
      cases d with
      | heard heard =>
        cases heard with
        | configured change => exact absurd hconfigured (by simp [Deed.configured?])
        | _ => rfl
      | _ => rfl

/-! ### Settings in force -/

/-- A deed in the midst of others fits what is remembered after those before it. -/
theorem fits_of_split (h : Deed.AllFit capable m deeds) (hdeeds : deeds = before ++ d :: after) :
    Deed.AllFit capable m before ∧ d.Fits capable (m.after capable before) := by
  rw [hdeeds] at h
  obtain ⟨hbefore, hd, -⟩ := Deed.allFit_append.1 h
  exact ⟨hbefore, hd⟩

/-- **Settings in force.** Whoever is analysed or reported on, it is by the settings in
force. -/
theorem inForce_of_pass (h : Deed.AllFit capable .start deeds)
    (hdeeds : deeds = before ++ d :: after) (hpass : d.pass? = some (u, settings)) :
    InForce capable u before settings := by
  obtain ⟨hbefore, hfits⟩ := fits_of_split h hdeeds
  have hknown : (Memory.start.after capable before).settings? capable u = some settings := by
    cases d with
    | refreshed around session v x | reported session v x =>
      obtain ⟨rfl, rfl⟩ := Prod.mk.inj (Option.some.inj hpass)
      exact hfits
    | _ => exact absurd hpass (by simp [Deed.pass?])
  unfold InForce
  cases capable with
  | true =>
    have htold := (told_of_settings? (Deed.keeps_of_allFit hbefore)).2.2 u settings hknown
    exact answered_of_told htold
  | false =>
    rw [← settings_eq_lastConfigured]
    exact (Option.some.inj hknown).symm

namespace Sample

/-- Around the server there are no files and no tokenizer; the client has settings. -/
def around : Surroundings :=
  ⟨fun _ => .ok fun _ => .brokeDown, [], some [.object [("maxNumberOfProblems", .nat 7)]]⟩

/-- Parameters that speak of a document. -/
def about (members : List (String × Json)) : Json :=
  .object [("textDocument", .object (("uri", .string "untitled:a") :: members))]

/-- What the client says of itself. -/
def introduction : Json :=
  .object [("capabilities", .object [("workspace", .object [("configuration", .bool true)])])]

/-- What the client does. -/
def turns : List (Surroundings × Turn) := [
  (around, .request "initialize" (some introduction)),
  (around, .notice "textDocument/didOpen"
    (some (about [("languageId", .string "js"), ("version", .nat 1), ("text", .string "x")]))),
  (around, .request "textDocument/diagnostic" (some (about []))),
  (around, .pass 150)]

/-- The document. -/
def uri : Uri := ⟨"untitled", none, .opaqueText "a", none, none⟩

/-- What the server does. -/
def done : List Deed := (start.log turns).map Prod.snd

end Sample

end Server

end ElementLens
