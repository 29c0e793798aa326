/-
What an operation on one document does to the others.

An operation on a document (`Store.Action`) changes no more of its entry than it is
about. But looking a document up is using it, so a document that has no entry yet gets
one, and if there are too many entries, one of the others is forgotten. It is the one
whose last look-up is the longest ago, and no further entry is concerned:

* **`RecencyCache.Puts.mem_keys_iff`** — the other keys that are there after a use;
* **`RecencyCache.stalest_iff`** — the first key of a cache is the one that was not used
  for longest;
* **`Store.act_spares_others`** — the law for a store that was reached by any
  operations.
-/
import ElementLens.Proofs.Cache.Recency
import ElementLens.Proofs.Store.LookUps

namespace ElementLens

namespace RecencyCache

variable {K V : Type} {c c' : RecencyCache K V} {j k : K} {v : V}

/-! ### The key that goes -/

/-- A use of a key lets another key go: the key was not there, there are as many keys
as fit, and the other one stands first. -/
def MakesRoom (c : RecencyCache K V) (k j : K) : Prop :=
  k ∉ c.keys ∧ c.size = c.capacity + 1 ∧ c.keys.head? = some j

theorem MakesRoom.mem (h : MakesRoom c k j) : j ∈ c.keys :=
  List.mem_of_mem_head? (Option.mem_def.2 h.2.2)

theorem MakesRoom.eq (h : MakesRoom c k j) {i : K} (h' : MakesRoom c k i) : i = j :=
  Option.some.inj (h'.2.2.symm.trans h.2.2)

variable [DecidableEq K]

/-- The other keys that are there after a use are those that were there, but for the one
that makes room. -/
theorem Puts.mem_keys_iff (h : Puts c k v c') (hlinked : c.Linked) (hj : j ≠ k) :
    j ∈ c'.keys ↔ j ∈ c.keys ∧ ¬ MakesRoom c k j := by
  have hle := hlinked.length_keys_le
  rw [MakesRoom, hlinked.size_eq, h.keys]
  by_cases hk : k ∈ c.keys
  · have hshort : (c.keys.filter (· ≠ k)).length < c.keys.length :=
      List.length_filter_lt_length_iff_exists.2 ⟨k, hk, by simp⟩
    rw [keysAfter_succ, rtake_of_length_le (by omega)]
    simp [hk, hj]
  · rw [keysAfter_of_notMem hk]
    by_cases hfull : c.keys.length = c.capacity + 1
    · -- all but the first key stay
      obtain ⟨first, rest, hkeys⟩ := List.exists_cons_of_length_eq_add_one hfull
      have hnodup := hlinked.keys_nodup
      rw [hkeys, List.length_cons, Nat.add_right_cancel_iff] at hfull
      rw [hkeys] at hnodup hk ⊢
      have hrest : (first :: rest).rtake c.capacity = rest := by
        rw [List.rtake, List.length_cons, ← hfull, Nat.add_sub_cancel_left, List.drop_one,
          List.tail_cons]
      have hfirst := (List.nodup_cons.1 hnodup).1
      rw [hrest, List.mem_append, List.mem_singleton, or_iff_left hj, List.mem_cons]
      constructor
      · intro hmem
        refine ⟨.inr hmem, fun ⟨_, _, hhead⟩ => ?_⟩
        rw [List.head?_cons, Option.some_inj] at hhead
        exact hfirst (hhead ▸ hmem)
      · rintro ⟨rfl | hmem, hstays⟩
        · exact absurd ⟨hk, by rw [List.length_cons, hfull], rfl⟩ hstays
        · exact hmem
    · rw [rtake_of_length_le (by omega)]
      simp [hj, hfull]

/-- A use of a key leaves the others alone, but for the one that makes room. -/
theorem Puts.peek?_of_not_makesRoom (h : Puts c k v c') (hlinked : c.Linked) (hj : j ≠ k)
    (hstays : ¬ MakesRoom c k j) : c'.peek? j = c.peek? j := by
  by_cases hmem : j ∈ c.keys
  · exact h.others j ((h.mem_keys_iff hlinked hj).2 ⟨hmem, hstays⟩) hj
  · have hmem' : j ∉ c'.keys := fun hmem' => hmem ((h.mem_keys_iff hlinked hj).1 hmem').1
    rw [hlinked.peek?_eq_none hmem, h.linked.peek?_eq_none hmem']

/-! ### The key not used for longest -/

/-- Of the keys of a cache, the one whose last use is the longest ago: since then all
the others were used. -/
def Stalest (c : RecencyCache K V) (uses : List K) (k : K) : Prop :=
  c.contains k = true ∧ ∃ before after, uses = before ++ k :: after ∧ k ∉ after
    ∧ ∀ j, c.contains j = true → j ≠ k → j ∈ after

omit [DecidableEq K] in
theorem exists_last_of_mem {ks : List K} (h : k ∈ ks) :
    ∃ before after, ks = before ++ k :: after ∧ k ∉ after := by
  obtain ⟨after, before, heq, hk⟩ := List.eq_append_cons_of_mem (List.mem_reverse.2 h)
  refine ⟨before.reverse, after.reverse, ?_, by simpa using hk⟩
  rw [← List.reverse_reverse ks, heq]
  simp

/-- Behind a key stand those that were used after it. -/
theorem eq_dedup_of_split {gone rest before after : List K}
    (h : gone ++ k :: rest = (before ++ k :: after).dedup) (hk : k ∉ after) :
    rest = after.dedup := by
  have hnodup : (gone ++ k :: rest).Nodup := h ▸ List.nodup_dedup _
  have hleft : k ∉ gone := fun hmem =>
    (List.nodup_append.1 hnodup).2.2 k hmem k List.mem_cons_self rfl
  have hright : k ∉ rest := (List.nodup_cons.1 (List.nodup_append.1 hnodup).2.1).1
  rw [dedup_append_eq, List.dedup_cons_of_notMem hk] at h
  exact ((List.append_cons_inj_of_notMem hleft hright).1 h).2.2

/-- The first of the keys that are left of some uses is the one whose last use is the
longest ago. -/
theorem head?_eq_some_iff_of_suffix {keys uses : List K} (h : keys <:+ uses.dedup) :
    keys.head? = some k ↔ k ∈ keys ∧ ∃ before after, uses = before ++ k :: after ∧ k ∉ after
      ∧ ∀ j ∈ keys, j ≠ k → j ∈ after := by
  obtain ⟨gone, hgone⟩ := h
  constructor
  · intro hhead
    obtain ⟨rest, rfl⟩ := List.head?_eq_some_iff.1 hhead
    have hmem : k ∈ k :: rest := List.mem_cons_self
    have hused : k ∈ uses := List.mem_dedup.1 (hgone ▸ List.mem_append_right _ hmem)
    obtain ⟨before, after, rfl, hk⟩ := exists_last_of_mem hused
    have hrest := eq_dedup_of_split hgone hk
    refine ⟨hmem, before, after, rfl, hk, fun j hj hne => ?_⟩
    rw [List.mem_cons, hrest, List.mem_dedup] at hj
    exact hj.resolve_left hne
  · rintro ⟨hmem, before, after, rfl, hk, hothers⟩
    obtain ⟨first, rest, rfl⟩ := List.append_of_mem hmem
    rw [← List.append_assoc] at hgone
    have hrest := eq_dedup_of_split hgone hk
    cases first with
    | nil => rw [List.nil_append, List.head?_cons]
    | cons j first =>
      -- a key before this one would stand behind it, too, having been used after it
      have hnodup : (gone ++ j :: first ++ k :: rest).Nodup := hgone ▸ List.nodup_dedup _
      have hapart := (List.nodup_append.1 hnodup).2.2 j
        (List.mem_append_right _ List.mem_cons_self)
      have hj : j ∈ after := hothers j (List.mem_append_left _ List.mem_cons_self)
        (hapart k List.mem_cons_self)
      exact absurd rfl (hapart j (List.mem_cons_of_mem _ (hrest ▸ List.mem_dedup.2 hj)))

/-- The keys of a cache are the last ones of all that were ever used. -/
theorem keys_run_suffix (capacity : Nat) (default : V) (ops : List (Operation K V)) :
    (run capacity default ops).keys <:+ (ops.filterMap Operation.key?).dedup := by
  obtain ⟨old, hold⟩ : usesSinceClear ops <:+ ops.filterMap Operation.key? :=
    (List.rtakeWhile_suffix _ _).filterMap _
  rw [(keys_run capacity default ops).2.2.2, ← hold, dedup_append_eq]
  exact (List.drop_suffix _ _).trans (List.suffix_append _ _)

/-- The first key of a cache is the one not used for longest. -/
theorem stalest_iff (capacity : Nat) (default : V) (ops : List (Operation K V)) :
    Stalest (run capacity default ops) (ops.filterMap Operation.key?) k
      ↔ (run capacity default ops).keys.head? = some k := by
  rw [head?_eq_some_iff_of_suffix (keys_run_suffix capacity default ops), Stalest]
  simp only [(linked_run capacity default ops).contains_iff]

end RecencyCache

namespace Store

/-! ### Operations on a document -/

/-- What can be done with a document in a store; its size is asked for, too. -/
inductive Action where
  | analysis
  | hasAnalysis
  | setAnalysis (new : Record)
  | settings
  | setSettings (new : Settings)
  | clearSettings
  | contains
  | size

namespace Action

/-- The store after an operation on a document. -/
def act (s : Store) (uri : Uri) : Action → Store
  | analysis => (s.analysis uri).2
  | hasAnalysis => (s.hasAnalysis uri).2
  | setAnalysis new => s.setAnalysis uri new
  | settings => (s.settings uri).2
  | setSettings new => s.setSettings uri new
  | clearSettings => s.clearSettings uri
  | contains | size => s

/-- Whether the document is looked up for it. -/
def looksUp : Action → Bool
  | contains | size => false
  | _ => true

/-- What becomes of the entry of the document. -/
def rewrite (e : Entry) : Action → Entry
  | setAnalysis new => ⟨e.settings, some new⟩
  | setSettings new => ⟨some new, e.analysis⟩
  | clearSettings => ⟨none, e.analysis⟩
  | analysis | hasAnalysis | settings | contains | size => e

/-- An operation on a document, as one on a key of the cache. -/
def operation (uri : Uri) : Action → RecencyCache.Operation Uri Entry
  | analysis | hasAnalysis | settings => .get uri
  | setAnalysis new => .modify uri fun e => { e with analysis := some new }
  | setSettings new => .modify uri fun e => { e with settings := some new }
  | clearSettings => .modify uri fun e => { e with settings := none }
  | contains | size => .contains uri

theorem apply_operation (s : Store) (uri : Uri) (a : Action) :
    (a.operation uri).apply Entry.empty s = a.act s uri := by
  cases a <;> rfl

theorem key?_operation (uri : Uri) (a : Action) :
    (a.operation uri).key? = if a.looksUp then some uri else none := by
  cases a <;> rfl

theorem write_operation (uri : Uri) (e : Entry) (a : Action) :
    (a.operation uri).write uri e = a.rewrite e := by
  cases a <;> simp [operation, RecencyCache.Operation.write, rewrite]

end Action

/-- What is done with a store: something with a document, or everything is
forgotten. -/
inductive Event where
  | on (uri : Uri) (action : Action)
  | clear

namespace Event

/-- The document that is looked up. -/
def lookedUp? : Event → Option Uri
  | on uri a => if a.looksUp then some uri else none
  | clear => none

/-- The store after an event. -/
def happen (s : Store) : Event → Store
  | on uri a => a.act s uri
  | clear => RecencyCache.clear s

/-- An event, as an operation on the cache. -/
def operation : Event → RecencyCache.Operation Uri Entry
  | on uri a => a.operation uri
  | clear => .clear

end Event

/-- The store that an empty one with a capacity has become. -/
def reached (capacity : Nat) (events : List Event) : Store :=
  events.foldl Event.happen (empty capacity)

/-- The documents that were looked up, once for each look-up. -/
def lookUps (events : List Event) : List Uri := events.filterMap Event.lookedUp?

theorem reached_eq (capacity : Nat) (events : List Event) :
    reached capacity events
      = RecencyCache.run capacity Entry.empty (events.map Event.operation) := by
  have hstep : Event.happen
      = fun s e => (Event.operation e).apply Entry.empty s := by
    funext s e
    cases e with
    | on uri a => exact (a.apply_operation s uri).symm
    | clear => rfl
  rw [reached, RecencyCache.run, List.foldl_map, hstep]
  rfl

theorem lookUps_eq (events : List Event) :
    lookUps events = (events.map Event.operation).filterMap RecencyCache.Operation.key? := by
  rw [lookUps, List.filterMap_map]
  congr 1
  funext e
  cases e with
  | on uri a => exact (a.key?_operation uri).symm
  | clear => rfl

/-! ### The law -/

variable {capacity : Nat} {events : List Event} {uri v : Uri} {a : Action}

theorem linked_reached (capacity : Nat) (events : List Event) :
    (reached capacity events).Linked := by
  rw [reached_eq]
  exact RecencyCache.linked_run ..

theorem capacity_reached (capacity : Nat) (events : List Event) :
    (reached capacity events).capacity = capacity := by
  rw [reached_eq]
  exact (RecencyCache.keys_run ..).2.1

/-- The entry of another document has to go for an operation on a document: the document
is looked up and has no entry, there are as many entries as fit, and since the other one
was last looked up so were all the others that have an entry. -/
def GivesWay (capacity : Nat) (events : List Event) (uri : Uri) (a : Action) (v : Uri) : Prop :=
  a.looksUp = true ∧ (reached capacity events).contains uri = false
    ∧ (reached capacity events).size = capacity + 1
    ∧ RecencyCache.Stalest (reached capacity events) (lookUps events) v

theorem givesWay_iff : GivesWay capacity events uri a v
    ↔ a.looksUp = true ∧ RecencyCache.MakesRoom (reached capacity events) uri v := by
  rw [GivesWay, RecencyCache.MakesRoom, capacity_reached,
    (linked_reached capacity events).contains_eq_false_iff, lookUps_eq, reached_eq,
    RecencyCache.stalest_iff]

/-- A document that is looked up has an entry, with what the operation made of it. -/
theorem puts_act {s : Store} (h : s.Linked) (ha : a.looksUp = true) :
    RecencyCache.Puts s uri (a.rewrite (s.entry uri)) (a.act s uri) := by
  rcases (a.operation uri).apply_cases h Entry.empty with
    ⟨k, hk, -, hputs⟩ | ⟨hk, -, -⟩ | ⟨hk, -, -⟩
  · rw [a.key?_operation, if_pos ha] at hk
    obtain rfl := Option.some.inj hk
    rw [a.apply_operation, a.write_operation] at hputs
    exact hputs
  all_goals
    rw [a.key?_operation, if_pos ha] at hk
    exact absurd hk (by simp)

theorem act_of_not_looksUp {s : Store} (ha : a.looksUp = false) : a.act s uri = s := by
  cases a with
  | contains | size => rfl
  | _ => exact absurd ha (by simp [Action.looksUp])

/-- **Others stay, but for one entry at most.** In a store that was reached by any
operations, an operation on a document gives it the entry that it should have, or leaves
the store alone if the document is not looked up. Every other document keeps its whole
entry, unless it is the one that has to go; then its whole entry is gone, and no further
one is concerned. -/
theorem act_spares_others (capacity : Nat) (events : List Event) (uri : Uri) (a : Action) :
    let s := reached capacity events
    let s' := a.act s uri
    s'.entry uri = a.rewrite (s.entry uri)
      ∧ (a.looksUp = true → s'.contains uri = true) ∧ (a.looksUp = false → s' = s)
      ∧ ∀ v, v ≠ uri →
        (¬ GivesWay capacity events uri a v → s'.peek? v = s.peek? v)
        ∧ (GivesWay capacity events uri a v →
            s.contains v = true ∧ s'.contains v = false
            ∧ ∀ w, w ≠ uri → w ≠ v → s'.peek? w = s.peek? w) := by
  intro s s'
  have hlinked : s.Linked := linked_reached capacity events
  cases ha : a.looksUp with
  | false =>
    have hsame : s' = s := act_of_not_looksUp ha
    have hstays (v : Uri) : ¬ GivesWay capacity events uri a v := fun h => by
      rw [h.1] at ha
      exact absurd ha (by simp)
    refine ⟨?_, fun h => absurd h (by simp), fun _ => hsame, fun v _ =>
      ⟨fun _ => by rw [hsame], fun h => absurd h (hstays v)⟩⟩
    rw [hsame]
    cases a with
    | contains | size => rfl
    | _ => exact absurd ha (by simp [Action.looksUp])
  | true =>
    have hputs : RecencyCache.Puts s uri (a.rewrite (s.entry uri)) s' := puts_act hlinked ha
    have hgoes (v : Uri) :
        GivesWay capacity events uri a v ↔ RecencyCache.MakesRoom s uri v :=
      givesWay_iff.trans (and_iff_right ha)
    have hthere : s'.contains uri = true := by
      rw [hputs.linked.contains_iff, hputs.keys, RecencyCache.keysAfter_succ]
      exact List.mem_append_right _ List.mem_cons_self
    refine ⟨by rw [entry, hputs.value, Option.getD_some], fun _ => hthere,
      fun h => absurd h (by simp), fun v hv => ⟨fun hstays => ?_, fun hgone => ?_⟩⟩
    · exact hputs.peek?_of_not_makesRoom hlinked hv (mt (hgoes v).2 hstays)
    · have hroom := (hgoes v).1 hgone
      refine ⟨hlinked.contains_iff.2 hroom.mem, ?_, fun w hw hwv => ?_⟩
      · rw [hputs.linked.contains_eq_false_iff, hputs.mem_keys_iff hlinked hv]
        exact fun h => h.2 hroom
      · exact hputs.peek?_of_not_makesRoom hlinked hw fun h => hwv (hroom.eq h)

/-- In a store of capacity one, asking for the settings of a third document takes the
second one's record away, because the first one was asked for in between. -/
theorem act_spares_others_third :
    let uri (name : String) : Uri := ⟨"file", some .empty, .segments [name], none, none⟩
    let record : Record := ⟨.ofText "/a.js", [], [], []⟩
    let events : List Event :=
      [.on (uri "a.js") (.setAnalysis record), .on (uri "b.js") (.setAnalysis record),
        .on (uri "a.js") .hasAnalysis]
    let s := reached 1 events
    let s' := Action.settings.act s (uri "c.js")
    uri "b.js" ≠ uri "c.js" ∧ GivesWay 1 events (uri "c.js") .settings (uri "b.js")
      ∧ s.contains (uri "b.js") = true ∧ s'.contains (uri "b.js") = false
      ∧ s'.peek? (uri "a.js") = s.peek? (uri "a.js") := by
  intro uri record events s s'
  have hne : uri "b.js" ≠ uri "c.js" := by decide
  have hgoes : GivesWay 1 events (uri "c.js") .settings (uri "b.js") :=
    givesWay_iff.2 ⟨rfl, by decide, by decide, by decide⟩
  obtain ⟨-, -, -, hothers⟩ := act_spares_others 1 events (uri "c.js") .settings
  obtain ⟨hthere, hgone, hrest⟩ := (hothers (uri "b.js") hne).2 hgoes
  exact ⟨hne, hgoes, hthere, hgone, hrest (uri "a.js") (by decide) (by decide)⟩

end Store

end ElementLens
