/-
Uses of a store.

Whatever is done with a store, it is a sequence of a few kinds of uses
(`Store.Use`). A use gives one document a record, or none, and leaves the records
of the others alone, as long as the store forgets nothing:

* **`Use.puts`** — a use of a document, as a use of a key of the cache;
* **`Use.record?_act_recent`** — the records after a use, of documents that were
  looked up after all but a few;
* **`record?_after`** — the records after many uses of few documents.
-/
import ElementLens.Proofs.Cache.Kept
import ElementLens.Document
import ElementLens.Store

namespace ElementLens

namespace Store

/-- The record of a document, which is not looked up for it. -/
def record? (s : Store) (uri : Uri) : Option Record := (s.peek? uri).bind Entry.analysis

/-- A use of a store: a document is looked up, loses its settings, or gets a
record because it was refreshed or because it is imported; or everything is
forgotten. -/
inductive Use where
  | looked (uri : Uri)
  | unset (uri : Uri)
  | refreshed (d : Document) (r : Record)
  | imported (d : Document) (r : Record)
  | cleared

namespace Use

/-- The document that is looked up on the occasion. -/
def uri? : Use → Option Uri
  | looked uri | unset uri => some uri
  | refreshed d _ | imported d _ => some d.uri
  | cleared => none

/-- The record that a document gets, and the document. -/
def written? : Use → Option (Document × Record)
  | refreshed d r | imported d r => some (d, r)
  | looked _ | unset _ | cleared => none

/-- The store after a use. -/
def act (s : Store) : Use → Store
  | looked uri => (s.lookup uri).2
  | unset uri => s.clearSettings uri
  | refreshed d r | imported d r => s.setAnalysis d.uri r
  | cleared => s.clear

/-- What becomes of the record of a document. -/
def write (uri : Uri) (old : Option Record) : Use → Option Record
  | looked _ | unset _ => old
  | refreshed d r | imported d r => if d.uri = uri then some r else old
  | cleared => none

end Use

/-- The store after some uses. -/
def after (s : Store) (uses : List Use) : Store := uses.foldl Use.act s

@[simp] theorem after_nil (s : Store) : s.after [] = s := rfl

@[simp] theorem after_cons (s : Store) (u : Use) (uses : List Use) :
    s.after (u :: uses) = (u.act s).after uses := rfl

@[simp] theorem after_append (s : Store) (uses more : List Use) :
    s.after (uses ++ more) = (s.after uses).after more :=
  List.foldl_append ..

/-! ### Records -/

variable {s : Store} {few : Finset Uri} {uri v : Uri} {u : Use}

theorem analysis_getD (s : Store) (uri : Uri) :
    ((s.peek? uri).getD Entry.empty).analysis = s.record? uri := by
  unfold record?
  cases s.peek? uri <;> rfl

/-- What a look-up hands out is what is there afterwards. -/
theorem analysis_fst (s : Store) (uri : Uri) :
    (s.analysis uri).1 = (s.lookup uri).2.record? uri :=
  analysis_getD _ uri

/-- The look-up itself does not change what is handed out. -/
theorem analysis_eq (s : Store) (uri : Uri) : (s.analysis uri).1 = s.record? uri := by
  rw [← analysis_getD]
  exact congrArg Entry.analysis (s.get_fst uri Entry.empty)

theorem record?_lookup_self (s : Store) (uri : Uri) :
    (s.lookup uri).2.record? uri = s.record? uri :=
  (analysis_fst s uri).symm.trans (analysis_eq s uri)

theorem record?_setAnalysis_self (s : Store) (uri : Uri) (r : Record) :
    (s.setAnalysis uri r).record? uri = some r := by
  have hvalue := RecencyCache.peek?_mapValue_self (f := fun e : Entry => { e with analysis := some r })
    (RecencyCache.peek?_use_self (c := s) uri Entry.empty)
  exact congrArg (Option.bind · Entry.analysis) hvalue

theorem hasAnalysis_fst (s : Store) (uri : Uri) :
    (s.hasAnalysis uri).1 = ((s.lookup uri).2.record? uri).isSome :=
  congrArg Option.isSome (analysis_fst s uri)

theorem record?_clear (s : Store) (uri : Uri) : record? s.clear uri = none := by
  rw [record?, (RecencyCache.Linked.clear s).peek?_eq_none List.not_mem_nil]
  rfl

theorem record?_eq_of_puts {s' : Store} {e : Entry} (h : RecencyCache.Puts s uri e s') :
    s'.record? uri = e.analysis := by
  rw [record?, h.value]
  rfl

namespace Use

theorem puts (h : s.Linked) (hu : u.uri? = some uri) :
    ∃ e, RecencyCache.Puts s uri e (u.act s) ∧ e.analysis = u.write uri (s.record? uri) := by
  cases u with
  | looked v =>
    obtain rfl := Option.some.inj hu
    exact ⟨_, h.puts_use v Entry.empty, analysis_getD s v⟩
  | unset v =>
    obtain rfl := Option.some.inj hu
    exact ⟨_, h.puts_modify v Entry.empty fun e => { e with settings := none }, analysis_getD s v⟩
  | refreshed d r | imported d r =>
    obtain rfl := Option.some.inj hu
    refine ⟨_, h.puts_modify d.uri Entry.empty fun e => { e with analysis := some r }, ?_⟩
    exact (if_pos rfl).symm
  | cleared => exact absurd hu (by simp [uri?])

theorem eq_cleared (hu : u.uri? = none) : u = .cleared := by
  cases u with
  | cleared => rfl
  | _ => exact absurd hu (by simp [uri?])

theorem write_of_ne {old : Option Record} (hu : u.uri? = some uri) (hv : v ≠ uri) :
    u.write v old = old := by
  cases u with
  | refreshed d r | imported d r =>
    obtain rfl := Option.some.inj hu
    exact if_neg hv.symm
  | cleared => exact absurd hu (by simp [uri?])
  | _ => rfl

theorem linked_act (h : s.Linked) (u : Use) : (u.act s).Linked := by
  cases hu : u.uri? with
  | some uri =>
    obtain ⟨e, hputs, -⟩ := u.puts h hu
    exact hputs.linked
  | none =>
    rw [eq_cleared hu]
    exact .clear s

theorem capacity_act (h : s.Linked) (u : Use) : (u.act s).capacity = s.capacity := by
  cases hu : u.uri? with
  | some uri =>
    obtain ⟨e, hputs, -⟩ := u.puts h hu
    exact hputs.capacity
  | none =>
    rw [eq_cleared hu]
    rfl

/-- A document that was looked up after all but a few keeps its record. -/
theorem record?_act_recent (h : s.Linked) (hroom : few.card ≤ s.capacity + 1)
    (hu : u.uri? = some uri) (huri : uri ∈ few) (hv : RecencyCache.Recent few s v) :
    (u.act s).record? v = u.write v (s.record? v) := by
  obtain ⟨e, hputs, he⟩ := u.puts h hu
  by_cases hvu : v = uri
  · rw [hvu, record?_eq_of_puts hputs, he]
  · rw [write_of_ne hu hvu, record?, record?, hputs.peek?_recent h hroom huri hv hvu]

/-- If few documents are looked up at all, every one keeps its record. -/
theorem record?_act_within (h : s.Linked) (hroom : few.card ≤ s.capacity + 1)
    (hu : ∀ uri, u.uri? = some uri → uri ∈ few) (hwithin : RecencyCache.Within few s) (v : Uri) :
    RecencyCache.Within few (u.act s) ∧ (u.act s).record? v = u.write v (s.record? v) := by
  cases huri : u.uri? with
  | some uri =>
    obtain ⟨e, hputs, he⟩ := u.puts h huri
    refine ⟨hputs.within (hu uri huri) hwithin, ?_⟩
    by_cases hvu : v = uri
    · rw [hvu, record?_eq_of_puts hputs, he]
    · rw [write_of_ne huri hvu, record?, record?,
        hputs.peek?_within h hroom (hu uri huri) hwithin hvu]
  | none =>
    rw [eq_cleared huri]
    exact ⟨fun k hk => absurd hk List.not_mem_nil, record?_clear s v⟩

end Use

/-- The records after some uses, if few documents are looked up. -/
theorem record?_after {uses : List Use} (h : s.Linked) (hroom : few.card ≤ s.capacity + 1)
    (huses : ∀ u ∈ uses, ∀ uri, u.uri? = some uri → uri ∈ few)
    (hwithin : RecencyCache.Within few s) (v : Uri) :
    (s.after uses).record? v = uses.foldl (Use.write v) (s.record? v) := by
  induction uses generalizing s with
  | nil => rfl
  | cons u uses ih =>
    obtain ⟨hstill, hrecord⟩ :=
      Use.record?_act_within h hroom (huses u List.mem_cons_self) hwithin v
    rw [after_cons, List.foldl_cons, ← hrecord]
    refine ih (Use.linked_act h u) ?_ (fun u' hu' => huses u' (List.mem_cons_of_mem _ hu')) hstill
    rw [Use.capacity_act h u]
    exact hroom

/-- Documents stay among those looked up last, and each one that is looked up
comes to be among them. -/
theorem recent_after {uses : List Use} (h : s.Linked) (hroom : few.card ≤ s.capacity + 1)
    (huses : ∀ u ∈ uses, ∃ uri ∈ few, u.uri? = some uri)
    (hv : RecencyCache.Recent few s v ∨ ∃ u ∈ uses, u.uri? = some v) :
    RecencyCache.Recent few (s.after uses) v := by
  induction uses generalizing s with
  | nil => exact hv.resolve_right fun ⟨_, hu, _⟩ => absurd hu List.not_mem_nil
  | cons u uses ih =>
    obtain ⟨uri, huri, hu⟩ := huses u List.mem_cons_self
    obtain ⟨e, hputs, -⟩ := u.puts h hu
    refine ih hputs.linked (by rw [hputs.capacity]; exact hroom)
      (fun u' hu' => huses u' (List.mem_cons_of_mem _ hu')) ?_
    rcases hv with hv | ⟨u', hu', hv⟩
    · exact .inl (hputs.recent h hroom huri hv)
    · rcases List.mem_cons.1 hu' with rfl | hu'
      · obtain rfl := Option.some.inj (hu.symm.trans hv)
        exact .inl (hputs.recent_self huri)
      · exact .inr ⟨u', hu', hv⟩

theorem capacity_after (h : s.Linked) (uses : List Use) :
    (s.after uses).capacity = s.capacity := by
  induction uses generalizing s with
  | nil => rfl
  | cons u uses ih => exact (ih (Use.linked_act h u)).trans (Use.capacity_act h u)

theorem linked_after (h : s.Linked) (uses : List Use) : (s.after uses).Linked := by
  induction uses generalizing s with
  | nil => exact h
  | cons u uses ih => exact ih (Use.linked_act h u)

end Store

end ElementLens
