/-
What is reported when all open documents are refreshed.

The problems of a document are looked for in its turn. By then some of the modules that
it imports had their turns, and are known by their texts in the editor; the others are
known by their files. So the order matters, but only if an imported module is unsaved
(`Workspace.Unsaved`), or if the document itself is known by its file:

* **`Workspace.report?_eq`** — what is reported of a document in its turn;
* **`Workspace.knownIn_import`** — what is known of its imports by then;
* **`Workspace.reports_agree`** — when two orders report the same.
-/
import ElementLens.Proofs.Session.Queries
import ElementLens.Proofs.Workspace.Confluence

namespace ElementLens

/-! ### Without a tokenizer -/

/-- Nothing is known of any document. -/
structure Store.Blank (s : Store) : Prop where
  linked : s.Linked
  nothing : ∀ v, s.record? v = none

/-- Look-ups do not change this. -/
theorem Store.Blank.steady (few : Finset Uri) : Steady few (fun _ => none) Blank := by
  intro s h v _
  obtain ⟨e, hputs, he⟩ : ∃ e, RecencyCache.Puts s v e (s.analysis v).2
      ∧ e.analysis = Use.write v (s.record? v) (.looked v) :=
    Use.puts (u := .looked v) h.linked rfl
  refine ⟨(analysis_eq s v).trans (h.nothing v), hputs.linked, fun j => ?_⟩
  by_cases hj : j = v
  · rw [hj, record?_eq_of_puts hputs, he, h.nothing]
    rfl
  · by_cases hmem : j ∈ (s.analysis v).2.keys
    · rw [record?, hputs.others j hmem hj]
      exact h.nothing j
    · rw [record?, hputs.linked.peek?_eq_none hmem]
      rfl

namespace Workbench

/-- There is no tokenizer, and there never will be one. So nothing is known. -/
structure Unequipped (loader : Loader) (w : Workbench) : Prop where
  tokenizer : w.analyzer.tokenizer = none
  unavailable : ∀ n, ∃ e, loader n = .error e
  blank : w.store.Blank

namespace Unequipped

variable {w : Workbench} {loader : Loader}

theorem analyze (h : w.Unequipped loader) (files : FileSystem) (d : Document) :
    (w.analyze loader files d true).2.Unequipped loader := by
  obtain ⟨e, hload⟩ := h.unavailable w.loads
  unfold Workbench.analyze analyzeSingle loadTokenizer
  by_cases hlong : longestDocument < d.utf16Length
  · simp only [hlong, if_true]
    exact ⟨h.tokenizer, h.unavailable, h.blank⟩
  · simp only [hlong, if_false, h.tokenizer, hload]
    exact ⟨h.tokenizer, h.unavailable, h.blank⟩

theorem diagnose (h : w.Unequipped loader) (uri : Uri) (settings : Settings) :
    (w.diagnose uri settings).1 = [] ∧ (w.diagnose uri settings).2.Unequipped loader := by
  obtain ⟨hreported, hblank⟩ := (Store.Blank.steady {uri}).diagnose_of_tokens h.blank settings
    (Finset.mem_singleton_self uri) fun r hr => absurd hr (by simp)
  refine ⟨hreported, ?_, h.unavailable, ?_⟩
  · rw [analyzer_diagnose, h.tokenizer]
  · rwa [store_diagnose]

end Unequipped

end Workbench

namespace Workspace

open Store (Use)

variable {w w' w'' : Workspace} {loader : Loader} {t : Markup.Tokenizer} {few : Finset Uri}
  {uri v : Uri} {settings : Settings} {order before after : List (Uri × Settings)}

/-- What is reported of a document when some documents are refreshed in turn. -/
def report? (loader : Loader) (w : Workspace) (uri : Uri) :
    List (Uri × Settings) → Option (List Diagnostic)
  | [] => none
  | (v, settings) :: order =>
    if v = uri then (w.session.refresh loader w.files v settings).1
    else (w.step loader (.refresh v settings)).report? loader uri order

/-- The documents that have their turns before a document. -/
def earlier (order : List (Uri × Settings)) (uri : Uri) : List Uri :=
  (order.map Prod.fst).takeWhile fun v => v ≠ uri

/-- An imported module is unsaved: it is open, and the record of its text is not the one
of its file. -/
def Unsaved (w : Workspace) (t : Markup.Tokenizer) (edge : ImportEdge) : Prop :=
  ∃ r, w.textRecord? t edge.uri = some r
    ∧ Workbench.recordOfFile? w.bench.analyzer.parse? t w.files edge ≠ some r

/-! ### Turns -/

theorem earlier_append (h : uri ∉ before.map Prod.fst) :
    earlier (before ++ (uri, settings) :: after) uri = before.map Prod.fst := by
  rw [earlier, List.map_append, List.takeWhile_append_of_pos, List.map_cons,
    List.takeWhile_cons_of_neg (by simp), List.append_nil]
  intro v hv
  simpa using fun heq : v = uri => h (heq ▸ hv)

theorem report?_append (h : uri ∉ before.map Prod.fst) :
    w.report? loader uri (before ++ (uri, settings) :: after)
      = ((w.run loader (refreshAll before)).session.refresh loader
          (w.run loader (refreshAll before)).files uri settings).1 := by
  induction before generalizing w with
  | nil => exact if_pos rfl
  | cons next before ih =>
    rw [List.map_cons, List.mem_cons, not_or] at h
    rw [List.cons_append, report?, if_neg (Ne.symm h.1), ih h.2]
    rfl

theorem report?_of_notMem (h : uri ∉ order.map Prod.fst) : w.report? loader uri order = none := by
  induction order generalizing w with
  | nil => rfl
  | cons next order ih =>
    rw [List.map_cons, List.mem_cons, not_or] at h
    rw [report?, if_neg (Ne.symm h.1), ih h.2]

/-- A document with a turn has its turn after some others. -/
theorem exists_turn (h : uri ∈ order.map Prod.fst) :
    ∃ before settings after, order = before ++ (uri, settings) :: after
      ∧ uri ∉ before.map Prod.fst := by
  induction order with
  | nil => exact absurd h List.not_mem_nil
  | cons next order ih =>
    obtain ⟨v, settings⟩ := next
    by_cases hv : v = uri
    · exact ⟨[], settings, order, by rw [hv]; rfl, List.not_mem_nil⟩
    · obtain ⟨before, settings', after, rfl, hbefore⟩ :=
        ih ((List.mem_cons.1 h).resolve_left (Ne.symm hv))
      exact ⟨(v, settings) :: before, settings', after, rfl, by
        simpa [Ne.symm hv] using hbefore⟩

/-- Without a tokenizer nothing is reported of any document. -/
theorem report?_of_unequipped (h : w.bench.Unequipped loader) (hturn : uri ∈ order.map Prod.fst) :
    w.report? loader uri order = (w.session.document? uri).map fun _ => [] := by
  induction order generalizing w with
  | nil => exact absurd hturn List.not_mem_nil
  | cons next order ih =>
    obtain ⟨v, settings⟩ := next
    cases hopen : w.session.document? v with
    | none =>
      by_cases hv : v = uri
      · subst hv
        rw [report?, if_pos rfl, Session.refresh, hopen, Option.map_none]
      · have hstep : w.step loader (.refresh v settings) = w := by
          simp only [step, Session.refresh, hopen]
        rw [report?, if_neg hv, hstep, ih h ((List.mem_cons.1 hturn).resolve_left (Ne.symm hv))]
    | some d =>
      obtain ⟨hreported, hunequipped⟩ := (h.analyze w.files d).diagnose v settings
      by_cases hv : v = uri
      · subst hv
        rw [report?, if_pos rfl, Session.fst_refresh loader w.files settings hopen, hreported, hopen,
          Option.map_some]
      · have hbench : (w.step loader (.refresh v settings)).bench = _ :=
          Session.bench_refresh loader w.files settings hopen
        rw [← hbench] at hunequipped
        have hdocuments : (w.step loader (.refresh v settings)).session.document?
            = w.session.document? := w.session.document?_refresh loader w.files v settings
        rw [report?, if_neg hv, ih hunequipped
          ((List.mem_cons.1 hturn).resolve_left (Ne.symm hv)), hdocuments]

theorem Resumes.trans (h : Resumes few loader t w w') (h' : Resumes few loader t w' w'') :
    Resumes few loader t w w'' where
  prepared := h'.prepared
  parser := h'.parser.trans h.parser
  documents := h'.documents.trans h.documents
  files := h'.files.trans h.files

theorem resumes_refreshAll (h : w.bench.Prepared few loader t)
    (huses : ∀ u ∈ w.uses loader (refreshAll order), ∀ v, u.uri? = some v → v ∈ few) :
    Resumes few loader t w (w.run loader (refreshAll order)) := by
  induction order generalizing w with
  | nil => exact ⟨h, rfl, rfl, rfl⟩
  | cons next order ih =>
    obtain ⟨hresumes, -⟩ := record?_refresh h next.1 next.2 fun u hu =>
      huses u (List.mem_append_left _ hu)
    exact hresumes.trans (ih hresumes.prepared fun u hu => huses u (List.mem_append_right _ hu))

/-! ### What is known -/

/-- What is known of a document and of its imports in its turn: the records of the texts
of those that had their turns, and the records of the files of the other ones. -/
def knownIn (w : Workspace) (t : Markup.Tokenizer) (order : List (Uri × Settings)) (uri v : Uri) :
    Option Record :=
  (if v = uri ∨ v ∈ earlier order uri then w.textRecord? t v else none).or
    (Workbench.importOf? w.bench.analyzer.parse? t w.files (w.edgesFrom t uri) v)

theorem edgesFrom_of_none (h : w.textRecord? t uri = none) : w.edgesFrom t uri = [] := by
  rw [edgesFrom, h, Option.elim_none]

theorem edgesFrom_of_some {r : Record} (h : w.textRecord? t uri = some r) :
    w.edgesFrom t uri = r.followed := by
  rw [edgesFrom, h, Option.elim_some]

theorem knownIn_self : w.knownIn t order uri uri = w.textRecord? t uri := by
  rw [knownIn, if_pos (.inl rfl)]
  cases h : w.textRecord? t uri with
  | some r => rfl
  | none => rw [edgesFrom_of_none h, Workbench.importOf?_nil, Option.or_none]

/-- An import is known by its text if it had its turn, and by its file otherwise. -/
theorem knownIn_import {edge : ImportEdge} (hedge : edge ∈ w.edgesFrom t uri)
    (hne : edge.uri ≠ uri) :
    w.knownIn t order uri edge.uri
      = (if edge.uri ∈ earlier order uri then w.textRecord? t edge.uri else none).or
          (Workbench.recordOfFile? w.bench.analyzer.parse? t w.files edge) := by
  rw [knownIn, Workbench.importOf?_of_mem resolved_of_mem_edgesFrom hedge]
  simp only [hne, false_or]

/-- The problems of a document depend on its record and on those of its imports. -/
theorem problemsOf_congr {known known' : Uri → Option Record} (hown : known uri = known' uri)
    (himports : ∀ r, known uri = some r → r.tokens ≠ [] →
      ∀ edge ∈ r.imports, known edge.uri = known' edge.uri) :
    problemsOf known uri settings = problemsOf known' uri settings := by
  unfold problemsOf
  rw [← hown]
  cases hr : known uri with
  | none => rfl
  | some r =>
    by_cases htokens : r.tokens = []
    · simp [htokens]
    · rw [Option.elim_some, Option.elim_some, Store.unresolved_congr (himports r hr htokens)]

/-- The imports that a refresh follows are looked up. -/
theorem looked_mem_usesToRefresh {edge : ImportEdge} (h : w.bench.Prepared few loader t)
    (hedge : edge ∈ w.edgesFrom t uri) :
    .looked edge.uri ∈ w.usesToRefresh loader uri settings := by
  cases hrecord : w.textRecord? t uri with
  | none =>
    rw [edgesFrom_of_none hrecord] at hedge
    exact absurd hedge List.not_mem_nil
  | some r =>
    rw [edgesFrom_of_some hrecord] at hedge
    obtain ⟨d, hopen, hd⟩ := Option.bind_eq_some_iff.1 hrecord
    have hok := ok_of_toOption
      ((Workbench.analyzeSingle_of_tokenizer? d h.tokenizer).1.trans hd)
    simp only [usesToRefresh, hopen]
    rw [Workbench.usesToAnalyze_of_ok w.files hok]
    exact List.mem_append_left _ (List.mem_cons_of_mem _ (Workbench.looked_mem_uses hedge))

/-- What is reported of a document goes by the records that are known after its
refresh, if none but its own refresh gave it its record. -/
theorem fst_refresh_eq {d : Document} (h : w.bench.Prepared few loader t)
    (huses : ∀ u ∈ w.usesToRefresh loader uri settings, ∀ v, u.uri? = some v → v ∈ few)
    (hopen : w.session.document? uri = some d)
    (hown : w.textRecord? t uri = none → w.store.record? uri = none) :
    (w.session.refresh loader w.files uri settings).1
      = some (problemsOf (w.step loader (.refresh uri settings)).store.record? uri settings) := by
  have hrefreshed := (record?_refresh h uri settings huses).2
  have hfirst := Session.fst_refresh loader w.files settings hopen
  have hbench := Session.bench_refresh loader w.files settings hopen
  have himports : ∀ edge ∈ w.edgesFrom t uri, edge.uri ∈ few := fun edge hedge =>
    huses _ (looked_mem_usesToRefresh h hedge) _ rfl
  simp only [usesToRefresh, hopen] at huses
  obtain ⟨w₁, hw₁⟩ : ∃ w₁, w₁ = (w.bench.analyze loader w.files d true).2 := ⟨_, rfl⟩
  have hanalyzed := (h.analyze w.files fun u hu => huses u (List.mem_append_left _ hu)).1
  rw [← hw₁] at hfirst hbench hanalyzed huses
  -- the look at the problems changes no records
  have hsame : (w.step loader (.refresh uri settings)).store.record? = w₁.store.record? := by
    funext v
    have hstore : (w.step loader (.refresh uri settings)).store = (w₁.diagnose uri settings).2.store :=
      congrArg Workbench.store hbench
    rw [hstore]
    exact (hanalyzed.diagnose uri settings fun u hu => huses u (List.mem_append_right _ hu)).2 v
  have hroomy : Store.Roomy few w₁.store.entry w₁.store := ⟨hanalyzed.fits, fun _ => rfl⟩
  have hsteady := Store.Roomy.steady few w₁.store.entry
  rw [show (fun v => (w₁.store.entry v).analysis) = w₁.store.record? from
    funext fun v => (hroomy.record? v).symm, ← hsame] at hsteady
  have huri : uri ∈ few :=
    huses (.looked uri) (List.mem_append_right _ List.mem_cons_self) uri rfl
  rw [hfirst, Workbench.fst_diagnose, (hsteady.diagnose_of_tokens hroomy settings huri ?_).1]
  · rfl
  · -- if there are tag names to look up, the imports were followed
    intro r hr htokens edge hedge
    rw [hrefreshed, if_pos rfl] at hr
    cases hrecord : w.textRecord? t uri with
    | none =>
      rw [hrecord, hown hrecord, edgesFrom_of_none hrecord] at hr
      exact absurd hr (by simp)
    | some r' =>
      rw [hrecord, Option.some_or] at hr
      obtain rfl : r' = r := Option.some.inj hr
      rw [← Record.followed_of_tokens htokens, ← edgesFrom_of_some hrecord] at hedge
      exact himports edge hedge

/-- All that is looked up is among few documents, before the turn of a document and in
it. -/
theorem uses_turn
    (huses : ∀ u ∈ w.uses loader (refreshAll (before ++ (uri, settings) :: after)),
      ∀ v, u.uri? = some v → v ∈ few) :
    (∀ u ∈ w.uses loader (refreshAll before), ∀ v, u.uri? = some v → v ∈ few)
      ∧ ∀ u ∈ (w.run loader (refreshAll before)).usesToRefresh loader uri settings,
          ∀ v, u.uri? = some v → v ∈ few := by
  rw [refreshAll, List.map_append, uses_append, ← refreshAll] at huses
  exact ⟨fun u hu => huses u (List.mem_append_left _ hu),
    fun u hu => huses u (List.mem_append_right _ (List.mem_append_left _ hu))⟩

/-- The records after the turn of a document, if there were none in the beginning. -/
theorem record?_turn (h : w.bench.Prepared few loader t) (hcleared : ∀ v, w.store.record? v = none)
    (huses : ∀ u ∈ w.uses loader (refreshAll (before ++ (uri, settings) :: after)),
      ∀ v, u.uri? = some v → v ∈ few) (v : Uri) :
    ((w.run loader (refreshAll before)).step loader (.refresh uri settings)).store.record? v
      = (if v = uri ∨ v ∈ before.map Prod.fst then w.textRecord? t v else none).or
          (Workbench.importOf? w.bench.analyzer.parse? t w.files
            ((before.map Prod.fst).flatMap (w.edgesFrom t) ++ w.edgesFrom t uri) v) := by
  obtain ⟨hbefore, hturn⟩ := uses_turn huses
  have hresumes := resumes_refreshAll h hbefore
  rw [(record?_refresh hresumes.prepared uri settings hturn).2, record?_refreshAll h hbefore,
    hcleared, hresumes.textRecord?, hresumes.edgesFrom, hresumes.parser, hresumes.files,
    Workbench.importOf?_append, Option.none_or]
  by_cases hv : v = uri
  · subst hv
    rw [if_pos rfl, if_pos (Or.inl (b := v ∈ before.map Prod.fst) (rfl : v = v))]
    split
    · rw [← Option.or_assoc, ← Option.or_assoc, Option.or_self, Option.or_assoc]
    · rw [Option.none_or]
  · simp only [hv, Ne.symm hv, if_false, false_or, Option.none_or, Option.or_assoc]

/-- Documents that do not import another one, or only as a file without a record, leave it
without one. -/
theorem importOf?_edgesFrom_eq_none {importers : List Uri}
    (h : ∀ v ∈ importers, ∀ edge ∈ w.edgesFrom t v, edge.uri = uri →
      Workbench.recordOfFile? w.bench.analyzer.parse? t w.files edge = none) :
    Workbench.importOf? w.bench.analyzer.parse? t w.files (importers.flatMap (w.edgesFrom t)) uri
      = none := by
  refine List.findSome?_eq_none_iff.2 fun edge hedge => ?_
  obtain ⟨v, hv, hmem⟩ := List.mem_flatMap.1 hedge
  split
  · next huri => exact h v hv edge hmem huri
  · rfl

/-- **What is reported of a document** in its turn: the start tags that neither its text
defines nor one of its imports, as far as they are known by then. -/
theorem report?_eq (h : w.bench.Prepared few loader t) (hcleared : ∀ v, w.store.record? v = none)
    (huses : ∀ u ∈ w.uses loader (refreshAll (before ++ (uri, settings) :: after)),
      ∀ v, u.uri? = some v → v ∈ few)
    (hfirst : uri ∉ before.map Prod.fst)
    (hown : w.textRecord? t uri = none →
      ∀ v ∈ before.map Prod.fst, ∀ edge ∈ w.edgesFrom t v, edge.uri = uri →
        Workbench.recordOfFile? w.bench.analyzer.parse? t w.files edge = none) :
    w.report? loader uri (before ++ (uri, settings) :: after)
      = (w.session.document? uri).map fun _ =>
          problemsOf (w.knownIn t (before ++ (uri, settings) :: after) uri) uri settings := by
  obtain ⟨hbefore, hturn⟩ := uses_turn huses
  have hresumes := resumes_refreshAll h hbefore
  have hrecord := record?_turn h hcleared huses
  have hresolved : ∀ edge ∈ (before.map Prod.fst).flatMap (w.edgesFrom t) ++ w.edgesFrom t uri,
      edge.Resolved := by
    intro edge hedge
    rcases List.mem_append.1 hedge with hedge | hedge
    · obtain ⟨v, -, hmem⟩ := List.mem_flatMap.1 hedge
      exact resolved_of_mem_edgesFrom edge hmem
    · exact resolved_of_mem_edgesFrom edge hedge
  -- no document before it fills in the record of this one
  have hnone : w.textRecord? t uri = none →
      Workbench.importOf? w.bench.analyzer.parse? t w.files
        ((before.map Prod.fst).flatMap (w.edgesFrom t)) uri = none := fun htext =>
    importOf?_edgesFrom_eq_none (hown htext)
  have hself : ((w.run loader (refreshAll before)).step loader
      (.refresh uri settings)).store.record? uri = w.textRecord? t uri := by
    rw [hrecord, if_pos (.inl rfl)]
    cases htext : w.textRecord? t uri with
    | some r => rfl
    | none =>
      rw [edgesFrom_of_none htext, List.append_nil, hnone htext]
      rfl
  rw [report?_append hfirst]
  have hdocuments : (w.run loader (refreshAll before)).session.document? uri
      = w.session.document? uri := by
    rw [Session.document?, hresumes.documents, ← Session.document?]
  cases hopen : w.session.document? uri with
  | none => simp [Session.refresh, hdocuments, hopen]
  | some d =>
    rw [fst_refresh_eq hresumes.prepared hturn (hdocuments.trans hopen) ?_, Option.map_some]
    · congr 1
      refine problemsOf_congr (hself.trans knownIn_self.symm) fun r hr htokens edge hedge => ?_
      -- one of the imports tells as much of the file as all of them
      rw [← Record.followed_of_tokens htokens, ← edgesFrom_of_some (hself.symm.trans hr)] at hedge
      rw [hrecord, knownIn, earlier_append hfirst, Workbench.importOf?_of_mem hresolved
        (List.mem_append_right _ hedge), Workbench.importOf?_of_mem resolved_of_mem_edgesFrom hedge]
    · rw [hresumes.textRecord?]
      intro htext
      rw [record?_refreshAll h hbefore, hcleared, if_neg hfirst, hnone htext]
      rfl

/-- What is reported of a document after everything was forgotten. -/
theorem report?_cleared (hidle : w.bench.analyzer.importing = [])
    (htokenizer : w.bench.tokenizer? loader = some t)
    (hroom : ((w.step loader .clear).lookedUp loader (refreshAll order)).card
      ≤ w.store.capacity + 1)
    (hown : w.textRecord? t uri = none → ∀ v ∈ earlier order uri, ∀ edge ∈ w.edgesFrom t v,
      edge.uri = uri → Workbench.recordOfFile? w.bench.analyzer.parse? t w.files edge = none)
    (hturn : uri ∈ order.map Prod.fst) :
    ∃ settings, (uri, settings) ∈ order
      ∧ (w.step loader .clear).report? loader uri order
        = (w.session.document? uri).map fun _ =>
            problemsOf (w.knownIn t order uri) uri settings := by
  obtain ⟨before, settings, after, rfl, hfirst⟩ := exists_turn hturn
  rw [earlier_append hfirst] at hown
  have hprepared : (w.step loader .clear).bench.Prepared
      ((w.step loader .clear).lookedUp loader (refreshAll (before ++ (uri, settings) :: after)))
      loader t := {
    tokenizer := htokenizer
    idle := hidle
    fits := {
      linked := .clear _
      room := hroom
      within := fun _ hk => absurd hk List.not_mem_nil } }
  exact ⟨settings, List.mem_append_right _ List.mem_cons_self,
    report?_eq hprepared (Store.record?_clear w.store) (fun u hu v hv => mem_lookedUp.2 ⟨u, hu, hv⟩)
      hfirst hown⟩

/-- The same is known of an import if it had its turn in both orders or in none, or is
not unsaved. -/
theorem knownIn_congr {order' : List (Uri × Settings)} {edge : ImportEdge}
    (hedge : edge ∈ w.edgesFrom t uri)
    (hunsaved : w.Unsaved t edge → (edge.uri ∈ earlier order uri ↔ edge.uri ∈ earlier order' uri)) :
    w.knownIn t order uri edge.uri = w.knownIn t order' uri edge.uri := by
  by_cases huri : edge.uri = uri
  · rw [huri, knownIn_self, knownIn_self]
  rw [knownIn_import hedge huri, knownIn_import hedge huri]
  cases htext : w.textRecord? t edge.uri with
  | none => rw [ite_self, ite_self]
  | some r =>
    by_cases hfile : Workbench.recordOfFile? w.bench.analyzer.parse? t w.files edge = some r
    · -- the text and the file tell the same
      rw [hfile]
      split <;> split <;> rfl
    · simp only [hunsaved ⟨r, htext, hfile⟩]

/-- **The order matters for unsaved imports only.** After everything was forgotten let
some documents be refreshed, each of them once, in a store with room for all that is
looked up. A loader that fails once fails always. Then two orders report the same of a
document if the same of its unsaved imports have their turns before it. If the text of
the document has no record itself, no document that imports it may have its turn before
it, unless its file has no record either. -/
theorem reports_agree (w : Workspace) (loader : Loader) (order order' : List (Uri × Settings))
    (uri : Uri) (hidle : w.bench.analyzer.importing = [])
    (hloader : w.bench.tokenizer? loader = none → ∀ n, ∃ e, loader n = .error e)
    (hnodup : (order.map Prod.fst).Nodup) (horder : order'.Perm order)
    (hroom : ((w.step loader .clear).lookedUp loader (refreshAll order)).card
      ≤ w.store.capacity + 1)
    (hroom' : ((w.step loader .clear).lookedUp loader (refreshAll order')).card
      ≤ w.store.capacity + 1)
    (hown : ∀ t, w.bench.tokenizer? loader = some t → w.textRecord? t uri = none →
      ∀ v, v ∈ earlier order uri ∨ v ∈ earlier order' uri → ∀ edge ∈ w.edgesFrom t v,
        edge.uri = uri → Workbench.recordOfFile? w.bench.analyzer.parse? t w.files edge = none)
    (himports : ∀ t, w.bench.tokenizer? loader = some t →
      ∀ edge ∈ w.edgesFrom t uri, w.Unsaved t edge →
        (edge.uri ∈ earlier order uri ↔ edge.uri ∈ earlier order' uri)) :
    (w.step loader .clear).report? loader uri order
      = (w.step loader .clear).report? loader uri order' := by
  by_cases hturn : uri ∈ order.map Prod.fst
  · have hturn' : uri ∈ order'.map Prod.fst := (horder.map Prod.fst).mem_iff.2 hturn
    cases ht : w.bench.tokenizer? loader with
    | none =>
      have hunequipped : (w.step loader .clear).bench.Unequipped loader := {
        tokenizer := (Option.or_eq_none_iff.1 ht).1
        unavailable := hloader ht
        blank := ⟨.clear _, Store.record?_clear _⟩ }
      rw [report?_of_unequipped hunequipped hturn, report?_of_unequipped hunequipped hturn']
    | some t =>
      obtain ⟨settings, hmem, hreport⟩ := report?_cleared hidle ht hroom
        (fun htext v hv => hown t ht htext v (.inl hv)) hturn
      obtain ⟨settings', hmem', hreport'⟩ := report?_cleared hidle ht hroom'
        (fun htext v hv => hown t ht htext v (.inr hv)) hturn'
      -- there is one turn of the document, so its settings are the same
      obtain rfl : settings = settings' :=
        congrArg Prod.snd (List.inj_on_of_nodup_map hnodup hmem (horder.mem_iff.1 hmem') rfl)
      rw [hreport, hreport']
      congr 1
      funext _
      refine problemsOf_congr (knownIn_self.trans knownIn_self.symm)
        fun r hr htokens edge hedge => ?_
      rw [← Record.followed_of_tokens htokens, ← edgesFrom_of_some (knownIn_self.symm.trans hr)]
        at hedge
      exact knownIn_congr hedge (himports t ht edge hedge)
  · rw [report?_of_notMem hturn, report?_of_notMem fun h => hturn ((horder.map Prod.fst).mem_iff.1 h)]

namespace Sample

/-- A session in which the script with the template is open, and so is the script that it
imports. -/
def both (files : FileSystem) : Workspace :=
  ⟨⟨[document, .ofText importedUri 1 (String.ofList imported.text)],
    { Workbench.empty 1 with analyzer := .new parse? }⟩, files⟩

/-- A session in which the text of the script with the template is no script any more.
Its file is the script that it was, and an open script imports it. -/
def broken : Workspace :=
  ⟨⟨[.ofText Sample.uri 1 "?", .ofText importedUri 1 (String.ofList tangled.text)],
    { Workbench.empty 1 with
      analyzer := .new fun cs => if tangled.text = cs then some tangled else parse? cs }⟩,
    [(.ofText "/a.js", .text (String.ofList importing.text))]⟩

/-- The session in which the imported script was saved. -/
def saved : Workspace := both [(.ofText "/b.js", file)]

/-- A loader that fails when it is asked first. -/
def flaky : Loader
  | 0 => .error .noTree
  | n + 1 => Sample.loader (n + 1)

/-- All open documents have their turns, in both orders, and there is room for them. -/
structure TakesTurns (w : Workspace) (loader : Loader) : Prop where
  all : w.session.openUris = scriptFirst.map Prod.fst
  idle : w.bench.analyzer.importing = []
  room : ((w.step loader .clear).lookedUp loader (refreshAll scriptFirst)).card
    ≤ w.store.capacity + 1
  room' : ((w.step loader .clear).lookedUp loader (refreshAll scriptFirst.reverse)).card
    ≤ w.store.capacity + 1

/-- What is looked up after everything was forgotten, and how much is reported of the
script with the template. -/
def course (w : Workspace) (loader : Loader) (order : List (Uri × Settings)) :
    List Uri × Option Nat :=
  (((w.step loader .clear).uses loader (refreshAll order)).filterMap Use.uri?,
    ((w.step loader .clear).report? loader Sample.uri order).map List.length)

variable {uses uses' : List Uri} {count count' : Option Nat}

/-- The courses of both orders tell whether there is room. -/
theorem TakesTurns.of_courses
    (hopen : w.session.openUris = scriptFirst.map Prod.fst) (hidle : w.bench.analyzer.importing = [])
    (hcourses : (course w loader scriptFirst, course w loader scriptFirst.reverse)
      = ((uses, count), uses', count'))
    (hroom : uses.toFinset.card ≤ w.store.capacity + 1)
    (hroom' : uses'.toFinset.card ≤ w.store.capacity + 1) : TakesTurns w loader := by
  obtain ⟨hcourse, hcourse'⟩ := Prod.mk.inj hcourses
  obtain ⟨huses, -⟩ := Prod.mk.inj hcourse
  obtain ⟨huses', -⟩ := Prod.mk.inj hcourse'
  exact {
    all := hopen
    idle := hidle
    room := by rwa [lookedUp, huses]
    room' := by rwa [lookedUp, huses'] }

theorem courses_both :
    (course (both []) Sample.loader scriptFirst, course (both []) Sample.loader scriptFirst.reverse)
      = (([Sample.uri, importedUri, Sample.uri, importedUri, importedUri, importedUri, importedUri],
          some 2),
        [importedUri, importedUri, Sample.uri, importedUri, Sample.uri, importedUri, importedUri],
          some 1) := by
  cbv

theorem courses_broken :
    (course broken Sample.loader scriptFirst, course broken Sample.loader scriptFirst.reverse)
      = (([Sample.uri, importedUri, Sample.uri, Sample.uri, importedUri, importedUri, Sample.uri,
          importedUri, Sample.uri, importedUri], some 0),
        [importedUri, Sample.uri, Sample.uri, importedUri, importedUri, Sample.uri, importedUri,
          Sample.uri, importedUri, Sample.uri, importedUri, importedUri], some 2) := by
  cbv

theorem courses_flaky :
    (course (both []) flaky scriptFirst, course (both []) flaky scriptFirst.reverse)
      = (([Sample.uri, importedUri, importedUri], some 0),
        [importedUri, Sample.uri, importedUri, Sample.uri, importedUri, importedUri], some 2) := by
  cbv

theorem courses_saved :
    (course saved Sample.loader scriptFirst, course saved Sample.loader scriptFirst.reverse)
      = (([Sample.uri, importedUri, importedUri, Sample.uri, importedUri, importedUri, importedUri,
          importedUri], some 1),
        [importedUri, importedUri, Sample.uri, importedUri, Sample.uri, importedUri, importedUri],
          some 1) := by
  cbv

end Sample

open Workspace.Sample in
/-- Two orders report differently of the script with the template: if the imported script
was never saved, it is known in one of them only; if the text of the script itself is no
script any more, its file is known in one of them only; and if there is no tokenizer for
the first document, nothing is reported of it. -/
theorem reports_disagree :
    (TakesTurns (both []) Sample.loader
        ∧ (((both []).step Sample.loader .clear).report? Sample.loader Sample.uri scriptFirst).map
            List.length = some 2
        ∧ (((both []).step Sample.loader .clear).report? Sample.loader Sample.uri
            scriptFirst.reverse).map List.length = some 1)
      ∧ (TakesTurns broken Sample.loader
        ∧ ((broken.step Sample.loader .clear).report? Sample.loader Sample.uri scriptFirst).map
            List.length = some 0
        ∧ ((broken.step Sample.loader .clear).report? Sample.loader Sample.uri
            scriptFirst.reverse).map List.length = some 2)
      ∧ TakesTurns (both []) flaky
        ∧ (((both []).step flaky .clear).report? flaky Sample.uri scriptFirst).map List.length
          = some 0
        ∧ (((both []).step flaky .clear).report? flaky Sample.uri scriptFirst.reverse).map
            List.length = some 2 := by
  refine ⟨⟨?_, congrArg (·.1.2) courses_both, congrArg (·.2.2) courses_both⟩,
    ⟨?_, congrArg (·.1.2) courses_broken, congrArg (·.2.2) courses_broken⟩,
    ?_, congrArg (·.1.2) courses_flaky, congrArg (·.2.2) courses_flaky⟩
  · exact .of_courses rfl rfl courses_both (by decide) (by decide)
  · exact .of_courses rfl rfl courses_broken (by decide) (by decide)
  · exact .of_courses rfl rfl courses_flaky (by decide) (by decide)

open Workspace.Sample in
/-- When the imported script was saved, its file tells what its text tells. -/
theorem reports_agree_saved :
    TakesTurns saved Sample.loader
      ∧ ∃ t, saved.bench.tokenizer? Sample.loader = some t
        ∧ (saved.textRecord? t Sample.uri).isSome
        ∧ (∀ edge ∈ saved.edgesFrom t Sample.uri, ¬ saved.Unsaved t edge)
        ∧ (saved.edgesFrom t Sample.uri).map ImportEdge.uri = [importedUri]
        ∧ (saved.step Sample.loader .clear).report? Sample.loader Sample.uri scriptFirst
          = (saved.step Sample.loader .clear).report? Sample.loader Sample.uri
              scriptFirst.reverse := by
  obtain ⟨t, ht⟩ : ∃ t, t = fun _ : List String => Markup.Tokenization.reported
      [⟨.startTagName, 0, 1, 4, "b-b"⟩, ⟨.startTagName, 0, 6, 9, "c-c"⟩] none := ⟨_, rfl⟩
  have htokenizer : saved.bench.tokenizer? Sample.loader = some t := by
    rw [ht]
    rfl
  have hturns : TakesTurns saved Sample.loader :=
    .of_courses rfl rfl courses_saved (by decide) (by decide)
  have hedges : saved.edgesFrom t Sample.uri = [⟨importedUri, .ofText "/b.js"⟩] := by
    rw [ht]
    cbv
  have htext : (saved.textRecord? t Sample.uri).isSome := by
    rw [Option.isSome_iff_ne_none]
    intro hnone
    rw [edgesFrom_of_none hnone] at hedges
    exact absurd hedges (by simp)
  -- the open document is what is in the file
  have hsaved : ∀ edge ∈ saved.edgesFrom t Sample.uri, ¬ saved.Unsaved t edge := by
    rw [hedges]
    rintro edge hedge ⟨r, hr, hfile⟩
    obtain rfl := List.mem_singleton.1 hedge
    have hread : saved.files.read (.ofText "/b.js") = .ok (String.ofList imported.text) := by rfl
    have hopen : saved.session.document? importedUri
        = some (.ofText importedUri 1 (String.ofList imported.text)) := by rfl
    rw [Workbench.recordOfFile?_ok hread] at hfile
    rw [textRecord?, hopen, Option.bind_some] at hr
    exact hfile hr
  refine ⟨hturns, t, htokenizer, htext, hsaved, by rw [hedges]; rfl, ?_⟩
  refine reports_agree saved Sample.loader scriptFirst scriptFirst.reverse Sample.uri
    hturns.idle (fun hnone => ?_) (by decide) (List.reverse_perm _) hturns.room
    hturns.room' (fun t' ht' hnone => ?_) fun t' ht' edge hedge hunsaved => ?_
  · rw [hnone] at htokenizer
    exact absurd htokenizer (by simp)
  · obtain rfl : t = t' := Option.some.inj (htokenizer.symm.trans ht')
    rw [hnone] at htext
    exact absurd htext (by simp)
  · obtain rfl : t = t' := Option.some.inj (htokenizer.symm.trans ht')
    exact absurd hunsaved (hsaved edge hedge)

end Workspace

end ElementLens
