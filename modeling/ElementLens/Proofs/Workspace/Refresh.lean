/-
A refresh reports exactly the unresolved start tags.

A refresh stores the record of the document, then looks at the imported modules,
then looks tag names up in all of these records. Each look-up may make the store
forget something, but not one of these records, if the store has room for one
more document than there are imports:

* **`Workbench.knows_analyze`** — the store after the analysis still has the record
  of the document, and the imports were looked up last;
* **`Store.Serves`** — a store in which looking up some documents changes
  nothing;
* **`Session.refresh_reports`** — what a refresh reports.
-/
import ElementLens.Proofs.Navigation.Texts
import ElementLens.Proofs.Store.LookUps
import ElementLens.Proofs.Workspace.Run
import Mathlib

namespace ElementLens

/-- The document of a record and the modules that it imports. -/
def Record.around (r : Record) (uri : Uri) : Finset Uri :=
  insert uri (r.imports.map ImportEdge.uri).toFinset

theorem Record.mem_around {r : Record} {uri : Uri} {edge : ImportEdge} (hedge : edge ∈ r.imports) :
    edge.uri ∈ r.around uri :=
  Finset.mem_insert_of_mem (List.mem_toFinset.2 (List.mem_map_of_mem hedge))

theorem Record.card_around_le {r : Record} {uri : Uri} {n : Nat}
    (h : ((r.imports.map ImportEdge.uri).toFinset.erase uri).card ≤ n) :
    (r.around uri).card ≤ n + 1 := by
  have hle : (r.around uri).card - 1 ≤ ((r.around uri).erase uri).card :=
    Finset.pred_card_le_card_erase
  rw [around, Finset.erase_insert_eq_erase, ← around] at hle
  omega

namespace Store

variable {few : Finset Uri} {known : Uri → Option Record} {s : Store} {uri v : Uri}

/-- Looking up some documents changes nothing: all of them were looked up last,
and there is room for them. -/
structure Serves (few : Finset Uri) (known : Uri → Option Record) (s : Store) : Prop where
  linked : s.Linked
  room : few.card ≤ s.capacity + 1
  recent : ∀ v ∈ few, RecencyCache.Recent few s v
  record : ∀ v ∈ few, s.record? v = known v

namespace Serves

theorem lookup (h : Serves few known s) (hv : v ∈ few) :
    (s.analysis v).1 = known v ∧ Serves few known (s.analysis v).2 := by
  refine ⟨(analysis_eq s v).trans (h.record v hv), ?_⟩
  obtain ⟨e, hputs, -⟩ := (Use.looked v).puts h.linked rfl
  exact {
    linked := hputs.linked
    room := by
      show few.card ≤ (Use.act s (.looked v)).capacity + 1
      rw [hputs.capacity]
      exact h.room
    recent := fun j hj => hputs.recent h.linked h.room hv (h.recent j hj)
    record := fun j hj =>
      (Use.record?_act_recent h.linked h.room (u := .looked v) rfl hv (h.recent j hj)).trans
        (h.record j hj) }

theorem steady (few : Finset Uri) (known : Uri → Option Record) :
    Steady few known (Serves few known) :=
  fun _ h _ hv => h.lookup hv

end Serves

/-- A store in which a document has a record and was looked up last; if it has
templates, the modules it imports were looked up last, too. -/
structure Knows (few : Finset Uri) (uri : Uri) (r : Record) (s : Store) : Prop where
  linked : s.Linked
  room : few.card ≤ s.capacity + 1
  record : s.record? uri = some r
  recent : RecencyCache.Recent few s uri
  imports : r.templates.isEmpty = false → ∀ edge ∈ r.imports, RecencyCache.Recent few s edge.uri

/-- A record stays while files are imported. -/
theorem record?_after_imports {uses : List Use} {r : Record} (h : s.Linked)
    (hroom : few.card ≤ s.capacity + 1) (huses : ∀ u ∈ uses, ∃ uri ∈ few, u.uri? = some uri)
    (hgaps : s.FillsGaps uses) (hfiles : ∀ u ∈ uses, ∀ d r, u ≠ .refreshed d r)
    (hv : RecencyCache.Recent few s v) (hr : s.record? v = some r) :
    (s.after uses).record? v = some r := by
  induction uses generalizing s with
  | nil => exact hr
  | cons u uses ih =>
    obtain ⟨uri, huri, hu⟩ := huses u List.mem_cons_self
    obtain ⟨e, hputs, -⟩ := u.puts h hu
    refine ih hputs.linked (by rw [hputs.capacity]; exact hroom)
      (fun u' hu' => huses u' (List.mem_cons_of_mem _ hu')) hgaps.2
      (fun u' hu' => hfiles u' (List.mem_cons_of_mem _ hu')) (hputs.recent h hroom huri hv) ?_
    rw [Use.record?_act_recent h hroom hu huri hv, hr]
    cases u with
    | imported d r' =>
      -- an import does not get a record if it has one
      refine if_neg fun hd => ?_
      have hnone := hgaps.1 d r' rfl
      rw [hd, hr] at hnone
      exact absurd hnone (by simp)
    | refreshed d r' => exact absurd rfl (hfiles _ List.mem_cons_self d r')
    | cleared => exact absurd hu (by simp [Use.uri?])
    | looked v | unset v => rfl

end Store

namespace Workbench

open Store (Use)

variable {w : Workbench} {loader : Loader} {files : FileSystem} {edge : ImportEdge}
  {edges : List ImportEdge} {u : Use} {few : Finset Uri} {d : Document} {r : Record}

theorem uri?_of_mem_usesToMaterialize (hu : u ∈ w.usesToMaterialize loader files edge) :
    u.uri? = some edge.uri := by
  unfold usesToMaterialize at hu
  rcases List.mem_cons.1 hu with rfl | hu
  · rfl
  · split at hu
    · exact absurd hu List.not_mem_nil
    · unfold usesToReadImport at hu
      split at hu
      · exact absurd hu List.not_mem_nil
      · unfold usesToAnalyzeSingle at hu
        split at hu
        · exact absurd hu List.not_mem_nil
        · rw [List.mem_singleton.1 hu]
          rfl

theorem exists_edge_of_mem_uses (hu : u ∈ w.usesToMaterializeAll loader files edges) :
    ∃ edge ∈ edges, u.uri? = some edge.uri := by
  induction edges generalizing w with
  | nil => exact absurd hu List.not_mem_nil
  | cons edge edges ih =>
    rcases List.mem_append.1 hu with hu | hu
    · exact ⟨edge, List.mem_cons_self, uri?_of_mem_usesToMaterialize hu⟩
    · obtain ⟨edge', hedge, huri⟩ := ih hu
      exact ⟨edge', List.mem_cons_of_mem _ hedge, huri⟩

theorem looked_mem_uses (hedge : edge ∈ edges) :
    .looked edge.uri ∈ w.usesToMaterializeAll loader files edges := by
  induction edges generalizing w with
  | nil => exact absurd hedge List.not_mem_nil
  | cons edge' edges ih =>
    rcases List.mem_cons.1 hedge with rfl | hedge
    · exact List.mem_append_left _ List.mem_cons_self
    · exact List.mem_append_right _ (ih hedge)

/-- The imports are looked up, and the record stays. -/
theorem knows_materializeAll {uri : Uri} (h : w.store.Linked)
    (hroom : few.card ≤ w.store.capacity + 1) (hrecord : w.store.record? uri = some r)
    (hrecent : RecencyCache.Recent few w.store uri) (himports : ∀ edge ∈ r.imports, edge.uri ∈ few) :
    Store.Knows few uri r (r.imports.foldl (materialize loader files) w).store := by
  -- all that is looked up is among the few documents
  have hproceeds := w.proceeds_materializeAll loader files r.imports
  have huses : ∀ u ∈ w.usesToMaterializeAll loader files r.imports,
      ∃ v ∈ few, u.uri? = some v := by
    intro u hu
    obtain ⟨edge, hedge, huri⟩ := exists_edge_of_mem_uses hu
    exact ⟨edge.uri, himports edge hedge, huri⟩
  rw [hproceeds.store]
  exact {
    linked := Store.linked_after h _
    room := by rwa [Store.capacity_after h]
    record := by
      refine Store.record?_after_imports h hroom huses hproceeds.fillsGaps ?_ hrecent hrecord
      rintro u hu d r rfl
      exact (hproceeds.allowed _ hu).elim
    recent := Store.recent_after h hroom huses (.inl hrecent)
    imports := fun _ edge hedge =>
      Store.recent_after h hroom huses (.inr ⟨_, looked_mem_uses hedge, rfl⟩) }

/-- After an analysis its record is there, and the imports were looked up
last. -/
theorem knows_analyze (h : w.store.Linked) (hroom : few.card ≤ w.store.capacity + 1)
    (hok : (w.analyze loader files d true).1 = some r) (hd : d.uri ∈ few)
    (himports : ∀ edge ∈ r.imports, edge.uri ∈ few) :
    Store.Knows few d.uri r (w.analyze loader files d true).2.store := by
  unfold analyze at hok ⊢
  have hcases := w.analyzeSingle_cases loader d
  rcases hresult : w.analyzeSingle loader d with ⟨e | r', w₁⟩
  · simp [hresult] at hok
  · rw [hresult] at hcases
    obtain ⟨-, ⟨e, herror, -⟩ | ⟨r'', hsingle, hstore, -⟩⟩ := hcases
    · exact absurd herror (by simp)
    obtain rfl : r' = r'' := Except.ok.inj hsingle
    simp only [hresult] at hok ⊢
    obtain rfl : r' = r := by split at hok <;> exact Option.some.inj hok
    -- the document itself is the one that was looked up last of all
    obtain ⟨e, hputs, he⟩ := (Use.refreshed d r').puts h rfl
    have hlinked : w₁.store.Linked := hstore ▸ hputs.linked
    have hroom' : few.card ≤ w₁.store.capacity + 1 := by
      rw [show w₁.store.capacity = w.store.capacity from hstore ▸ hputs.capacity]
      exact hroom
    have hrecord : w₁.store.record? d.uri = some r' := by
      rw [show w₁.store = (Use.refreshed d r').act w.store from hstore,
        Store.record?_eq_of_puts hputs, he]
      exact if_pos rfl
    have hrecent : RecencyCache.Recent few w₁.store d.uri := hstore ▸ hputs.recent_self hd
    cases hempty : r'.templates.isEmpty with
    | true =>
      simp only [Bool.not_true, Bool.and_false, Bool.false_eq_true, if_false]
      exact ⟨hlinked, hroom', hrecord, hrecent, fun hne => absurd (hempty.symm.trans hne) (by simp)⟩
    | false =>
      simp only [Bool.not_false, Bool.and_self, if_true]
      exact knows_materializeAll hlinked hroom' hrecord hrecent himports

end Workbench

namespace Store

variable {s : Store} {uri : Uri} {r : Record}

/-- What is unresolved depends on the records of the imported modules only. -/
theorem unresolved_congr {known known' : Uri → Option Record}
    (h : ∀ edge ∈ r.imports, known edge.uri = known' edge.uri) :
    unresolved known r = unresolved known' r := by
  funext t
  unfold unresolved
  congr 1
  rw [Bool.eq_iff_iff, List.all_eq_true, List.all_eq_true]
  exact forall₂_congr fun edge hedge => by rw [h edge hedge]

/-- If there are templates, the document and its imports can be looked up. -/
theorem Knows.serves (h : Knows (r.around uri) uri r s) (htemplates : r.templates.isEmpty = false) :
    Serves (r.around uri) s.record? s where
  linked := h.linked
  room := h.room
  recent v hv := by
    rcases Finset.mem_insert.1 hv with rfl | hv
    · exact h.recent
    · obtain ⟨edge, hedge, rfl⟩ := List.mem_map.1 (List.mem_toFinset.1 hv)
      exact h.imports htemplates edge hedge
  record _ _ := rfl

/-- What is reported of a document with a record that was looked up last. -/
theorem diagnose_reports (h : Knows (r.around uri) uri r s) (settings : Settings) :
    (s.diagnose uri settings).1.diagnostics
        = ((r.tokens.filter (unresolved (s.diagnose uri settings).2.record? r)).take
            settings.maxProblems).map Diagnostic.undefined
      ∧ (s.diagnose uri settings).2.record? uri = some r := by
  have huri : uri ∈ r.around uri := Finset.mem_insert_self _ _
  have hfound : (s.analysis uri).1 = some r := (analysis_eq s uri).trans h.record
  unfold diagnose
  rcases hlook : s.analysis uri with ⟨record, s'⟩
  obtain rfl : record = some r := by rw [hlook] at hfound; exact hfound
  simp only
  cases hempty : r.templates.isEmpty with
  | true =>
    -- there is nothing to look up
    have htokens : r.tokens = [] := by
      rw [Record.tokens, List.isEmpty_iff.1 hempty, List.flatMap_nil]
    have hrecord : s'.record? uri = some r := by
      rw [show s' = (s.analysis uri).2 from (congrArg Prod.snd hlook).symm]
      exact (analysis_fst s uri).symm.trans hfound
    rw [htokens]
    exact ⟨by simp [diagnoseTokens], hrecord⟩
  | false =>
    have hserves := h.serves hempty
    have hserves' := (hserves.lookup huri).2
    rw [hlook] at hserves'
    obtain ⟨hreported, hafter⟩ := (Serves.steady _ _).diagnoseTokens hserves' uri
      (fun _ => Record.mem_around) [] settings.maxProblems r.tokens
    refine ⟨?_, (hafter.record uri huri).trans h.record⟩
    rw [unresolved_congr fun edge hedge => hafter.record edge.uri (Record.mem_around hedge)]
    exact hreported

end Store

theorem Workbench.fst_diagnose (w : Workbench) (uri : Uri) (settings : Settings) :
    (w.diagnose uri settings).1 = (w.store.diagnose uri settings).1.diagnostics := rfl

theorem Workbench.store_diagnose (w : Workbench) (uri : Uri) (settings : Settings) :
    (w.diagnose uri settings).2.store = (w.store.diagnose uri settings).2 := by
  unfold diagnose
  simp only
  split <;> rfl

namespace Session

variable {s : Session} {loader : Loader} {files : FileSystem} {settings : Settings} {uri : Uri}
  {d : Document} {r : Record}

/-- **A refresh reports exactly the unresolved start tags.** If the analysis of
an open document has a record, and the store has room for the document and what
it imports, then a refresh reports, in the order of the tokens, as many of the
start tags as may be reported that neither the record nor a record of an imported
module defines, each where it stands and by its name; and the store has the record of
the document. -/
theorem refresh_reports (s : Session) (loader : Loader) (files : FileSystem) (settings : Settings)
    (hlinked : s.store.Linked) (hopen : s.document? uri = some d)
    (hok : (s.bench.analyze loader files d true).1 = some r)
    (hfew : ((r.imports.map ImportEdge.uri).toFinset.erase uri).card ≤ s.store.capacity) :
    (∃ problems, (s.refresh loader files uri settings).1 = some problems
        ∧ List.Forall₂ Diagnostic.Reports problems
          ((r.tokens.filter
            (Store.unresolved (s.refresh loader files uri settings).2.store.record? r)).take
              settings.maxProblems))
      ∧ (s.refresh loader files uri settings).2.store.record? uri = some r := by
  obtain rfl : d.uri = uri := by simpa using List.find?_some hopen
  have hknows : (s.bench.analyze loader files d true).2.store.Knows (r.around d.uri) d.uri r :=
    Workbench.knows_analyze hlinked (Record.card_around_le hfew) hok (Finset.mem_insert_self _ _)
      fun _ => Record.mem_around
  obtain ⟨hreported, hrecord⟩ := Store.diagnose_reports hknows settings
  rw [fst_refresh loader files settings hopen, store, bench_refresh loader files settings hopen,
    Workbench.fst_diagnose, Workbench.store_diagnose, hreported]
  exact ⟨⟨_, rfl, Diagnostic.forall₂_reports _⟩, hrecord⟩

/-- A session in which one script is open. -/
def Sample.session : Session :=
  ⟨[Workspace.Sample.document],
    { Workbench.empty 1 with analyzer := .new Workspace.Sample.parse? }⟩

/-- The script is refreshed where the module that it imports can be read. -/
def Sample.refreshed : Option (List Diagnostic) × Session :=
  Sample.session.refresh Workspace.Sample.loader [(.ofText "/b.js", Workspace.Sample.file)]
    Workspace.Sample.uri ⟨10⟩

/-- Of the two start tags of the script the imported module defines one. -/
theorem refresh_reports_one :
    ∃ r : Record,
      (Sample.session.bench.analyze Workspace.Sample.loader
          [(.ofText "/b.js", Workspace.Sample.file)] Workspace.Sample.document true).1 = some r
        ∧ ((r.imports.map ImportEdge.uri).toFinset.erase Workspace.Sample.uri).card ≤ 1
        ∧ r.tokens.map Token.tagName = ["b-b", "c-c"]
        ∧ (∃ problems, Sample.refreshed.1 = some problems
            ∧ List.Forall₂ Diagnostic.Reports problems
              ((r.tokens.filter (Store.unresolved Sample.refreshed.2.store.record? r)).take 10))
        ∧ Sample.refreshed.2.store.record? Workspace.Sample.uri = some r := by
  obtain ⟨r, hr⟩ : ∃ r : Record, r = ⟨.ofText "/a.js",
      [⟨Workspace.Sample.importedUri, .ofText "/b.js"⟩], [],
      [⟨⟨⟨0, 18⟩, ⟨0, 30⟩⟩, [⟨.startTagName, ⟨⟨0, 20⟩, ⟨0, 23⟩⟩, "b-b"⟩,
        ⟨.startTagName, ⟨⟨0, 25⟩, ⟨0, 28⟩⟩, "c-c"⟩]⟩]⟩ := ⟨_, rfl⟩
  have hok : (Sample.session.bench.analyze Workspace.Sample.loader
      [(.ofText "/b.js", Workspace.Sample.file)] Workspace.Sample.document true).1 = some r := by
    rw [hr]
    cbv
  have hfew : ((r.imports.map ImportEdge.uri).toFinset.erase Workspace.Sample.uri).card ≤ 1 := by
    rw [hr]
    decide
  have hopen : Sample.session.document? Workspace.Sample.uri = some Workspace.Sample.document := by
    cbv
  have hreports := refresh_reports Sample.session Workspace.Sample.loader
    [(.ofText "/b.js", Workspace.Sample.file)] ⟨10⟩ (.empty 1) hopen hok hfew
  exact ⟨r, hok, hfew, by rw [hr]; decide, hreports⟩

end Session

end ElementLens
