/-
Where the records come from.

A record in the store is the one of the text that the document had in the editor
at its last refresh that succeeded, or else the one of the file that was read when
the document was first imported. Analyses that fail, files that change and look-ups
leave it alone. This holds since the store was last cleared, and as long as it
has room for all documents that are looked up:

* **`record?_after_eq`** — the record after some uses of the store;
* **`Workspace.lastRefresh?_uses`** — the last refresh among the uses is the last
  one that succeeded among the steps;
* **`Workspace.remembers_run`** — the records after some steps.
-/
import ElementLens.Proofs.Workspace.Run
import Mathlib

namespace ElementLens

namespace Store

namespace Use

/-- Whether everything is forgotten. -/
def isCleared : Use → Bool
  | cleared => true
  | looked _ | unset _ | refreshed _ _ | imported _ _ => false

/-- The document and its record, if it is a refresh of a document. -/
def refresh? (uri : Uri) : Use → Option (Document × Record)
  | refreshed d r => if d.uri = uri then some (d, r) else none
  | looked _ | unset _ | imported _ _ | cleared => none

/-- The document and its record, if it is an import of a document. -/
def import? (uri : Uri) : Use → Option (Document × Record)
  | imported d r => if d.uri = uri then some (d, r) else none
  | looked _ | unset _ | refreshed _ _ | cleared => none

end Use

/-- The uses since everything was last forgotten. -/
def sinceClear (uses : List Use) : List Use := uses.rtakeWhile fun u => !u.isCleared

/-- The last refresh of a document since everything was forgotten. -/
def lastRefresh? (uses : List Use) (uri : Uri) : Option (Document × Record) :=
  (sinceClear uses).reverse.findSome? (Use.refresh? uri)

/-- The first import of a document since everything was forgotten. -/
def firstImport? (uses : List Use) (uri : Uri) : Option (Document × Record) :=
  (sinceClear uses).findSome? (Use.import? uri)

variable {s : Store} {few : Finset Uri} {uses more : List Use} {uri : Uri} {u : Use}
  {d : Document} {r : Record}

theorem lastRefresh?_concat : lastRefresh? (uses ++ [u]) uri
    = if u.isCleared then none else (u.refresh? uri).or (lastRefresh? uses uri) := by
  unfold lastRefresh? sinceClear
  rw [List.rtakeWhile_concat]
  cases u.isCleared with
  | true => rfl
  | false =>
    simp only [Bool.not_false, if_true, List.reverse_concat, List.findSome?_cons]
    cases u.refresh? uri <;> rfl

theorem firstImport?_concat : firstImport? (uses ++ [u]) uri
    = if u.isCleared then none else (firstImport? uses uri).or (u.import? uri) := by
  unfold firstImport? sinceClear
  rw [List.rtakeWhile_concat]
  cases u.isCleared with
  | true => rfl
  | false =>
    simp only [Bool.not_false, if_true, List.findSome?_append, List.findSome?_cons,
      List.findSome?_nil]
    cases u.import? uri <;> rfl

theorem mem_of_lastRefresh? (h : lastRefresh? uses uri = some (d, r)) :
    .refreshed d r ∈ uses ∧ d.uri = uri := by
  obtain ⟨u, hu, hrefresh⟩ := List.exists_of_findSome?_eq_some h
  have hmem := (List.rtakeWhile_suffix _ uses).subset (List.mem_reverse.1 hu)
  cases u with
  | refreshed d' r' =>
    unfold Use.refresh? at hrefresh
    simp only at hrefresh
    split at hrefresh
    · next huri =>
      obtain ⟨rfl, rfl⟩ := Prod.mk.inj (Option.some.inj hrefresh)
      exact ⟨hmem, huri⟩
    · exact absurd hrefresh (by simp)
  | _ => exact absurd hrefresh (by simp [Use.refresh?])

theorem mem_of_firstImport? (h : firstImport? uses uri = some (d, r)) :
    .imported d r ∈ uses ∧ d.uri = uri := by
  obtain ⟨u, hu, himport⟩ := List.exists_of_findSome?_eq_some h
  have hmem := (List.rtakeWhile_suffix _ uses).subset hu
  cases u with
  | imported d' r' =>
    unfold Use.import? at himport
    simp only at himport
    split at himport
    · next huri =>
      obtain ⟨rfl, rfl⟩ := Prod.mk.inj (Option.some.inj himport)
      exact ⟨hmem, huri⟩
    · exact absurd himport (by simp)
  | _ => exact absurd himport (by simp [Use.import?])

theorem sinceClear_append (hkept : .cleared ∉ more) :
    sinceClear (uses ++ more) = sinceClear uses ++ more := by
  induction more using List.reverseRecOn with
  | nil => simp
  | append_singleton more u ih =>
    have hmore := ih fun hmem => hkept (List.mem_append_left _ hmem)
    have hu : u.isCleared = false := by
      cases u with
      | cleared => exact absurd (List.mem_append_right _ List.mem_cons_self) hkept
      | _ => rfl
    unfold sinceClear at hmore ⊢
    rw [← List.append_assoc, List.rtakeWhile_concat, if_pos (by simp [hu]), hmore,
      List.append_assoc]

theorem lastRefresh?_append (hkept : .cleared ∉ more) : lastRefresh? (uses ++ more) uri
    = (more.reverse.findSome? (Use.refresh? uri)).or (lastRefresh? uses uri) := by
  unfold lastRefresh?
  rw [sinceClear_append hkept, List.reverse_append, List.findSome?_append]

/-- A record that comes from an editor goes on to do so. -/
theorem isSome_lastRefresh?_append (hkept : .cleared ∉ more)
    (h : (lastRefresh? uses uri).isSome) : (lastRefresh? (uses ++ more) uri).isSome := by
  rw [lastRefresh?_append hkept, Option.isSome_or, h, Bool.or_true]

/-- Uses that neither refresh the document nor forget everything do not count. -/
theorem lastRefresh?_append_of_forall (hkept : .cleared ∉ more)
    (hother : ∀ d r, .refreshed d r ∈ more → d.uri ≠ uri) :
    lastRefresh? (uses ++ more) uri = lastRefresh? uses uri := by
  have hnone : more.reverse.findSome? (Use.refresh? uri) = none := by
    refine List.findSome?_eq_none_iff.2 fun u hu => ?_
    cases u with
    | refreshed d r => exact if_neg (hother d r (List.mem_reverse.1 hu))
    | looked v | unset v | imported d r | cleared => rfl
  rw [lastRefresh?_append hkept, hnone, Option.none_or]

theorem isSome_firstImport?_append (hkept : .cleared ∉ more)
    (h : (firstImport? uses uri).isSome) : (firstImport? (uses ++ more) uri).isSome := by
  unfold firstImport? at h ⊢
  rw [sinceClear_append hkept, List.findSome?_append, Option.isSome_or, h, Bool.true_or]

/-- The record of a document that had none comes from its last refresh, or else
from its first import. -/
theorem record?_after_eq (h : s.Linked) (hroom : few.card ≤ s.capacity + 1)
    (huses : ∀ u ∈ uses, ∀ uri, u.uri? = some uri → uri ∈ few)
    (hwithin : RecencyCache.Within few s) (hgaps : s.FillsGaps uses) (hnone : s.record? uri = none) :
    (s.after uses).record? uri
      = ((lastRefresh? uses uri).or (firstImport? uses uri)).map Prod.snd := by
  -- along the uses, the last one being the one that is added
  induction uses using List.reverseRecOn with
  | nil => exact hnone
  | append_singleton uses u ih =>
    have huses' : ∀ u ∈ uses, ∀ uri, u.uri? = some uri → uri ∈ few :=
      fun u hu => huses u (List.mem_append_left _ hu)
    obtain ⟨hgaps, hgap, -⟩ := fillsGaps_append.1 hgaps
    have hold := ih huses' hgaps
    rw [record?_after h hroom huses hwithin, List.foldl_concat,
      ← record?_after h hroom huses' hwithin, lastRefresh?_concat, firstImport?_concat]
    cases u with
    | looked v | unset v => simpa [Use.write, Use.isCleared, Use.refresh?, Use.import?] using hold
    | cleared => rfl
    | refreshed d r =>
      by_cases huri : d.uri = uri
      · simp [Use.write, Use.isCleared, Use.refresh?, huri]
      · simpa [Use.write, Use.isCleared, Use.refresh?, Use.import?, huri] using hold
    | imported d r =>
      by_cases huri : d.uri = uri
      · -- there was no record, so there was neither a refresh nor an import
        have hempty := hgap d r rfl
        rw [huri, hold, Option.map_eq_none_iff, Option.or_eq_none_iff] at hempty
        simp [Use.write, Use.isCleared, Use.refresh?, Use.import?, huri, hempty]
      · simpa [Use.write, Use.isCleared, Use.refresh?, Use.import?, huri] using hold

end Store

namespace Workspace

open Store (Use)

variable {loader : Loader} {w : Workspace} {steps before after : List Step} {uri : Uri}
  {d : Document}

theorem cleared_notMem_uses (hclear : .clear ∉ steps) : .cleared ∉ w.uses loader steps := by
  intro hu
  obtain ⟨before, a, after, rfl, hmem⟩ := exists_step_of_mem_uses hu
  obtain rfl : a = .clear := (proceeds_step loader _ a).allowed _ hmem
  exact hclear (List.mem_append_right _ List.mem_cons_self)

/-- The last refresh of a document that succeeded, after one more step: the text
that was open, and its record. -/
def latest (loader : Loader) (w : Workspace) (uri : Uri) (last : Option (Document × Record)) :
    Step → Option (Document × Record)
  | .refresh v _ =>
    if v = uri then
      ((w.session.document? uri).bind fun d =>
        (w.bench.analyze loader w.files d true).1.map fun r => (d, r)).or last
    else last
  | .clear => none
  | .openDocument _ _ _ | .change _ _ _ | .close _ | .diagnostics _ _ | .definition _ _ _
  | .hover _ _ _ | .resolve _ _ | .write _ _ | .remove _ => last

/-- The last refresh of a document that succeeded in some steps, since everything
was forgotten, or else the given one. -/
def lastRefreshed? (loader : Loader) (uri : Uri) (last : Option (Document × Record))
    (w : Workspace) : List Step → Option (Document × Record)
  | [] => last
  | a :: steps => lastRefreshed? loader uri (w.latest loader uri last a) (w.step loader a) steps

theorem lastRefresh?_usesToRefresh (uses : List Use) (settings : Settings)
    (hopen : w.session.document? uri = some d) :
    Store.lastRefresh? (uses ++ w.usesToRefresh loader uri settings) uri
      = ((w.bench.analyze loader w.files d true).1.map fun r => (d, r)).or
          (Store.lastRefresh? uses uri) := by
  obtain rfl := uri_of_document? hopen
  have hdiagnose := (w.bench.analyze loader w.files d true).2.store.looks_diagnose d.uri settings
  unfold usesToRefresh Workbench.usesToAnalyze Workbench.usesToAnalyzeSingle
  rw [hopen]
  simp only [← List.append_assoc]
  -- look-ups do not count, nor do imports
  rw [Store.lastRefresh?_append_of_forall
    (fun hu => by obtain ⟨v, hv⟩ := hdiagnose.looked _ hu; exact absurd hv (by simp))
    (fun d' r hu => by obtain ⟨v, hv⟩ := hdiagnose.looked _ hu; exact absurd hv (by simp))]
  unfold Workbench.analyze
  rcases hresult : w.bench.analyzeSingle loader d with ⟨e | r, b⟩
  · simp
  · have himports := b.proceeds_materializeAll loader w.files r.imports
    have hrefreshed : Store.lastRefresh? (uses ++ [.refreshed d r]) d.uri = some (d, r) := by
      rw [Store.lastRefresh?_concat]
      simp [Use.isCleared, Use.refresh?]
    cases hempty : r.templates.isEmpty with
    | true => simpa [hempty] using hrefreshed
    | false =>
      simp only [hempty, Bool.false_eq_true, if_false]
      rw [Store.lastRefresh?_append_of_forall (fun hu => himports.allowed _ hu)
        (fun d' r' hu => (himports.allowed _ hu).elim), hrefreshed]
      simp

/-- A refresh that succeeds, and no other step but one that forgets everything,
changes what the last refresh was. -/
theorem lastRefresh?_usesOf (uses : List Use) (a : Step) :
    Store.lastRefresh? (uses ++ w.usesOf loader a) uri
      = w.latest loader uri (Store.lastRefresh? uses uri) a := by
  -- only a refresh of the document gives it a record that counts
  have hallowed := (proceeds_step loader w a).allowed
  have hother (hne : ∀ settings, a ≠ .refresh uri settings) (hclear : a ≠ .clear) :
      Store.lastRefresh? (uses ++ w.usesOf loader a) uri = Store.lastRefresh? uses uri := by
    refine Store.lastRefresh?_append_of_forall (fun hu => hclear (hallowed _ hu)) ?_
    rintro d r hu rfl
    obtain ⟨settings, ha⟩ := (hallowed _ hu).step
    exact hne settings ha
  cases a with
  | refresh v settings =>
    by_cases hv : v = uri
    · subst hv
      rw [latest, if_pos rfl]
      cases hopen : w.session.document? v with
      | none =>
        have hnone : w.usesOf loader (.refresh v settings) = [] := by
          simp only [usesOf, usesToRefresh, hopen]
        rw [hnone, List.append_nil]
        rfl
      | some d => exact lastRefresh?_usesToRefresh uses settings hopen
    · rw [latest, if_neg hv]
      exact hother (fun _ heq => hv (Step.refresh.inj heq).1) (by simp)
  | clear => exact Store.lastRefresh?_concat
  | _ => exact hother (by simp) (by simp)

/-- The last refresh among the uses is the last one that succeeded. -/
theorem lastRefresh?_uses (uses : List Use) (steps : List Step) :
    Store.lastRefresh? (uses ++ w.uses loader steps) uri
      = lastRefreshed? loader uri (Store.lastRefresh? uses uri) w steps := by
  induction steps generalizing w uses with
  | nil => rw [Workspace.uses, List.append_nil, lastRefreshed?]
  | cons a steps ih =>
    rw [Workspace.uses, ← List.append_assoc, ih, lastRefresh?_usesOf, lastRefreshed?]

/-- The record of a document after some steps is known, and where it comes
from. -/
structure Remembers (loader : Loader) (w : Workspace) (steps : List Step) (uri : Uri) : Prop where
  /-- The store is what the listed uses make of it. -/
  store : (w.run loader steps).store = w.store.after (w.uses loader steps)
  /-- The parser is the same all the time. -/
  parser : (w.run loader steps).bench.analyzer.parse? = w.bench.analyzer.parse?
  /-- The record is the one given by the last refresh that succeeded since
  everything was forgotten, or else by the first import. -/
  record : ((w.run loader steps).store.analysis uri).1
    = ((lastRefreshed? loader uri none w steps).or
        (Store.firstImport? (w.uses loader steps) uri)).map Prod.snd
  /-- A refresh gives the record of the text that is open. -/
  refreshed : ∀ d r, lastRefreshed? loader uri none w steps = some (d, r) →
    (w.run loader steps).bench.Yields d r ∧ ∃ before a after, steps = before ++ a :: after
      ∧ d.uri = uri ∧ (w.run loader before).Refreshes loader a d r
  /-- An import gives the record of the text that is in the file. -/
  imported : ∀ d r, Store.firstImport? (w.uses loader steps) uri = some (d, r) →
    (w.run loader steps).bench.Yields d r ∧ ∃ before a after, steps = before ++ a :: after
      ∧ ∃ importer r', (w.run loader before).Refreshes loader a importer r'
        ∧ ∃ edge ∈ r'.imports, ∃ text : String, edge.uri = uri
          ∧ (w.run loader before).files.read edge.filePath = .ok text
          ∧ d = Document.ofText uri 1 text
  /-- A record does not disappear unless everything is forgotten. -/
  stays : ∀ before after, steps = before ++ after → .clear ∉ after →
    ((w.run loader before).store.analysis uri).1.isSome →
      ((w.run loader steps).store.analysis uri).1.isSome
  /-- What comes from an editor is not replaced by what is in a file. -/
  edited : ∀ before after, steps = before ++ after → .clear ∉ after →
    (lastRefreshed? loader uri none w before).isSome →
      (lastRefreshed? loader uri none w steps).isSome

/-- The documents that are looked up in some steps. -/
def lookedUp (loader : Loader) (w : Workspace) (steps : List Step) : Finset Uri :=
  ((w.uses loader steps).filterMap Use.uri?).toFinset

theorem mem_lookedUp : uri ∈ w.lookedUp loader steps
    ↔ ∃ u ∈ w.uses loader steps, u.uri? = some uri := by
  rw [lookedUp, List.mem_toFinset, List.mem_filterMap]

variable {parse? : List Char → Option (Syntax.Tree Script.Kind)} {capacity : Nat}
  {files : FileSystem}

/-- The record after some steps, if there is room for all documents. -/
theorem analysis_run (uri : Uri)
    (hfew : ((start parse? capacity files).lookedUp loader steps).card ≤ capacity + 1) :
    (((start parse? capacity files).run loader steps).store.analysis uri).1
      = ((Store.lastRefresh? ((start parse? capacity files).uses loader steps) uri).or
          (Store.firstImport? ((start parse? capacity files).uses loader steps) uri)).map
            Prod.snd := by
  have hproceeds := (start parse? capacity files).proceeds_run loader steps
  have hlinked : (Store.empty capacity).Linked := .empty capacity
  have hstore : ((start parse? capacity files).run loader steps).store
      = (Store.empty capacity).after ((start parse? capacity files).uses loader steps) :=
    hproceeds.store
  rw [hstore, Store.analysis_eq]
  refine Store.record?_after_eq hlinked hfew (fun u hu uri huri => ?_)
    (fun k hk => absurd hk List.not_mem_nil) hproceeds.fillsGaps rfl
  exact mem_lookedUp.2 ⟨u, hu, huri⟩

theorem lookedUp_mono (w : Workspace) (before after : List Step) :
    w.lookedUp loader before ⊆ w.lookedUp loader (before ++ after) := by
  intro uri huri
  obtain ⟨u, hu, hlooked⟩ := mem_lookedUp.1 huri
  refine mem_lookedUp.2 ⟨u, ?_, hlooked⟩
  rw [uses_append]
  exact List.mem_append_left _ hu

/-- **Where the records come from.** As long as the store has room for all
documents that are looked up, the record of a document is the one of the text
that was open at its last refresh that succeeded, or else of the file that was
read when it was first imported, since everything was last forgotten. -/
theorem remembers_run (parse? : List Char → Option (Syntax.Tree Script.Kind)) (loader : Loader)
    (capacity : Nat) (files : FileSystem) (steps : List Step)
    (hfew : ((start parse? capacity files).lookedUp loader steps).card ≤ capacity + 1)
    (uri : Uri) : Remembers loader (start parse? capacity files) steps uri := by
  have hproceeds := (start parse? capacity files).proceeds_run loader steps
  have hrecord := analysis_run uri hfew
  have hrefreshed (steps : List Step) :
      lastRefreshed? loader uri none (start parse? capacity files) steps
        = Store.lastRefresh? ((start parse? capacity files).uses loader steps) uri :=
    (lastRefresh?_uses [] steps).symm
  constructor
  case store => exact hproceeds.store
  case parser => exact hproceeds.keeps.1
  case record => rw [hrecord, hrefreshed]
  case refreshed =>
    intro d r hlast
    rw [hrefreshed] at hlast
    obtain ⟨hmem, rfl⟩ := Store.mem_of_lastRefresh? hlast
    refine ⟨hproceeds.sound _ hmem d r rfl, ?_⟩
    obtain ⟨before, a, after, hsteps, hu⟩ := exists_step_of_mem_uses hmem
    exact ⟨before, a, after, hsteps, rfl, (proceeds_step loader _ a).allowed _ hu⟩
  case imported =>
    intro d r hfirst
    obtain ⟨hmem, rfl⟩ := Store.mem_of_firstImport? hfirst
    refine ⟨hproceeds.sound _ hmem d r rfl, ?_⟩
    obtain ⟨before, a, after, hsteps, hu⟩ := exists_step_of_mem_uses hmem
    obtain ⟨importer, r', hrefreshes, edge, hedge, text, hread, rfl⟩ :=
      (proceeds_step loader _ a).allowed _ hu
    exact ⟨before, a, after, hsteps, importer, r', hrefreshes, edge, hedge, text, rfl, hread, rfl⟩
  case stays =>
    rintro before after rfl hclear hsome
    have hfew' := (Finset.card_le_card (lookedUp_mono _ before after)).trans hfew
    rw [analysis_run uri hfew', Option.isSome_map, Option.isSome_or, Bool.or_eq_true] at hsome
    rw [hrecord, Option.isSome_map, Option.isSome_or, Bool.or_eq_true, uses_append]
    exact hsome.imp (Store.isSome_lastRefresh?_append (cleared_notMem_uses hclear))
      (Store.isSome_firstImport?_append (cleared_notMem_uses hclear))
  case edited =>
    rintro before after rfl hclear hsome
    rw [hrefreshed] at hsome ⊢
    rw [uses_append]
    exact Store.isSome_lastRefresh?_append (cleared_notMem_uses hclear) hsome

/-- A script is refreshed, which imports another one; then it is no script any
more and is refreshed again, and the imported file is removed. -/
def Sample.edits : List Step :=
  [.write (.ofText "/b.js") Sample.file,
    .openDocument Sample.uri 1 (String.ofList Sample.importing.text), .refresh Sample.uri ⟨10⟩,
    .openDocument Sample.uri 2 "", .refresh Sample.uri ⟨10⟩, .remove (.ofText "/b.js"),
    .close Sample.uri]

theorem remembers_run_import :
    ((start Sample.parse? 1 []).lookedUp Sample.loader Sample.edits).card ≤ 1 + 1
      ∧ ((((start Sample.parse? 1 []).run Sample.loader Sample.edits).store.record?
            Sample.uri).map (·.tokens.map Token.tagName) = some ["b-b", "c-c"]
          ∧ (((start Sample.parse? 1 []).run Sample.loader Sample.edits).store.record?
            Sample.importedUri).map (·.elements.map Prod.fst) = some ["b-b"])
      ∧ ∀ uri, Remembers Sample.loader (start Sample.parse? 1 []) Sample.edits uri := by
  have huses : ((start Sample.parse? 1 []).uses Sample.loader Sample.edits).filterMap Use.uri?
      = [Sample.uri, Sample.importedUri, Sample.importedUri, Sample.uri, Sample.importedUri,
        Sample.importedUri, Sample.uri, Sample.importedUri, Sample.importedUri, Sample.uri] := by
    cbv
  have hfew : ((start Sample.parse? 1 []).lookedUp Sample.loader Sample.edits).card ≤ 1 + 1 := by
    rw [lookedUp, huses]
    decide
  exact ⟨hfew, by cbv, fun uri => remembers_run _ _ _ _ _ hfew uri⟩

end Workspace

end ElementLens
