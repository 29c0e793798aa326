/-
The modules that a document imports.

When a document with templates is analysed, each module that it imports is looked
up, and gets the record of its file if it has none. Only these modules are, not what
they import in turn. Two imports under one URI are imports of one file, so it does
not matter in which order the imports stand, or how often:

* **`Primed.record?_materialize`** — one import, in a store with room;
* **`Primed.record?_foldl_materialize`** — some imports, and the records that they
  fill in (`importOf?`);
* **`importOf?_congr`** — their order and multiplicity do not matter;
* **`Workbench.analyze_one_hop`** — what an analysis with imports leaves behind.
-/
import ElementLens.Proofs.Component.Edges
import ElementLens.Proofs.Workspace.Failures
import ElementLens.Proofs.Workspace.Refresh

namespace ElementLens

namespace Store

variable {s : Store} {few : Finset Uri} {uses : List Use} {uri v : Uri} {old : Option Record}

/-- Uses of other documents leave the record of a document alone. -/
theorem foldl_write_of_forall (huses : ∀ u ∈ uses, ∃ w, u.uri? = some w ∧ v ≠ w) :
    uses.foldl (Use.write v) old = old := by
  induction uses generalizing old with
  | nil => rfl
  | cons u uses ih =>
    obtain ⟨w, hw, hne⟩ := huses u List.mem_cons_self
    rw [List.foldl_cons, Use.write_of_ne hw hne]
    exact ih fun u' hu' => huses u' (List.mem_cons_of_mem _ hu')

theorem mem_keys_after (h : s.Linked) (hv : v ∈ (s.after uses).keys) :
    v ∈ s.keys ∨ ∃ u ∈ uses, u.uri? = some v := by
  induction uses generalizing s with
  | nil => exact .inl hv
  | cons u uses ih =>
    rcases ih (Use.linked_act h u) hv with hmem | ⟨u', hu', huri⟩
    · cases hu : u.uri? with
      | none =>
        rw [Use.eq_cleared hu] at hmem
        exact absurd hmem List.not_mem_nil
      | some uri =>
        obtain ⟨e, hputs, -⟩ := u.puts h hu
        rcases hputs.mem_keys hmem with hmem | rfl
        · exact .inl hmem
        · exact .inr ⟨u, List.mem_cons_self, hu⟩
    · exact .inr ⟨u', List.mem_cons_of_mem _ hu', huri⟩

/-- In a store with room, the documents after some uses are those that there were
and those that were looked up. -/
theorem Fits.contains_after (h : Fits few s) (huses : ∀ u ∈ uses, ∃ w ∈ few, u.uri? = some w) :
    (s.after uses).contains v = true
      ↔ s.contains v = true ∨ ∃ u ∈ uses, u.uri? = some v := by
  rw [(linked_after h.linked uses).contains_iff, h.linked.contains_iff]
  refine ⟨mem_keys_after h.linked, fun hv => (recent_after h.linked h.room huses ?_).mem⟩
  exact hv.imp_left h.within.recent

end Store

/-- The imports of a document that are followed: all of them, if there are
templates. -/
def Record.followed (r : Record) : List ImportEdge :=
  if r.templates.isEmpty then [] else r.imports

theorem Record.followed_of_ne {r : Record} (h : r.templates ≠ []) : r.followed = r.imports := by
  rw [followed, if_neg (by simpa using h)]

theorem Record.followed_of_tokens {r : Record} (h : r.tokens ≠ []) : r.followed = r.imports := by
  refine r.followed_of_ne fun htemplates => h ?_
  rw [tokens, htemplates, List.flatMap_nil]

theorem Record.followed_subset (r : Record) : r.followed ⊆ r.imports := by
  unfold followed
  split
  · exact List.nil_subset _
  · exact List.Subset.refl _

/-- The URI of an import in a record determines all of it. -/
theorem ImportEdge.Resolved.ext {edge edge' : ImportEdge} (h : edge.Resolved)
    (h' : edge'.Resolved) (huri : edge.uri = edge'.uri) : edge = edge' := by
  cases edge
  cases edge'
  exact congrArg₂ ImportEdge.mk huri (h.filePath_eq h' huri)

namespace Workbench

open Store (Use)

/-! ### What imports fill in -/

/-- The record that some imports have for a document: that of the first file that
has one. -/
def importOf? (parse? : List Char → Option (Syntax.Tree Script.Kind)) (t : Markup.Tokenizer)
    (files : FileSystem) (edges : List ImportEdge) (uri : Uri) : Option Record :=
  edges.findSome? fun edge =>
    if edge.uri = uri then recordOfFile? parse? t files edge else none

section ImportOf

variable {parse? : List Char → Option (Syntax.Tree Script.Kind)} {t : Markup.Tokenizer}
  {files : FileSystem} {edges edges' : List ImportEdge} {edge : ImportEdge} {uri : Uri}

@[simp] theorem importOf?_nil : importOf? parse? t files [] uri = none := rfl

theorem importOf?_of_forall (h : ∀ edge ∈ edges, edge.uri ≠ uri) :
    importOf? parse? t files edges uri = none :=
  List.findSome?_eq_none_iff.2 fun edge hedge => if_neg (h edge hedge)

/-- Of the imports of one module, any one tells its record. -/
theorem importOf?_of_mem (hresolved : ∀ edge ∈ edges, edge.Resolved) (hedge : edge ∈ edges) :
    importOf? parse? t files edges edge.uri = recordOfFile? parse? t files edge := by
  have hsame : ∀ edge' ∈ edges, edge'.uri = edge.uri → edge' = edge := fun edge' hedge' huri =>
    (hresolved edge' hedge').ext (hresolved edge hedge) huri
  cases hrecord : recordOfFile? parse? t files edge with
  | none =>
    refine List.findSome?_eq_none_iff.2 fun edge' hedge' => ?_
    split
    · next huri => rw [hsame edge' hedge' huri, hrecord]
    · rfl
  | some r =>
    -- the first edge that is found is under the same URI, so it is the same edge
    have hsome : (importOf? parse? t files edges edge.uri).isSome := by
      refine List.findSome?_isSome_iff.2 ⟨edge, hedge, ?_⟩
      rw [if_pos rfl, hrecord]
      rfl
    obtain ⟨r', hr'⟩ := Option.isSome_iff_exists.1 hsome
    obtain ⟨edge', hedge', hfound⟩ := List.exists_of_findSome?_eq_some hr'
    split at hfound
    · next huri =>
      rw [hsame edge' hedge' huri, hrecord] at hfound
      rw [hr', hfound]
    · exact absurd hfound (by simp)

/-- **The order of imports does not matter**, nor how often each of them stands
there. -/
theorem importOf?_congr (hresolved : ∀ edge ∈ edges, edge.Resolved)
    (hsame : ∀ edge, edge ∈ edges' ↔ edge ∈ edges) :
    importOf? parse? t files edges' uri = importOf? parse? t files edges uri := by
  -- either no edge is under this URI, or each one that is tells the record
  by_cases hany : ∃ edge ∈ edges, edge.uri = uri
  · obtain ⟨edge, hedge, rfl⟩ := hany
    rw [importOf?_of_mem hresolved hedge,
      importOf?_of_mem (fun e he => hresolved e ((hsame e).1 he)) ((hsame edge).2 hedge)]
  · have hnone : ∀ edge ∈ edges, edge.uri ≠ uri := fun edge hedge huri => hany ⟨edge, hedge, huri⟩
    rw [importOf?_of_forall hnone, importOf?_of_forall fun edge hedge =>
      hnone edge ((hsame edge).1 hedge)]

end ImportOf

/-! ### Imports in a store with room -/

/-- A workbench is ready to read imports: there is a tokenizer, no import is being
read, and the store has room for some documents. -/
structure Primed (few : Finset Uri) (t : Markup.Tokenizer) (w : Workbench) : Prop where
  tokenizer : w.analyzer.tokenizer = some t
  idle : w.analyzer.importing = []
  fits : w.store.Fits few

variable {w : Workbench} {loader : Loader} {files : FileSystem} {d : Document} {r : Record}
  {few : Finset Uri} {t : Markup.Tokenizer} {edge : ImportEdge} {edges : List ImportEdge}

namespace Primed

theorem uses_materialize (hedge : edge.uri ∈ few) :
    ∀ u ∈ w.usesToMaterialize loader files edge, ∀ uri, u.uri? = some uri → uri ∈ few := by
  intro u hu uri huri
  rw [uri?_of_mem_usesToMaterialize hu] at huri
  rwa [← Option.some.inj huri]

/-- One import fills in the record of its file, if there was no record. -/
theorem record?_materialize (h : w.Primed few t) (loader : Loader) (files : FileSystem)
    (hedge : edge.uri ∈ few) (uri : Uri) :
    (materialize loader files w edge).store.record? uri = (w.store.record? uri).or
      (if edge.uri = uri then recordOfFile? w.analyzer.parse? t files edge else none) := by
  by_cases huri : edge.uri = uri
  · rw [if_pos huri, ← huri]
    exact (Workbench.record?_materialize loader files edge h.tokenizer h.idle).2
  · rw [if_neg huri, Option.or_none, (w.proceeds_materialize loader files edge).store,
      Store.record?_after h.fits.linked h.fits.room (uses_materialize hedge) h.fits.within]
    exact Store.foldl_write_of_forall fun u hu =>
      ⟨edge.uri, uri?_of_mem_usesToMaterialize hu, fun heq => huri heq.symm⟩

theorem materialize (h : w.Primed few t) (loader : Loader) (files : FileSystem)
    (hedge : edge.uri ∈ few) : (materialize loader files w edge).Primed few t := by
  have hkept := (Workbench.record?_materialize loader files edge h.tokenizer h.idle).1
  exact {
    tokenizer := by rw [hkept, h.tokenizer]
    idle := by rw [hkept, h.idle]
    fits := by
      rw [(w.proceeds_materialize loader files edge).store]
      exact h.fits.after (uses_materialize hedge) }

/-- **Some imports** fill in the records of their files, where there was none. -/
theorem record?_foldl_materialize (h : w.Primed few t) (loader : Loader) (files : FileSystem)
    (hedges : ∀ edge ∈ edges, edge.uri ∈ few) (uri : Uri) :
    (edges.foldl (Workbench.materialize loader files) w).store.record? uri
      = (w.store.record? uri).or (importOf? w.analyzer.parse? t files edges uri) := by
  induction edges generalizing w with
  | nil => rw [List.foldl_nil, importOf?_nil, Option.or_none]
  | cons edge edges ih =>
    have hedge := hedges edge List.mem_cons_self
    have hkept := (Workbench.record?_materialize loader files edge h.tokenizer h.idle).1
    rw [List.foldl_cons, ih (h.materialize loader files hedge) fun e he =>
      hedges e (List.mem_cons_of_mem _ he), h.record?_materialize loader files hedge, hkept,
      Option.or_assoc]
    congr 1
    rw [importOf?, importOf?, List.findSome?_cons]
    cases if edge.uri = uri then recordOfFile? w.analyzer.parse? t files edge else none <;> rfl

theorem foldl_materialize (h : w.Primed few t) (loader : Loader) (files : FileSystem)
    (hedges : ∀ edge ∈ edges, edge.uri ∈ few) :
    (edges.foldl (Workbench.materialize loader files) w).Primed few t := by
  induction edges generalizing w with
  | nil => exact h
  | cons edge edges ih =>
    exact ih (h.materialize loader files (hedges edge List.mem_cons_self)) fun e he =>
      hedges e (List.mem_cons_of_mem _ he)

/-- The documents in the store after some imports are those that there were and the
imported ones. -/
theorem contains_foldl_materialize (h : w.Primed few t) (loader : Loader) (files : FileSystem)
    (hedges : ∀ edge ∈ edges, edge.uri ∈ few) (uri : Uri) :
    (edges.foldl (Workbench.materialize loader files) w).store.contains uri = true
      ↔ w.store.contains uri = true ∨ ∃ edge ∈ edges, edge.uri = uri := by
  rw [(w.proceeds_materializeAll loader files edges).store, h.fits.contains_after]
  · refine or_congr Iff.rfl ⟨?_, ?_⟩
    · rintro ⟨u, hu, huri⟩
      obtain ⟨edge, hedge, huri'⟩ := exists_edge_of_mem_uses hu
      exact ⟨edge, hedge, Option.some.inj (huri'.symm.trans huri)⟩
    · rintro ⟨edge, hedge, rfl⟩
      exact ⟨_, looked_mem_uses hedge, rfl⟩
  · intro u hu
    obtain ⟨edge, hedge, huri⟩ := exists_edge_of_mem_uses hu
    exact ⟨edge.uri, hedges edge hedge, huri⟩

end Primed

/-! ### A document and its imports -/

/-- After the document, the imports that are followed have their turns. -/
theorem analyze_followed (files : FileSystem) (hok : (w.analyzeSingle loader d).1 = .ok r) :
    (w.analyze loader files d true).2
      = r.followed.foldl (materialize loader files) (w.analyzeSingle loader d).2 := by
  rw [snd_analyze files true hok, Record.followed]
  cases r.templates.isEmpty <;> rfl

theorem usesToAnalyze_of_ok (files : FileSystem) (hok : (w.analyzeSingle loader d).1 = .ok r) :
    w.usesToAnalyze loader files d = .refreshed d r
      :: (w.analyzeSingle loader d).2.usesToMaterializeAll loader files r.followed := by
  unfold usesToAnalyze usesToAnalyzeSingle Record.followed
  rcases hresult : w.analyzeSingle loader d with ⟨e | r', w₁⟩
  · rw [hresult] at hok
    exact absurd hok (by simp)
  · rw [hresult] at hok
    obtain rfl : r' = r := Except.ok.inj hok
    cases hempty : r'.templates.isEmpty <;> simp [hempty, usesToMaterializeAll]

/-- A workbench is ready to analyse documents: there is a tokenizer or the loader has
one, no import is being read, and the store has room for some documents. -/
structure Prepared (few : Finset Uri) (loader : Loader) (t : Markup.Tokenizer) (w : Workbench) :
    Prop where
  tokenizer : w.tokenizer? loader = some t
  idle : w.analyzer.importing = []
  fits : w.store.Fits few

theorem Prepared.of_room {more : Finset Uri} (htokenizer : w.tokenizer? loader = some t)
    (hidle : w.analyzer.importing = []) (hlinked : w.store.Linked)
    (hroom : (w.store.keys.toFinset ∪ more).card ≤ w.store.capacity + 1) :
    w.Prepared (w.store.keys.toFinset ∪ more) loader t where
  tokenizer := htokenizer
  idle := hidle
  fits := {
    linked := hlinked
    room := hroom
    within := fun _ hk => Finset.mem_union_left _ (List.mem_toFinset.2 hk) }

/-- The record of a document is stored, and the workbench is ready for its imports. -/
structure Records (few : Finset Uri) (loader : Loader) (t : Markup.Tokenizer) (w : Workbench)
    (d : Document) (r : Record) : Prop where
  result : (w.analyzeSingle loader d).1 = .ok r
  store : (w.analyzeSingle loader d).2.store = w.store.setAnalysis d.uri r
  parser : (w.analyzeSingle loader d).2.analyzer.parse? = w.analyzer.parse?
  primed : (w.analyzeSingle loader d).2.Primed few t

theorem Prepared.records (h : w.Prepared few loader t) (hd : d.uri ∈ few)
    (hr : recordOf? w.analyzer.parse? t d = some r) : w.Records few loader t d r := by
  obtain ⟨hfound, hkept⟩ := analyzeSingle_of_tokenizer? d h.tokenizer
  obtain ⟨hkeeps, ⟨e, herror, -⟩ | ⟨r', hok, hstore, -⟩⟩ := w.analyzeSingle_cases loader d
  · rw [herror, hr] at hfound
    exact absurd hfound (by simp [Except.toOption])
  obtain rfl : r = r' := by
    rw [hok, hr] at hfound
    exact (Option.some.inj hfound).symm
  -- the document was not too long, so the tokenizer was loaded
  have hanalyzer : (w.analyzeSingle loader d).2.analyzer
      = { w.analyzer with tokenizer := some t } := by
    refine (hkept.resolve_left ?_).2
    rintro ⟨hlong, -⟩
    rw [recordOf?, if_pos hlong] at hr
    exact absurd hr (by simp)
  have hact : (w.analyzeSingle loader d).2.store = w.store.after [.refreshed d r] := hstore
  exact {
    result := hok
    store := hstore
    parser := hkeeps.1
    primed := {
      tokenizer := by rw [hanalyzer]
      idle := by rw [hanalyzer, h.idle]
      fits := by
        rw [hact]
        refine h.fits.after fun u hu uri huri => ?_
        rw [List.mem_singleton.1 hu] at huri
        rwa [← Option.some.inj huri] } }

theorem Records.record? (h : w.Records few loader t d r) (hfits : w.store.Fits few)
    (hd : d.uri ∈ few) (uri : Uri) :
    (w.analyzeSingle loader d).2.store.record? uri
      = if d.uri = uri then some r else w.store.record? uri := by
  rw [h.store]
  refine (Use.record?_act_within (u := .refreshed d r) hfits.linked hfits.room ?_
    hfits.within uri).2
  rintro v hv
  rwa [← Option.some.inj hv]

theorem Records.analyze (h : w.Records few loader t d r) (files : FileSystem) :
    (w.analyze loader files d true).2
      = r.followed.foldl (Workbench.materialize loader files) (w.analyzeSingle loader d).2 :=
  analyze_followed files h.result

/-- The records after the analysis of a document: its own one, and those that its
imports fill in. -/
theorem Records.record?_analyze (h : w.Records few loader t d r) (hfits : w.store.Fits few)
    (hd : d.uri ∈ few) (hedges : ∀ edge ∈ r.followed, edge.uri ∈ few) (files : FileSystem)
    (uri : Uri) : (w.analyze loader files d true).2.store.record? uri
      = (if d.uri = uri then some r else w.store.record? uri).or
          (importOf? w.analyzer.parse? t files r.followed uri) := by
  rw [h.analyze files, h.primed.record?_foldl_materialize loader files hedges, h.parser,
    h.record? hfits hd]

/-- What the analysis of a document with templates leaves behind: nothing but the
document itself and its imports was looked up, and each import has the record that
it had, or else the one of its file. -/
structure OneHop (loader : Loader) (files : FileSystem) (w : Workbench) (d : Document)
    (t : Markup.Tokenizer) (r : Record) : Prop where
  /-- The document has its new record, also if it imports itself. -/
  own : ((w.analyze loader files d true).2.store.analysis d.uri).1 = some r
  /-- An import keeps the record that it had, or gets the one of its file. -/
  imports : ∀ edge ∈ r.imports, edge.uri ≠ d.uri →
    ((w.analyze loader files d true).2.store.analysis edge.uri).1
      = (w.store.analysis edge.uri).1.or (recordOfFile? w.analyzer.parse? t files edge)
  /-- All other documents keep the record that they had. -/
  others : ∀ uri ∉ r.around d.uri,
    ((w.analyze loader files d true).2.store.analysis uri).1 = (w.store.analysis uri).1
  /-- There are entries for the documents that had one, the document and its imports. -/
  entries : ∀ uri, (w.analyze loader files d true).2.store.contains uri = true
    ↔ w.store.contains uri = true ∨ uri ∈ r.around d.uri
  /-- Only the document and its imports are looked up. -/
  lookedUp : ∃ uses : List Use, (w.analyze loader files d true).2.store = w.store.after uses
    ∧ ∀ u ∈ uses, ∃ uri ∈ r.around d.uri, u.uri? = some uri
  /-- The same imports in another order, or more often, leave the same behind. -/
  anyOrder : ∀ edges : List ImportEdge, (∀ edge, edge ∈ edges ↔ edge ∈ r.imports) → ∀ uri,
    ((edges.foldl (materialize loader files) (w.analyzeSingle loader d).2).store.analysis uri).1
        = ((w.analyze loader files d true).2.store.analysis uri).1
      ∧ (edges.foldl (materialize loader files) (w.analyzeSingle loader d).2).store.contains uri
        = (w.analyze loader files d true).2.store.contains uri

theorem Records.oneHop (h : w.Records few loader t d r) (hfits : w.store.Fits few)
    (haround : r.around d.uri ⊆ few) (hresolved : ∀ edge ∈ r.imports, edge.Resolved)
    (files : FileSystem) (htemplates : r.templates ≠ []) : w.OneHop loader files d t r := by
  have hd : d.uri ∈ few := haround (Finset.mem_insert_self _ _)
  have hedges : ∀ edge ∈ r.imports, edge.uri ∈ few := fun _ hedge =>
    haround (Record.mem_around hedge)
  have hlast := h.analyze files
  have hrecord := h.record?_analyze hfits hd (fun e he => hedges e (r.followed_subset he)) files
  rw [Record.followed_of_ne htemplates] at hlast hrecord
  have hcontains (uri : Uri) : (w.analyzeSingle loader d).2.store.contains uri = true
      ↔ w.store.contains uri = true ∨ uri = d.uri := by
    rw [h.store, show w.store.setAnalysis d.uri r = w.store.after [.refreshed d r] from rfl,
      hfits.contains_after fun u hu => ⟨d.uri, hd, by rw [List.mem_singleton.1 hu]; rfl⟩]
    simp only [List.mem_singleton, exists_eq_left, Use.uri?, Option.some.injEq, eq_comm]
  constructor
  case own => rw [Store.analysis_eq, hrecord, if_pos rfl, Option.some_or]
  case imports =>
    intro edge hedge hne
    rw [Store.analysis_eq, Store.analysis_eq, hrecord, if_neg hne.symm,
      importOf?_of_mem hresolved hedge]
  case others =>
    intro uri huri
    have hne : d.uri ≠ uri := fun heq => huri (heq ▸ Finset.mem_insert_self _ _)
    rw [Store.analysis_eq, Store.analysis_eq, hrecord, if_neg hne, importOf?_of_forall,
      Option.or_none]
    rintro edge hedge rfl
    exact huri (Record.mem_around hedge)
  case entries =>
    intro uri
    rw [hlast, h.primed.contains_foldl_materialize loader files hedges, hcontains, Record.around,
      Finset.mem_insert, List.mem_toFinset, List.mem_map, or_assoc]
  case lookedUp =>
    refine ⟨.refreshed d r :: (w.analyzeSingle loader d).2.usesToMaterializeAll loader files
      r.imports, ?_, ?_⟩
    · rw [hlast, (proceeds_materializeAll _ loader files r.imports).store, h.store]
      rfl
    · intro u hu
      rcases List.mem_cons.1 hu with rfl | hu
      · exact ⟨d.uri, Finset.mem_insert_self _ _, rfl⟩
      · obtain ⟨edge, hedge, huri⟩ := exists_edge_of_mem_uses hu
        exact ⟨edge.uri, Record.mem_around hedge, huri⟩
  case anyOrder =>
    intro edges hsame uri
    have hedges' : ∀ edge ∈ edges, edge.uri ∈ few := fun edge hedge =>
      hedges edge ((hsame edge).1 hedge)
    constructor
    · rw [Store.analysis_eq, Store.analysis_eq, hlast,
        h.primed.record?_foldl_materialize loader files hedges',
        h.primed.record?_foldl_materialize loader files hedges, importOf?_congr hresolved hsame]
    · rw [Bool.eq_iff_iff, hlast, h.primed.contains_foldl_materialize loader files hedges',
        h.primed.contains_foldl_materialize loader files hedges]
      simp only [hsame]

/-- **One hop.** An analysis of a document without templates changes the entry of the
document and nothing else. If there are templates, each module that the document
imports has its record afterwards, the one that it had or else the one of its file, if
the store has room for all of them; nothing else was looked up, and the order of the
imports does not matter. -/
theorem analyze_one_hop (w : Workbench) (loader : Loader) (files : FileSystem) (d : Document)
    (r : Record) (hidle : w.analyzer.importing = []) (hlinked : w.store.Linked)
    (hok : (w.analyze loader files d true).1 = some r) :
    ∃ t, w.tokenizer? loader = some t ∧ (extractBy w.analyzer.parse? d t).1 = .ok r
      ∧ (r.templates = [] →
        (w.analyze loader files d true).2.store = w.store.setAnalysis d.uri r)
      ∧ (r.templates ≠ [] →
        (w.store.keys.toFinset ∪ r.around d.uri).card ≤ w.store.capacity + 1 →
          w.OneHop loader files d t r) := by
  obtain ⟨hfails, ⟨e, herror⟩, -⟩ | ⟨t, r', -, ht, hshort, hextract, hsingle, -⟩ :=
    w.analyzeSingle_fails_or_finds loader d
  · rw [fst_analyze, herror] at hok
    exact absurd hok (by simp [Except.toOption])
  obtain rfl : r' = r := by
    rw [fst_analyze, hsingle] at hok
    exact Option.some.inj hok
  have hrecord : recordOf? w.analyzer.parse? t d = some r' := by
    rw [recordOf?, if_neg (Nat.not_lt.2 hshort), hextract]
    rfl
  refine ⟨t, ht, hextract, fun htemplates => ?_, fun htemplates hroom => ?_⟩
  · obtain ⟨-, ⟨e, herror, -⟩ | ⟨r'', hok', hstore, -⟩⟩ := w.analyzeSingle_cases loader d
    · rw [hsingle] at herror
      exact absurd herror (by simp)
    obtain rfl : r' = r'' := Except.ok.inj (hsingle.symm.trans hok')
    rw [snd_analyze files true hsingle, htemplates, List.isEmpty_nil, Bool.not_true,
      Bool.and_false, if_neg Bool.false_ne_true, hstore]
  · have hprepared := Prepared.of_room ht hidle hlinked hroom
    have hd : d.uri ∈ w.store.keys.toFinset ∪ r'.around d.uri :=
      Finset.mem_union_right _ (Finset.mem_insert_self _ _)
    exact (hprepared.records hd hrecord).oneHop hprepared.fits Finset.subset_union_right
      (resolved_of_extractBy hextract) files htemplates

end Workbench

namespace Workspace.Sample

/-- An import statement. -/
def importStatement (specifier : String) : Syntax.Tree Script.Kind :=
  .branch (.construct .importStatement)
    [.leaf (.terminal (.literal "import")) "import",
      .branch (.construct .string) [.leaf (.terminal .name) specifier]]

/-- A script that imports itself, and a file. -/
def tangled : Syntax.Tree Script.Kind :=
  .branch (.construct .program)
    [importStatement "'./a.js'", importStatement "'./b.js'",
      .branch (.construct .call)
        [.leaf (.terminal .name) "html",
          .branch (.construct .template)
            [.leaf (.terminal (.literal "`")) "`", .leaf (.terminal (.literal "`")) "`"]]]

/-- A workbench that reads this script and an empty one. -/
def tangledBench : Workbench :=
  { Workbench.empty 1 with
    analyzer := .new fun cs =>
      if tangled.text = cs then some tangled
      else if [] = cs then some (.branch (.construct .program) [])
      else none }

/-- Loads a tokenizer that finds nothing. -/
def blindLoader : Loader := fun _ => .ok fun _ => .reported [] none

/-- The script as a document. -/
def tangledDocument : Document := .ofText uri 1 (String.ofList tangled.text)

end Workspace.Sample

open Workspace.Sample in
/-- The imported file is empty; the script that imports itself keeps its record. -/
theorem Workbench.analyze_one_hop_tangled :
    tangledBench.analyzer.importing = [] ∧ tangledBench.store.Linked
      ∧ ∃ r t, (tangledBench.analyze blindLoader [(.ofText "/b.js", .text "")] tangledDocument
            true).1 = some r
        ∧ r.templates ≠ [] ∧ r.imports.map ImportEdge.uri = [uri, importedUri]
        ∧ (tangledBench.store.keys.toFinset ∪ r.around uri).card ≤ tangledBench.store.capacity + 1
        ∧ tangledBench.OneHop blindLoader [(.ofText "/b.js", .text "")] tangledDocument t r
        ∧ (tangledBench.analyze blindLoader [(.ofText "/b.js", .text "")] tangledDocument
            true).2.store.entries.map (fun e =>
              (e.1, e.2.value.analysis.map fun r => r.imports.length))
          = [(uri, some 2), (importedUri, some 0)] := by
  obtain ⟨result, hresult⟩ : ∃ result, result = tangledBench.analyze blindLoader
      [(.ofText "/b.js", .text "")] tangledDocument true := ⟨_, rfl⟩
  have hfound : (result.1.map fun r => (r.templates.length, r.imports.map ImportEdge.uri),
      result.2.store.entries.map fun e => (e.1, e.2.value.analysis.map fun r => r.imports.length))
        = (some (1, [uri, importedUri]), [(uri, some 2), (importedUri, some 0)]) := by
    rw [hresult]
    cbv
  obtain ⟨hrecord, hentries⟩ := Prod.mk.inj hfound
  obtain ⟨r, hr, hparts⟩ := Option.map_eq_some_iff.1 hrecord
  obtain ⟨htemplates, himports⟩ := Prod.mk.inj hparts
  have hne : r.templates ≠ [] := by
    rw [← List.length_pos_iff, htemplates]
    decide
  have hroom : (tangledBench.store.keys.toFinset ∪ r.around uri).card
      ≤ tangledBench.store.capacity + 1 := by
    rw [Record.around, himports]
    decide
  have hlinked : tangledBench.store.Linked := .empty 1
  rw [hresult] at hr hentries
  obtain ⟨t, -, -, -, hhop⟩ := Workbench.analyze_one_hop tangledBench blindLoader
    [(.ofText "/b.js", .text "")] tangledDocument r rfl hlinked hr
  exact ⟨rfl, hlinked, r, t, hr, hne, himports, hroom, hhop hne hroom, hentries⟩

end ElementLens
