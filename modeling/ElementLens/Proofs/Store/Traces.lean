/-
What analyses and look-ups do with the store.

For each function that works on a store, the uses it makes of the store are
listed in order (`Store.usesToResolve`, `Workbench.usesToAnalyze`, ...). The
store that the function leaves is the store after these uses; and the records
that are given on the way are the right ones (`Workbench.Proceeds`): each is the
record of its document, and imports only fill gaps.

* **`Workbench.proceeds_analyze`**, **`Workbench.proceeds_diagnose`** — the two
  things that a refresh does.
-/
import ElementLens.Proofs.Store.Uses
import ElementLens.Workbench

namespace ElementLens

namespace Store

/-! ### Look-ups -/

/-- The uses made to find a tag name in imported modules. -/
def usesToResolveImported (s : Store) (token : Token) : List ImportEdge → List Use
  | [] => []
  | edge :: edges =>
    .looked edge.uri ::
      match (s.analysis edge.uri).1.bind fun r => r.element? token.tagName with
      | some _ => []
      | none => (s.analysis edge.uri).2.usesToResolveImported token edges

/-- The uses made to find a tag name of a document with the given record. -/
def usesToResolveIn (s : Store) (record : Record) (token : Token) : List Use :=
  match record.element? token.tagName with
  | some _ => []
  | none => s.usesToResolveImported token record.imports

/-- The uses made to find a tag name of a document. -/
def usesToResolve (s : Store) (uri : Uri) (token : Token) : List Use :=
  .looked uri ::
    match (s.analysis uri).1 with
    | none => []
    | some r => (s.analysis uri).2.usesToResolveIn r token

/-- The uses made to find the tag name at a position of a document. -/
def usesToResolveAt (s : Store) (uri : Uri) (p : Position) : List Use :=
  .looked uri ::
    match (s.analysis uri).1 with
    | none => []
    | some r =>
      match tokenAt? r.templates p with
      | none => []
      | some token => (s.analysis uri).2.usesToResolveIn r token

/-- The uses made to look at tag names in turn. -/
def usesToDiagnoseTokens (s : Store) (uri : Uri) (record : Record) (room : Nat) :
    List Token → List Use
  | [] => []
  | token :: tokens =>
    match room with
    | 0 => []
    | left + 1 =>
      match token.kind with
      | .endTagName => s.usesToDiagnoseTokens uri record (left + 1) tokens
      | .startTagName =>
        s.usesToResolveIn record token ++
          match (s.resolveIn uri record token).1 with
          | some _ =>
            (s.resolveIn uri record token).2.usesToDiagnoseTokens uri record (left + 1) tokens
          | none => (s.resolveIn uri record token).2.usesToDiagnoseTokens uri record left tokens

/-- The uses made to find the problems of a document. -/
def usesToDiagnose (s : Store) (uri : Uri) (settings : Settings) : List Use :=
  .looked uri ::
    match (s.analysis uri).1 with
    | none => []
    | some r => (s.analysis uri).2.usesToDiagnoseTokens uri r settings.maxProblems r.tokens

/-- Something leaves the store as it is after some look-ups. -/
structure Looks (s : Store) (uses : List Use) (s' : Store) : Prop where
  store : s' = s.after uses
  looked : ∀ u ∈ uses, ∃ uri, u = .looked uri

namespace Looks

variable {s s' s'' : Store} {uses more : List Use} {uri : Uri}

theorem nil (s : Store) : Looks s [] s := ⟨rfl, fun _ hu => absurd hu List.not_mem_nil⟩

theorem cons (h : Looks (s.lookup uri).2 uses s') : Looks s (.looked uri :: uses) s' := by
  refine ⟨h.store, fun u hu => ?_⟩
  rcases List.mem_cons.1 hu with rfl | hu
  · exact ⟨uri, rfl⟩
  · exact h.looked u hu

theorem append (h : Looks s uses s') (h' : Looks s' more s'') : Looks s (uses ++ more) s'' := by
  refine ⟨by rw [h'.store, h.store, after_append], fun u hu => ?_⟩
  rcases List.mem_append.1 hu with hu | hu
  · exact h.looked u hu
  · exact h'.looked u hu

end Looks

theorem looks_resolveImported (s : Store) (token : Token) (edges : List ImportEdge) :
    Looks s (s.usesToResolveImported token edges) (s.resolveImported token edges).2 := by
  induction edges generalizing s with
  | nil => exact .nil s
  | cons edge edges ih =>
    unfold resolveImported usesToResolveImported
    refine .cons ?_
    cases hfound : (s.analysis edge.uri).1.bind fun r => r.element? token.tagName with
    | some e => simp only [hfound]; exact .nil _
    | none => simp only [hfound]; exact ih _

theorem looks_resolveIn (s : Store) (uri : Uri) (record : Record) (token : Token) :
    Looks s (s.usesToResolveIn record token) (s.resolveIn uri record token).2 := by
  unfold resolveIn usesToResolveIn
  cases record.element? token.tagName with
  | some e => exact .nil s
  | none => exact s.looks_resolveImported token record.imports

theorem looks_resolve (s : Store) (uri : Uri) (token : Token) :
    Looks s (s.usesToResolve uri token) (s.resolve uri token).2 := by
  unfold resolve usesToResolve
  refine .cons ?_
  cases hrecord : (s.analysis uri).1 with
  | none => simp only [hrecord]; exact .nil _
  | some r => simp only [hrecord]; exact looks_resolveIn _ uri r token

theorem looks_resolveAt (s : Store) (uri : Uri) (p : Position) :
    Looks s (s.usesToResolveAt uri p) (s.resolveAt uri p).2 := by
  unfold resolveAt usesToResolveAt
  refine .cons ?_
  cases hrecord : (s.analysis uri).1 with
  | none => simp only [hrecord]; exact .nil _
  | some r =>
    simp only [hrecord]
    cases tokenAt? r.templates p with
    | none => exact .nil _
    | some token => exact looks_resolveIn _ uri r token

theorem looks_diagnoseTokens (s : Store) (uri : Uri) (record : Record) (found : List Diagnostic)
    (room : Nat) (tokens : List Token) :
    Looks s (s.usesToDiagnoseTokens uri record room tokens)
      (s.diagnoseTokens uri record found room tokens).2 := by
  induction tokens generalizing s found room with
  | nil => exact .nil s
  | cons token tokens ih =>
    unfold diagnoseTokens usesToDiagnoseTokens
    cases room with
    | zero => exact .nil s
    | succ left =>
      cases token.kind with
      | endTagName => exact ih s found (left + 1)
      | startTagName =>
        have hlook := s.looks_resolveIn uri record token
        rcases hresolve : s.resolveIn uri record token with ⟨_ | definition, s'⟩
        · simp only [hresolve] at hlook ⊢
          exact hlook.append (ih s' _ left)
        · simp only [hresolve] at hlook ⊢
          exact hlook.append (ih s' found (left + 1))

theorem looks_diagnose (s : Store) (uri : Uri) (settings : Settings) :
    Looks s (s.usesToDiagnose uri settings) (s.diagnose uri settings).2 := by
  unfold diagnose usesToDiagnose
  refine .cons ?_
  cases hrecord : (s.analysis uri).1 with
  | none => simp only [hrecord]; exact .nil _
  | some r => simp only [hrecord]; exact looks_diagnoseTokens _ uri r [] _ _

/-- Imports only get a record if they have none. -/
def FillsGaps (s : Store) : List Use → Prop
  | [] => True
  | u :: uses => (∀ d r, u = .imported d r → s.record? d.uri = none) ∧ FillsGaps (u.act s) uses

theorem fillsGaps_append {s : Store} {uses more : List Use} :
    FillsGaps s (uses ++ more) ↔ FillsGaps s uses ∧ FillsGaps (s.after uses) more := by
  induction uses generalizing s with
  | nil => simp [FillsGaps]
  | cons u uses ih => simp [FillsGaps, ih, and_assoc]

theorem Looks.fillsGaps {s s' : Store} {uses : List Use} (h : Looks s uses s') :
    FillsGaps s uses := by
  have hlooked := h.looked
  clear h
  induction uses generalizing s with
  | nil => trivial
  | cons u uses ih =>
    refine ⟨?_, ih fun u hu => hlooked u (List.mem_cons_of_mem _ hu)⟩
    rintro d r rfl
    obtain ⟨uri, heq⟩ := hlooked _ List.mem_cons_self
    exact absurd heq (by simp)

end Store

namespace Workbench

open Store (Use)

/-! ### Analyses -/

/-- The uses made to analyse one document. A record is given in one of two
ways. -/
def usesToAnalyzeSingle (w : Workbench) (loader : Loader) (use : Document → Record → Use)
    (d : Document) : List Use :=
  match (w.analyzeSingle loader d).1 with
  | .error _ => []
  | .ok record => [use d record]

/-- The uses made to read and analyse the file of an import. -/
def usesToReadImport (w : Workbench) (loader : Loader) (files : FileSystem) (edge : ImportEdge) :
    List Use :=
  match files.read edge.filePath with
  | .error _ => []
  | .ok text => w.usesToAnalyzeSingle loader .imported (Document.ofText edge.uri 1 text)

/-- The uses made for an imported module. -/
def usesToMaterialize (w : Workbench) (loader : Loader) (files : FileSystem) (edge : ImportEdge) :
    List Use :=
  let (known, store) := w.store.hasAnalysis edge.uri
  .looked edge.uri ::
    if known || w.analyzer.importing.contains edge.uri then []
    else ({ w with store }.beginImport edge.uri).usesToReadImport loader files edge

/-- The uses made for some imported modules. -/
def usesToMaterializeAll (w : Workbench) (loader : Loader) (files : FileSystem) :
    List ImportEdge → List Use
  | [] => []
  | edge :: edges =>
    w.usesToMaterialize loader files edge
      ++ (materialize loader files w edge).usesToMaterializeAll loader files edges

/-- The uses made to analyse a document with its imports. -/
def usesToAnalyze (w : Workbench) (loader : Loader) (files : FileSystem) (d : Document) :
    List Use :=
  w.usesToAnalyzeSingle loader .refreshed d ++
    match w.analyzeSingle loader d with
    | (.error _, _) => []
    | (.ok record, w) =>
      if record.templates.isEmpty then []
      else w.usesToMaterializeAll loader files record.imports

/-- The parser stays, and the tokenizer once there is one. -/
def Keeps (w w' : Workbench) : Prop :=
  w'.analyzer.parse? = w.analyzer.parse?
    ∧ ∀ t, w.analyzer.tokenizer = some t → w'.analyzer.tokenizer = some t

theorem Keeps.trans {w w' w'' : Workbench} (h : w.Keeps w') (h' : w'.Keeps w'') : w.Keeps w'' :=
  ⟨h'.1.trans h.1, fun t ht => h'.2 t (h.2 t ht)⟩

theorem Keeps.of_eq {w w' : Workbench} (hparse : w'.analyzer.parse? = w.analyzer.parse?)
    (htokenizer : w'.analyzer.tokenizer = w.analyzer.tokenizer) : w.Keeps w' :=
  ⟨hparse, fun _ ht => htokenizer.trans ht⟩

/-- A document has a record: it is the one that the parser and the tokenizer
yield. -/
def Yields (w : Workbench) (d : Document) (r : Record) : Prop :=
  ∃ t, w.analyzer.tokenizer = some t ∧ (extractBy w.analyzer.parse? d t).1 = .ok r

theorem Yields.keeps {w w' : Workbench} {d : Document} {r : Record} (h : w.Yields d r)
    (hkeeps : w.Keeps w') : w'.Yields d r := by
  obtain ⟨t, ht, hextract⟩ := h
  exact ⟨t, hkeeps.2 t ht, by rw [hkeeps.1]; exact hextract⟩

/-- Something leaves a workbench with the store as it is after some uses, all of
an allowed kind. The records that are given are the right ones, and imports only
get one if they have none. -/
structure Proceeds (allowed : Use → Prop) (w : Workbench) (uses : List Use) (w' : Workbench) :
    Prop where
  store : w'.store = w.store.after uses
  keeps : w.Keeps w'
  sound : ∀ u ∈ uses, ∀ d r, u.written? = some (d, r) → w'.Yields d r
  fillsGaps : w.store.FillsGaps uses
  allowed : ∀ u ∈ uses, allowed u

namespace Proceeds

variable {allowed allowed' : Use → Prop} {w w' w'' : Workbench} {uses more : List Use}

theorem nil (hstore : w'.store = w.store) (hkeeps : w.Keeps w') : Proceeds allowed w [] w' where
  store := hstore
  keeps := hkeeps
  sound := fun _ hu => absurd hu List.not_mem_nil
  fillsGaps := trivial
  allowed := fun _ hu => absurd hu List.not_mem_nil

theorem append (h : Proceeds allowed w uses w') (h' : Proceeds allowed w' more w'') :
    Proceeds allowed w (uses ++ more) w'' where
  store := by rw [h'.store, h.store, Store.after_append]
  keeps := h.keeps.trans h'.keeps
  sound u hu d r hr := by
    rcases List.mem_append.1 hu with hu | hu
    · exact (h.sound u hu d r hr).keeps h'.keeps
    · exact h'.sound u hu d r hr
  fillsGaps := Store.fillsGaps_append.2 ⟨h.fillsGaps, h.store ▸ h'.fillsGaps⟩
  allowed u hu := (List.mem_append.1 hu).elim (h.allowed u) (h'.allowed u)

theorem mono (h : Proceeds allowed w uses w') (hall : ∀ u, allowed u → allowed' u) :
    Proceeds allowed' w uses w' :=
  { h with allowed := fun u hu => hall u (h.allowed u hu) }

/-- The rest of the workbench does not matter. -/
theorem congr (h : Proceeds allowed w uses w') (hstore : w''.store = w'.store)
    (hkeeps : w'.Keeps w'') : Proceeds allowed w uses w'' := by
  have hrest : Proceeds allowed w' [] w'' := .nil hstore hkeeps
  simpa using h.append hrest

theorem of_looks {s' : Store} (h : Store.Looks w.store uses s')
    (hall : ∀ uri, allowed (.looked uri)) : Proceeds allowed w uses { w with store := s' } where
  store := h.store
  keeps := .of_eq rfl rfl
  sound u hu d r hr := by
    obtain ⟨uri, rfl⟩ := h.looked u hu
    exact absurd hr (by simp [Store.Use.written?])
  fillsGaps := h.fillsGaps
  allowed u hu := by
    obtain ⟨uri, rfl⟩ := h.looked u hu
    exact hall uri

/-- A use that gives no record. -/
theorem single {u : Use} (hwritten : u.written? = none) (hstore : w'.store = u.act w.store)
    (hkeeps : w.Keeps w') (hall : allowed u) : Proceeds allowed w [u] w' where
  store := hstore
  keeps := hkeeps
  sound u' hu d r hr := by
    rw [List.mem_singleton.1 hu, hwritten] at hr
    exact absurd hr (by simp)
  fillsGaps := by
    refine ⟨?_, trivial⟩
    rintro d r rfl
    exact absurd hwritten (by simp [Use.written?])
  allowed u' hu := by rwa [List.mem_singleton.1 hu]

end Proceeds

/-- What may be done for imports: look-ups, and records of what is in files. -/
def OfFiles (files : FileSystem) (edges : List ImportEdge) : Use → Prop
  | .looked _ => True
  | .imported d _ => ∃ edge ∈ edges, ∃ text : String, files.read edge.filePath = .ok text
    ∧ d = Document.ofText edge.uri 1 text
  | .unset _ | .refreshed _ _ | .cleared => False

theorem OfFiles.mono {files : FileSystem} {edges more : List ImportEdge} {u : Use}
    (h : OfFiles files edges u) (hmore : edges ⊆ more) : OfFiles files more u := by
  cases u with
  | imported d r =>
    obtain ⟨edge, hedge, hread⟩ := h
    exact ⟨edge, hmore hedge, hread⟩
  | looked _ | unset _ | refreshed _ _ | cleared => exact h

/-- What may be done for a document: its own record is given, and then what may
be done for the imports in this record. -/
def OfDocument (w : Workbench) (loader : Loader) (files : FileSystem) (d : Document) (u : Use) :
    Prop :=
  ∃ r, (w.analyzeSingle loader d).1 = .ok r ∧ (u = .refreshed d r ∨ OfFiles files r.imports u)

theorem loadTokenizer_cases (w : Workbench) (loader : Loader) :
    (w.loadTokenizer loader).2.store = w.store ∧ w.Keeps (w.loadTokenizer loader).2
      ∧ ∀ t, (w.loadTokenizer loader).1 = .ok t →
          (w.loadTokenizer loader).2.analyzer.tokenizer = some t := by
  unfold loadTokenizer
  cases htokenizer : w.analyzer.tokenizer with
  | some t => exact ⟨rfl, .of_eq rfl rfl, fun t' ht' => by simp_all⟩
  | none =>
    cases loader w.loads with
    | error e => exact ⟨rfl, .of_eq rfl rfl, fun t ht => absurd ht (by simp)⟩
    | ok t =>
      refine ⟨rfl, ⟨rfl, fun t' ht' => ?_⟩, fun t' ht' => congrArg some (Except.ok.inj ht')⟩
      rw [htokenizer] at ht'
      exact absurd ht' (by simp)

theorem foldl_note (w : Workbench) (stops : List EarlyStop) :
    (stops.foldl (fun w stop => w.note (.stoppedEarly stop)) w).store = w.store
      ∧ (stops.foldl (fun w stop => w.note (.stoppedEarly stop)) w).analyzer = w.analyzer := by
  induction stops generalizing w with
  | nil => exact ⟨rfl, rfl⟩
  | cons stop stops ih => exact ih (w.note (.stoppedEarly stop))

/-- An analysis fails and leaves the store alone, or stores the record that
parser and tokenizer yield. -/
theorem analyzeSingle_cases (w : Workbench) (loader : Loader) (d : Document) :
    w.Keeps (w.analyzeSingle loader d).2
      ∧ ((∃ e, (w.analyzeSingle loader d).1 = .error e
          ∧ (w.analyzeSingle loader d).2.store = w.store)
        ∨ ∃ r, (w.analyzeSingle loader d).1 = .ok r
          ∧ (w.analyzeSingle loader d).2.store = w.store.setAnalysis d.uri r
          ∧ (w.analyzeSingle loader d).2.Yields d r) := by
  -- too long, no tokenizer, no record, or a record
  unfold analyzeSingle
  by_cases hlong : longestDocument < d.utf16Length
  · simp only [hlong, if_true]
    exact ⟨.of_eq rfl rfl, .inl ⟨_, rfl, trivial⟩⟩
  simp only [hlong, if_false]
  obtain ⟨hstore, hkeeps, hloaded⟩ := w.loadTokenizer_cases loader
  rcases hload : w.loadTokenizer loader with ⟨e | t, w₁⟩
  · simp only [hload] at hstore hkeeps ⊢
    exact ⟨hkeeps, .inl ⟨e, rfl, hstore⟩⟩
  · simp only [hload] at hstore hkeeps hloaded ⊢
    rcases hextract : extractBy w₁.analyzer.parse? d t with ⟨result, stops⟩
    obtain ⟨hnoteStore, hnoteAnalyzer⟩ := w₁.foldl_note stops
    have hnote : w.Keeps (stops.foldl (fun w stop => w.note (.stoppedEarly stop)) w₁) :=
      hkeeps.trans (.of_eq (by rw [hnoteAnalyzer]) (by rw [hnoteAnalyzer]))
    cases result with
    | error e => exact ⟨hnote, .inl ⟨e, rfl, hnoteStore.trans hstore⟩⟩
    | ok r =>
      refine ⟨hnote, .inr ⟨r, rfl, by simp only [hnoteStore, hstore], t, ?_, ?_⟩⟩
      · simp only [hnoteAnalyzer, hloaded t rfl]
      · simp only [hnoteAnalyzer, hextract]

/-- The record that an analysis finds is stored. -/
theorem store_analyzeSingle {w : Workbench} {loader : Loader} {d : Document} {r : Record}
    (hok : (w.analyzeSingle loader d).1 = .ok r) :
    (w.analyzeSingle loader d).2.store = w.store.setAnalysis d.uri r := by
  obtain ⟨-, ⟨e, herror, -⟩ | ⟨r', hok', hstore, -⟩⟩ := w.analyzeSingle_cases loader d
  · rw [hok] at herror
    exact absurd herror (by simp)
  · rw [hstore, Except.ok.inj (hok.symm.trans hok')]

/-- A record given by an analysis is the right one, whoever asks for it. -/
theorem proceeds_analyzeSingle (w : Workbench) (loader : Loader) (d : Document)
    (use : Document → Record → Use) (hact : ∀ r, (use d r).act w.store = w.store.setAnalysis d.uri r)
    (hwritten : ∀ r, (use d r).written? = some (d, r))
    (hgap : ∀ r d' r', use d r = .imported d' r' → w.store.record? d'.uri = none)
    {allowed : Use → Prop}
    (hall : ∀ r, (w.analyzeSingle loader d).1 = .ok r → allowed (use d r)) :
    Proceeds allowed w (w.usesToAnalyzeSingle loader use d) (w.analyzeSingle loader d).2 := by
  unfold usesToAnalyzeSingle
  obtain ⟨hkeeps, ⟨e, herror, hstore⟩ | ⟨r, hok, hstore, hyields⟩⟩ :=
    w.analyzeSingle_cases loader d
  · rw [herror]
    exact .nil hstore hkeeps
  · rw [hok]
    exact {
      store := hstore.trans (hact r).symm
      keeps := hkeeps
      sound := fun u hu d' r' hr => by
        rw [List.mem_singleton.1 hu, hwritten r] at hr
        obtain ⟨rfl, rfl⟩ := Prod.mk.inj (Option.some.inj hr)
        exact hyields
      fillsGaps := ⟨hgap r, trivial⟩
      allowed := fun u hu => by
        rw [List.mem_singleton.1 hu]
        exact hall r hok }

theorem proceeds_readImport (w : Workbench) (loader : Loader) (files : FileSystem)
    (edge : ImportEdge) (hgap : w.store.record? edge.uri = none) :
    Proceeds (OfFiles files [edge]) w (w.usesToReadImport loader files edge)
      (w.readImport loader files edge) := by
  unfold usesToReadImport readImport
  cases hread : files.read edge.filePath with
  | error e => exact .nil rfl (.of_eq rfl rfl)
  | ok text =>
    have hfile (r : Record) : OfFiles files [edge] (.imported (Document.ofText edge.uri 1 text) r) :=
      ⟨edge, List.mem_singleton.2 rfl, text, hread, rfl⟩
    have hsingle := w.proceeds_analyzeSingle loader (Document.ofText edge.uri 1 text) .imported
      (fun _ => rfl) (fun _ => rfl) (fun _ d' r' heq => by
        obtain ⟨rfl, rfl⟩ := Use.imported.inj heq
        exact hgap) fun r _ => hfile r
    simp only
    rcases hresult : w.analyzeSingle loader (Document.ofText edge.uri 1 text) with ⟨e | r, w'⟩
    · rw [hresult] at hsingle
      exact hsingle.congr rfl (.of_eq rfl rfl)
    · rw [hresult] at hsingle
      exact hsingle

theorem proceeds_materialize (w : Workbench) (loader : Loader) (files : FileSystem)
    (edge : ImportEdge) :
    Proceeds (OfFiles files [edge]) w (w.usesToMaterialize loader files edge)
      (materialize loader files w edge) := by
  obtain ⟨w₁, hw₁⟩ : ∃ w₁, w₁ = { w with store := (w.store.lookup edge.uri).2 } := ⟨_, rfl⟩
  have hlook : Proceeds (OfFiles files [edge]) w [.looked edge.uri] w₁ := by
    rw [hw₁]
    exact .of_looks (.cons (.nil _)) fun _ => trivial
  unfold usesToMaterialize materialize
  simp only [show { w with store := (w.store.hasAnalysis edge.uri).2 } = w₁ from hw₁.symm]
  split
  · exact hlook
  · next hnew =>
    -- there is no record, so the import may get one
    have hgap : w₁.store.record? edge.uri = none := by
      rw [Bool.or_eq_true, Store.hasAnalysis_fst] at hnew
      rw [hw₁]
      simpa using fun hsome => hnew (.inl hsome)
    have hbegin : Proceeds (OfFiles files [edge]) w [.looked edge.uri] (w₁.beginImport edge.uri) :=
      hlook.congr rfl (.of_eq rfl rfl)
    have hread := (w₁.beginImport edge.uri).proceeds_readImport loader files edge hgap
    exact hbegin.append (hread.congr rfl (.of_eq rfl rfl))

theorem proceeds_materializeAll (w : Workbench) (loader : Loader) (files : FileSystem)
    (edges : List ImportEdge) :
    Proceeds (OfFiles files edges) w (w.usesToMaterializeAll loader files edges)
      (edges.foldl (materialize loader files) w) := by
  induction edges generalizing w with
  | nil => exact .nil rfl (.of_eq rfl rfl)
  | cons edge edges ih =>
    have hfirst := (w.proceeds_materialize loader files edge).mono fun _ hu =>
      hu.mono (List.cons_subset_cons edge (List.nil_subset edges))
    exact hfirst.append ((ih _).mono fun _ hu => hu.mono (List.subset_cons_self edge edges))

theorem proceeds_analyze (w : Workbench) (loader : Loader) (files : FileSystem) (d : Document) :
    Proceeds (OfDocument w loader files d) w (w.usesToAnalyze loader files d)
      (w.analyze loader files d true).2 := by
  have hsingle : Proceeds (OfDocument w loader files d) w
      (w.usesToAnalyzeSingle loader .refreshed d) (w.analyzeSingle loader d).2 :=
    w.proceeds_analyzeSingle loader d .refreshed (fun _ => rfl) (fun _ => rfl)
      (fun _ _ _ heq => absurd heq (by simp)) fun r hok => ⟨r, hok, .inl rfl⟩
  unfold usesToAnalyze analyze
  rcases hresult : w.analyzeSingle loader d with ⟨e | r, w'⟩
  · rw [hresult] at hsingle
    simp only [List.append_nil]
    exact hsingle.congr rfl (.of_eq rfl rfl)
  · rw [hresult] at hsingle
    have himports : Proceeds (OfDocument w loader files d) w'
        (w'.usesToMaterializeAll loader files r.imports)
        (r.imports.foldl (materialize loader files) w') :=
      (w'.proceeds_materializeAll loader files r.imports).mono fun _ hu =>
        ⟨r, congrArg Prod.fst hresult, .inr hu⟩
    cases hempty : r.templates.isEmpty with
    | true => simpa [hempty] using hsingle
    | false => simpa [hempty] using hsingle.append himports

/-- An analysis of a document has a record if the one without imports has. -/
theorem fst_analyze (w : Workbench) (loader : Loader) (files : FileSystem) (d : Document)
    (parseImports : Bool) :
    (w.analyze loader files d parseImports).1 = (w.analyzeSingle loader d).1.toOption := by
  unfold analyze
  rcases w.analyzeSingle loader d with ⟨e | r, w'⟩
  · rfl
  · simp only
    split <;> rfl

theorem proceeds_diagnose (w : Workbench) (uri : Uri) (settings : Settings)
    {allowed : Use → Prop} (hall : ∀ uri, allowed (.looked uri)) :
    Proceeds allowed w (w.store.usesToDiagnose uri settings) (w.diagnose uri settings).2 := by
  have hlook : Proceeds allowed w (w.store.usesToDiagnose uri settings)
      { w with store := (w.store.diagnose uri settings).2 } :=
    .of_looks (w.store.looks_diagnose uri settings) hall
  unfold diagnose
  simp only
  split
  · exact hlook.congr rfl (.of_eq rfl rfl)
  · exact hlook

end Workbench

end ElementLens
