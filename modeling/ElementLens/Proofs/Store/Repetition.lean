/-
Uses that are made once more.

Looking a document up that is there, or giving it the record that it has, only makes it
the one used last (`Store.Use.Quiet`). So after such uses the same is known as before
(`Store.Same`), and searches take the same course again. The documents stand in the
order of their last uses, so the same uses once more leave the order alone, too:

* **`keys_after`** — the order of the documents after some uses;
* **`Same.after`** — what is known after quiet uses;
* **`Steady.diagnose_again`** — two looks at the problems of a document.
-/
import ElementLens.Proofs.Cache.Recency
import ElementLens.Proofs.Store.LookUps
import ElementLens.Proofs.Store.Traces

namespace ElementLens

theorem RecencyCache.Puts.peek?_of_mem {K V : Type} [DecidableEq K] {c c' : RecencyCache K V}
    {j k : K} {v : V} (h : Puts c k v c') (hlinked : c.Linked) (hk : k ∈ c.keys) (hj : j ≠ k) :
    c'.peek? j = c.peek? j := by
  -- there is room for the keys that are there
  have hroom : c.keys.toFinset.card ≤ c.capacity + 1 :=
    (List.toFinset_card_le _).trans hlinked.length_keys_le
  exact h.peek?_within hlinked hroom (List.mem_toFinset.2 hk) (fun _ => List.mem_toFinset.2) hj

namespace Store

variable {s s' : Store} {uses more : List Use} {u : Use} {uri v : Uri} {d : Document} {r : Record}

/-! ### The order of the documents -/

theorem Use.keys_act (h : s.Linked) (hu : u.uri? = some uri) :
    (u.act s).keys = RecencyCache.keysAfter (s.capacity + 1) s.keys uri := by
  obtain ⟨e, hputs, -⟩ := u.puts h hu
  exact hputs.keys

/-- The documents that are kept are the last ones of those that there were and those
that were used, in the order of their last uses. -/
theorem keys_after (h : s.Linked) (huses : .cleared ∉ uses) :
    (s.after uses).keys
      = (s.keys ++ uses.filterMap Use.uri?).dedup.rtake (s.capacity + 1) := by
  -- along the uses, the last one being the one that is added
  induction uses using List.reverseRecOn with
  | nil =>
    rw [List.filterMap_nil, List.append_nil, h.keys_nodup.dedup,
      RecencyCache.rtake_of_length_le h.length_keys_le]
    rfl
  | append_singleton uses u ih =>
    have hold := ih fun hmem => huses (List.mem_append_left _ hmem)
    obtain ⟨uri, hu⟩ : ∃ uri, u.uri? = some uri := by
      refine Option.ne_none_iff_exists'.1 fun hnone => huses ?_
      rw [Use.eq_cleared hnone]
      exact List.mem_append_right _ List.mem_cons_self
    rw [after_append, after_cons, after_nil, Use.keys_act (linked_after h uses) hu,
      capacity_after h, hold, RecencyCache.keysAfter_rtake _ (List.nodup_dedup _),
      List.filterMap_append, List.filterMap_cons_some hu, List.filterMap_nil, ← List.append_assoc,
      RecencyCache.dedup_concat]
    rfl

/-- The same uses once more leave the order of the documents alone. -/
theorem keys_after_again (h : s.Linked) (huses : .cleared ∉ uses) (hmore : .cleared ∉ more)
    (hsame : (more.filterMap Use.uri?).dedup = (uses.filterMap Use.uri?).dedup) :
    ((s.after uses).after more).keys = (s.after uses).keys := by
  have hall : .cleared ∉ uses ++ more := fun hmem => (List.mem_append.1 hmem).elim huses hmore
  rw [← after_append, keys_after h hall, keys_after h huses, List.filterMap_append,
    RecencyCache.dedup_append_congr rfl (RecencyCache.dedup_append_self hsame)]

/-! ### Quiet uses -/

/-- A use that tells nothing new: of a document that is there, which may get the record
that it has. -/
inductive Use.Quiet (s : Store) : Use → Prop
  | looked (uri : Uri) (h : (s.peek? uri).isSome) : Quiet s (.looked uri)
  | refreshed (d : Document) (r : Record) (h : s.record? d.uri = some r) :
      Quiet s (.refreshed d r)

theorem isSome_peek?_of_record? (h : s.record? uri = some r) : (s.peek? uri).isSome := by
  obtain ⟨e, he, -⟩ := Option.bind_eq_some_iff.1 h
  rw [he, Option.isSome_some]

/-- After a quiet use the document that it was about has the entry that it had. -/
theorem Use.Quiet.puts (h : Use.Quiet s u) (hlinked : s.Linked) :
    ∃ uri e, s.peek? uri = some e ∧ RecencyCache.Puts s uri e (u.act s) := by
  cases h with
  | looked uri h =>
    obtain ⟨e, he⟩ := Option.isSome_iff_exists.1 h
    have hputs := hlinked.puts_use uri Entry.empty
    rw [he] at hputs
    exact ⟨uri, e, he, hputs⟩
  | refreshed d r h =>
    obtain ⟨e, he, hrecord⟩ := Option.bind_eq_some_iff.1 h
    have hputs := hlinked.puts_modify d.uri Entry.empty fun e => { e with analysis := some r }
    have hsame : { e with analysis := some r } = e := by rw [← hrecord]
    rw [he, Option.getD_some, hsame] at hputs
    exact ⟨d.uri, e, he, hputs⟩

/-- The same is known in another store. -/
structure Same (s s' : Store) : Prop where
  linked : s'.Linked
  peek? : ∀ v, s'.peek? v = s.peek? v

namespace Same

theorem refl (h : s.Linked) : Same s s := ⟨h, fun _ => rfl⟩

theorem trans {s'' : Store} (h : Same s s') (h' : Same s' s'') : Same s s'' :=
  ⟨h'.linked, fun v => (h'.peek? v).trans (h.peek? v)⟩

theorem record? (h : Same s s') (v : Uri) : s'.record? v = s.record? v := by
  rw [Store.record?, Store.record?, h.peek?]

theorem quiet (h : Same s s') (hu : Use.Quiet s u) : Use.Quiet s' u := by
  cases hu with
  | looked uri hu => exact .looked uri (by rwa [h.peek?])
  | refreshed d r hu => exact .refreshed d r (by rwa [h.record?])

theorem act (h : Same s s') (hu : Use.Quiet s u) : Same s (u.act s') := by
  obtain ⟨uri, e, he, hputs⟩ := (h.quiet hu).puts h.linked
  refine ⟨hputs.linked, fun v => ?_⟩
  by_cases hv : v = uri
  · rw [hv, hputs.value, ← h.peek?, he]
  · have hmem : uri ∈ s'.keys := by
      by_contra hmem
      rw [h.linked.peek?_eq_none hmem] at he
      exact absurd he (by simp)
    rw [hputs.peek?_of_mem h.linked hmem hv, h.peek?]

/-- **Quiet uses** leave what is known as it is. -/
theorem after (h : Same s s') (huses : ∀ u ∈ uses, Use.Quiet s u) : Same s (s'.after uses) := by
  induction uses generalizing s' with
  | nil => exact h
  | cons u uses ih =>
    exact ih (h.act (huses u List.mem_cons_self)) fun u' hu' =>
      huses u' (List.mem_cons_of_mem _ hu')

/-- Documents that are there can be looked up. -/
theorem steady {few : Finset Uri} (hfew : ∀ v ∈ few, (s.peek? v).isSome) :
    Steady few s.record? (Same s) := by
  intro s' h v hv
  exact ⟨(analysis_eq s' v).trans (h.record? v), h.act (u := .looked v) (.looked v (hfew v hv))⟩

end Same

/-! ### Searches -/

theorem exists_edge_of_mem_usesToResolveImported {token : Token} {edges : List ImportEdge}
    (hu : u ∈ s.usesToResolveImported token edges) : ∃ edge ∈ edges, u = .looked edge.uri := by
  induction edges generalizing s with
  | nil => exact absurd hu List.not_mem_nil
  | cons edge edges ih =>
    rcases List.mem_cons.1 hu with rfl | hu
    · exact ⟨edge, List.mem_cons_self, rfl⟩
    · split at hu
      · exact absurd hu List.not_mem_nil
      · obtain ⟨edge', hedge, heq⟩ := ih hu
        exact ⟨edge', List.mem_cons_of_mem _ hedge, heq⟩

theorem exists_edge_of_mem_usesToResolveIn {token : Token} (hu : u ∈ s.usesToResolveIn r token) :
    ∃ edge ∈ r.imports, u = .looked edge.uri := by
  unfold usesToResolveIn at hu
  split at hu
  · exact absurd hu List.not_mem_nil
  · exact exists_edge_of_mem_usesToResolveImported hu

theorem exists_edge_of_mem_usesToDiagnoseTokens {room : Nat} {tokens : List Token}
    (hu : u ∈ s.usesToDiagnoseTokens uri r room tokens) :
    ∃ edge ∈ r.imports, u = .looked edge.uri := by
  induction tokens generalizing s room with
  | nil => exact absurd hu List.not_mem_nil
  | cons token tokens ih =>
    unfold usesToDiagnoseTokens at hu
    cases room with
    | zero => exact absurd hu List.not_mem_nil
    | succ left =>
      cases hkind : token.kind with
      | endTagName =>
        rw [hkind] at hu
        exact ih hu
      | startTagName =>
        rw [hkind] at hu
        rcases List.mem_append.1 hu with hu | hu
        · exact exists_edge_of_mem_usesToResolveIn hu
        · split at hu <;> exact ih hu

namespace Steady

variable {few : Finset Uri} {known : Uri → Option Record} {kind : Store → Prop}
  {edges : List ImportEdge}

theorem usesToResolveImported_eq (h : Steady few known kind) (hs : kind s) (hs' : kind s')
    (token : Token) (hedges : ∀ edge ∈ edges, edge.uri ∈ few) :
    s'.usesToResolveImported token edges = s.usesToResolveImported token edges := by
  induction edges generalizing s s' with
  | nil => rfl
  | cons edge edges ih =>
    obtain ⟨hfound, hkind⟩ := h s hs edge.uri (hedges edge List.mem_cons_self)
    obtain ⟨hfound', hkind'⟩ := h s' hs' edge.uri (hedges edge List.mem_cons_self)
    unfold usesToResolveImported
    rw [hfound, hfound', ih hkind hkind' fun e he => hedges e (List.mem_cons_of_mem _ he)]

theorem usesToResolveIn_eq (h : Steady few known kind) (hs : kind s) (hs' : kind s')
    (token : Token) (himports : ∀ edge ∈ r.imports, edge.uri ∈ few) :
    s'.usesToResolveIn r token = s.usesToResolveIn r token := by
  unfold usesToResolveIn
  rw [h.usesToResolveImported_eq hs hs' token himports]

theorem usesToDiagnoseTokens_eq (h : Steady few known kind) (hs : kind s) (hs' : kind s')
    (uri : Uri) (himports : ∀ edge ∈ r.imports, edge.uri ∈ few) (room : Nat)
    (tokens : List Token) :
    s'.usesToDiagnoseTokens uri r room tokens = s.usesToDiagnoseTokens uri r room tokens := by
  induction tokens generalizing s s' room with
  | nil => rfl
  | cons token tokens ih =>
    unfold usesToDiagnoseTokens
    cases room with
    | zero => rfl
    | succ left =>
      cases token.kind with
      | endTagName => exact ih hs hs' (left + 1)
      | startTagName =>
        obtain ⟨hfound, hkind⟩ := h.resolveIn hs uri token himports
        obtain ⟨hfound', hkind'⟩ := h.resolveIn hs' uri token himports
        simp only
        rw [h.usesToResolveIn_eq hs hs' token himports, hfound, hfound', ih hkind hkind' (left + 1),
          ih hkind hkind' left]

/-- **Two looks at the problems** of a document find the same, in the same course. -/
theorem diagnose_again (h : Steady few known kind) (hs : kind s) (hs' : kind s') (huri : uri ∈ few)
    (hown : known uri = some r) (himports : r.tokens ≠ [] → ∀ edge ∈ r.imports, edge.uri ∈ few)
    (settings : Settings) :
    (s'.diagnose uri settings).1.diagnostics = (s.diagnose uri settings).1.diagnostics
      ∧ s'.usesToDiagnose uri settings = s.usesToDiagnose uri settings := by
  have hcovers : ∀ r', known uri = some r' → r'.tokens ≠ [] →
      ∀ edge ∈ r'.imports, edge.uri ∈ few := by
    intro r' hr'
    rwa [← Option.some.inj (hown.symm.trans hr')]
  refine ⟨?_, ?_⟩
  · rw [(h.diagnose_of_tokens hs settings huri hcovers).1,
      (h.diagnose_of_tokens hs' settings huri hcovers).1]
  · obtain ⟨hfound, hkind⟩ := h s hs uri huri
    obtain ⟨hfound', hkind'⟩ := h s' hs' uri huri
    unfold usesToDiagnose
    simp only [hfound, hfound', hown, List.cons.injEq, true_and]
    by_cases htokens : r.tokens = []
    · rw [htokens]
      rfl
    · exact h.usesToDiagnoseTokens_eq hkind hkind' uri (himports htokens) _ _

end Steady

end Store

end ElementLens
