/-
Imports of one module.

The URI of an import is made from its file path, which was resolved before. Since
a URI keeps every component of a path (`Uri.decodeBytes_encodeBytes`), two imports
under one URI are imports of one file:

* **`ImportEdge.Resolved.filePath_eq`** — the URI of an import determines its
  file;
* **`resolved_of_extractBy`** — all imports in a record are of this kind.
-/
import ElementLens.Component.Extract
import ElementLens.Proofs.Path.Components
import ElementLens.Proofs.Syntax.Places

namespace ElementLens

open Syntax (Node)

namespace Uri

/-! ### Percent encoding -/

theorem hexValue_hexDigit : ∀ n < 16, Text.hexValue (Text.hexDigit n) = some n := by
  decide

theorem utf8EncodeChar_ofNat : ∀ n < 0x80,
    String.utf8EncodeChar (Char.ofNat n) = [UInt8.ofNat n] := by
  decide

theorem decodeBytes_cons_of_ne {c : Char} (hc : c ≠ '%') (cs : List Char) :
    decodeBytes (c :: cs) = String.utf8EncodeChar c ++ decodeBytes cs := by
  rw [decodeBytes]
  rintro a b rest heq -
  exact hc heq

/-- A byte can be read back, if `%` itself is encoded. -/
theorem decodeBytes_encodeIn {set : EncodeSet} (hset : set '%' = true) (b : UInt8)
    (cs : List Char) : decodeBytes (encodeIn set b ++ cs) = b :: decodeBytes cs := by
  have hb : b.toNat < 256 := b.toNat_lt
  unfold encodeIn
  simp only
  split
  · have hhigh := hexValue_hexDigit (b.toNat / 16) (by omega)
    have hlow := hexValue_hexDigit (b.toNat % 16) (by omega)
    have hsum : 16 * (b.toNat / 16) + b.toNat % 16 = b.toNat := Nat.div_add_mod ..
    simp only [encodeByte, List.cons_append, List.nil_append, decodeBytes, hhigh, hlow, hsum,
      UInt8.ofNat_toNat]
  · next hplain =>
    rw [Bool.or_eq_true, not_or, decide_eq_true_eq] at hplain
    have hne : Char.ofNat b.toNat ≠ '%' := fun heq => hplain.1 (heq ▸ hset)
    rw [List.singleton_append, decodeBytes_cons_of_ne hne, utf8EncodeChar_ofNat _ (by omega),
      UInt8.ofNat_toNat, List.singleton_append]

/-- Bytes can be read back, if `%` itself is encoded. -/
theorem decodeBytes_encodeBytes {set : EncodeSet} (hset : set '%' = true) (bytes : List UInt8) :
    decodeBytes (encodeBytes set bytes) = bytes := by
  induction bytes with
  | nil => rfl
  | cons b bytes ih =>
    rw [encodeBytes, List.flatMap_cons, decodeBytes_encodeIn hset, ← encodeBytes, ih]

/-- Different components are written differently in a URI. -/
theorem ofList_encodeBytes_injective :
    Function.Injective fun part => String.ofList (encodeBytes componentSet part) := by
  have hset : componentSet '%' = true := by cbv
  intro part part' h
  rw [← decodeBytes_encodeBytes hset part, ← decodeBytes_encodeBytes hset part',
    String.ofList_injective h]

/-! ### The URI of a file -/

/-- The one empty segment stands for no segments. -/
theorem eq_of_rooted_eq {parts parts' : List String} (hne : parts ≠ [""]) (hne' : parts' ≠ [""])
    (h : (if parts = [] then [""] else parts) = if parts' = [] then [""] else parts') :
    parts = parts' := by
  split at h <;> split at h
  · next hnil hnil' => rw [hnil, hnil']
  · exact absurd h.symm hne'
  · exact absurd h hne
  · exact h

theorem isAbsolute_of_ofPath? {p : Path} {uri : Uri} (h : ofPath? p = some uri) :
    p.isAbsolute = true := by
  unfold ofPath? at h
  split at h
  · assumption
  · exact absurd h (by simp)

/-- Paths with one URI have the same components. -/
theorem components_eq_of_ofPath? {p q : Path} {uri : Uri} (hp : ofPath? p = some uri)
    (hq : ofPath? q = some uri) : p.components = q.components := by
  -- no component is empty, so none is written as the segment of the root
  have hroot (p : Path) :
      p.components.map (fun part => String.ofList (encodeBytes componentSet part)) ≠ [""] := by
    intro heq
    obtain ⟨part, hcomponents, hpart⟩ := List.map_eq_singleton_iff.1 heq
    have hempty : part = [] := ofList_encodeBytes_injective (hpart.trans (by rfl))
    have hmem : part ∈ p.components := hcomponents ▸ List.mem_cons_self
    exact (Path.mem_components_iff.1 hmem).2.1 hempty
  rw [ofPath?, if_pos (isAbsolute_of_ofPath? hp)] at hp
  rw [ofPath?, if_pos (isAbsolute_of_ofPath? hq), ← hp] at hq
  have hsegments := Route.segments.inj (Uri.mk.inj (Option.some.inj hq.symm)).2.2.1
  exact ofList_encodeBytes_injective.list_map (eq_of_rooted_eq (hroot p) (hroot q) hsegments)

end Uri

/-! ### Imports -/

namespace ImportEdge

/-- An import as it stands in a record: its file path was resolved, and its URI is
made from it. -/
structure Resolved (edge : ImportEdge) : Prop where
  spelled : edge.filePath.Spelled
  uri : Uri.ofPath? edge.filePath = some edge.uri

/-- The URI of an import determines its file. -/
theorem Resolved.filePath_eq {edge edge' : ImportEdge} (h : edge.Resolved) (h' : edge'.Resolved)
    (huri : edge.uri = edge'.uri) : edge.filePath = edge'.filePath := by
  have hsame : Uri.ofPath? edge.filePath = some edge'.uri := h.uri.trans (congrArg some huri)
  refine h.spelled.ext h'.spelled ?_ (Uri.components_eq_of_ofPath? hsame h'.uri)
  rw [Uri.isAbsolute_of_ofPath? hsame, Uri.isAbsolute_of_ofPath? h'.uri]

theorem resolved_of_ofSpecifier? {importer : Path} {specifier : String} {edge : ImportEdge}
    (h : ofSpecifier? importer specifier = some edge) : edge.Resolved := by
  unfold ofSpecifier? at h
  split at h
  · obtain ⟨directory, -, h⟩ := Option.bind_eq_some_iff.1 h
    obtain ⟨uri, huri, h⟩ := Option.bind_eq_some_iff.1 h
    rw [← Option.some.inj h]
    exact ⟨Path.spelled_resolve _ _, huri⟩
  · exact absurd h (by simp)

theorem resolved_of_ofStatement? {importer : Path} {n : ScriptNode} {edge : ImportEdge}
    (h : ofStatement? importer n = some edge) : edge.Resolved := by
  obtain ⟨source, -, h⟩ := Option.bind_eq_some_iff.1 h
  exact resolved_of_ofSpecifier? h

end ImportEdge

/-- A visit adds no import but that of its node. -/
theorem Extraction.resolved_visit {d : Document} {filePath : Path} {tokenizer : Markup.Tokenizer}
    {registrations : List Registration} {x x' : Extraction} {n : ScriptNode}
    (hx : ∀ edge ∈ x.imports, edge.Resolved)
    (hvisit : x.visit d filePath tokenizer registrations n = .ok x') :
    ∀ edge ∈ x'.imports, edge.Resolved := by
  unfold visit at hvisit
  split at hvisit
  · split at hvisit
    · rwa [← Except.ok.inj hvisit]
    · unfold addTemplate at hvisit
      split at hvisit
      · exact absurd hvisit (by simp)
      · rwa [← Except.ok.inj hvisit]
  · rw [← Except.ok.inj hvisit]
    unfold addClass
    split
    · exact hx
    · split <;> exact hx
  · rw [← Except.ok.inj hvisit]
    unfold addImport
    cases hedge : ImportEdge.ofStatement? filePath n with
    | none => exact hx
    | some edge =>
      exact List.forall_mem_cons.2 ⟨ImportEdge.resolved_of_ofStatement? hedge, hx⟩
  · rwa [← Except.ok.inj hvisit]

/-- **All imports in a record** have URIs that are made from their file paths. -/
theorem resolved_of_extractBy {parse? : List Char → Option (Syntax.Tree Script.Kind)}
    {d : Document} {tokenizer : Markup.Tokenizer} {r : Record}
    (h : (extractBy parse? d tokenizer).1 = .ok r) : ∀ edge ∈ r.imports, edge.Resolved := by
  unfold extractBy at h
  cases hpath : d.uri.toPath? with
  | none => simp [hpath] at h
  | some filePath =>
    cases hparse : parse? d.text.toList with
    | none => simp [hpath, hparse] at h
    | some tree =>
      have hall : ∀ edge ∈ (Node.visitAll (Extraction.visit d filePath tokenizer
          (Registration.scan d.text)) Extraction.empty (Node.preorder ⟨0, tree⟩)).1.imports,
            edge.Resolved :=
        Node.visitAll_induction (fun x : Extraction => ∀ edge ∈ x.imports, edge.Resolved)
          (fun _ _ _ hx hvisit => Extraction.resolved_visit hx hvisit) _ _
          fun _ he => absurd he List.not_mem_nil
      rw [← Node.walk_eq_visitAll] at hall
      simp only [hpath, hparse] at h
      rcases hwalk : Node.walk (Extraction.visit d filePath tokenizer (Registration.scan d.text))
        Extraction.empty ⟨0, tree⟩ with ⟨x, failure⟩
      rw [hwalk] at h hall
      cases failure with
      | some e => exact absurd h (by simp)
      | none =>
        rw [← Except.ok.inj h]
        exact fun edge hedge => hall edge (List.mem_reverse.1 hedge)

end ElementLens
