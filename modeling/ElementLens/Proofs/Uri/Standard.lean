/-
Standard spellings of file URIs.

A path may be named by many URIs: a character that need not be encoded may be, the
digits after `%` may be small letters, the host may be left out or be the local one,
there may be empty segments, a query or a fragment. A URI that is made from a path is
spelled in one way, the standard one (`Uri.Standard`), in which a segment is encoded
where it has to be (`Uri.Written`):

* **`written_iff`** — what a component of a path is written as;
* **`components_toPath?`** — the components of the path that a URI in standard
  spelling names;
* **`ofPath?_eq_some_iff`** — the path of a URI has this URI if and only if the
  spelling is standard;
* **`ImportEdge.Resolved.uri_eq_iff`** — so it is with the files that are imported.
-/
import ElementLens.Proofs.Component.Edges
import Mathlib

namespace ElementLens

namespace Uri

/-! ### Segments -/

/-- Whether a byte has to be encoded in a component of a path. -/
def mustEncode (b : UInt8) : Bool :=
  componentSet (Char.ofNat b.toNat) || 0x80 ≤ b.toNat

/-- A segment in standard spelling: a character stands for itself if it may, and else
its bytes are encoded, with capital letters. No slash is encoded. -/
inductive Written : List Char → Prop
  | nil : Written []
  | plain (c : Char) (cs : List Char) (hascii : c.toNat < 0x80) (hplain : componentSet c = false) :
    Written cs → Written (c :: cs)
  | encoded (b : UInt8) (cs : List Char) (hmust : mustEncode b) (hslash : b ≠ Path.slash) :
    Written cs → Written (encodeByte b ++ cs)

/-- The standard spelling of a file URI: nothing but a path after an empty host. The
path is the root, or has segments that are in standard spelling, not empty, and not
`.`. -/
structure Standard (u : Uri) : Prop where
  scheme : u.scheme = "file"
  host : u.authority = some .empty
  query : u.query = none
  fragment : u.fragment = none
  route : u.route = .segments [""] ∨ ∃ parts ≠ [], u.route = .segments parts
    ∧ ∀ part ∈ parts, part ≠ "" ∧ part ≠ "." ∧ Written part.toList

theorem toNat_ofNat : ∀ n < 0x80, (Char.ofNat n).toNat = n := by
  decide

theorem componentSet_percent : componentSet '%' = true := by cbv

theorem encodeIn_of_mustEncode {b : UInt8} (h : mustEncode b) :
    encodeIn componentSet b = encodeByte b :=
  if_pos h

/-- A character that stands for itself is read as its byte, and written again. -/
theorem encodeIn_ofNat {c : Char} (hascii : c.toNat < 0x80) (hplain : componentSet c = false) :
    encodeIn componentSet (UInt8.ofNat c.toNat) = [c] := by
  have hbyte : (UInt8.ofNat c.toNat).toNat = c.toNat := by
    rw [UInt8.toNat_ofNat', Nat.mod_eq_of_lt (by omega)]
  have hc : Char.ofNat c.toNat = c := Char.ofNat_toNat c
  rw [encodeIn, hbyte, hc]
  simp [hplain, Nat.not_le.2 hascii]

theorem decodeBytes_plain {c : Char} (hascii : c.toNat < 0x80) (hplain : componentSet c = false)
    (cs : List Char) : decodeBytes (c :: cs) = UInt8.ofNat c.toNat :: decodeBytes cs := by
  have hne : c ≠ '%' := fun heq => absurd hplain (by rw [heq, componentSet_percent]; simp)
  have hchar := utf8EncodeChar_ofNat c.toNat hascii
  rw [Char.ofNat_toNat] at hchar
  rw [decodeBytes_cons_of_ne hne, hchar, List.singleton_append]

/-- Standard segments are what components of paths are written as. -/
theorem written_encodeBytes {bytes : List UInt8} (h : Path.slash ∉ bytes) :
    Written (encodeBytes componentSet bytes) := by
  induction bytes with
  | nil => exact .nil
  | cons b bytes ih =>
    rw [List.mem_cons, not_or] at h
    have hrest := ih h.2
    rw [encodeBytes, List.flatMap_cons, ← encodeBytes]
    by_cases hmust : mustEncode b
    · rw [encodeIn_of_mustEncode hmust]
      exact .encoded b _ hmust (Ne.symm h.1) hrest
    · have hb := hmust
      rw [mustEncode, Bool.or_eq_true, not_or, decide_eq_true_eq, Bool.not_eq_true] at hb
      have hbyte : (Char.ofNat b.toNat).toNat = b.toNat := toNat_ofNat _ (by omega)
      rw [show encodeIn componentSet b = [Char.ofNat b.toNat] from if_neg hmust]
      exact .plain _ _ (by rw [hbyte]; omega) hb.1 hrest

/-- A standard segment is what its bytes are written as, and there is no slash in it. -/
theorem Written.eq {cs : List Char} (h : Written cs) :
    encodeBytes componentSet (decodeBytes cs) = cs ∧ Path.slash ∉ decodeBytes cs := by
  induction h with
  | nil => exact ⟨rfl, by simp [decodeBytes]⟩
  | plain c cs hascii hplain _ ih =>
    obtain ⟨hcs, hslash⟩ := ih
    rw [decodeBytes_plain hascii hplain, encodeBytes, List.flatMap_cons, ← encodeBytes, hcs,
      encodeIn_ofNat hascii hplain, List.mem_cons, not_or]
    refine ⟨rfl, fun heq => ?_, hslash⟩
    have hc : c.toNat = 47 := by
      have := congrArg UInt8.toNat heq
      rw [UInt8.toNat_ofNat', Nat.mod_eq_of_lt (by omega)] at this
      exact this.symm
    rw [← Char.ofNat_toNat c, hc] at hplain
    exact absurd hplain (by cbv; simp)
  | encoded b cs hmust hslash _ ih =>
    obtain ⟨hcs, hslash'⟩ := ih
    have hbyte : decodeBytes (encodeByte b ++ cs) = b :: decodeBytes cs := by
      rw [← encodeIn_of_mustEncode hmust]
      exact decodeBytes_encodeIn componentSet_percent b cs
    rw [hbyte, encodeBytes, List.flatMap_cons, ← encodeBytes, hcs, encodeIn_of_mustEncode hmust,
      List.mem_cons, not_or]
    exact ⟨rfl, Ne.symm hslash, hslash'⟩

/-- **Standard segments** are what components without a slash are written as. -/
theorem written_iff {cs : List Char} :
    Written cs ↔ ∃ bytes, Path.slash ∉ bytes ∧ cs = encodeBytes componentSet bytes := by
  constructor
  · intro h
    exact ⟨_, h.eq.2, h.eq.1.symm⟩
  · rintro ⟨bytes, hslash, rfl⟩
    exact written_encodeBytes hslash

/-! ### The path of a URI -/

variable {u : Uri} {p q : Path}

theorem isAbsolute_toPath? (h : u.toPath? = some p) : p.isAbsolute = true := by
  unfold toPath? at h
  split at h
  · rw [← Option.some.inj h, Path.isAbsolute]
    simp only [List.flatMap_cons, List.cons_append]
    split <;> simp
  · exact absurd h (by simp)

/-- The segments of a URI are the parts of its path. -/
theorem components_toPath? (h : u.toPath? = some p) : ∃ parts, u.route = .segments parts
    ∧ p.components = parts.flatMap fun part => (⟨decodeBytes part.toList⟩ : Path).components := by
  unfold toPath? at h
  split at h
  · next part parts _ hroute =>
    refine ⟨part :: parts, hroute, ?_⟩
    have hparts : (⟨(part :: parts).flatMap fun part => Path.slash :: decodeBytes part.toList⟩
        : Path).components
        = (part :: parts).flatMap fun part => (⟨decodeBytes part.toList⟩ : Path).components := by
      have hflat := Path.components_flatMap [] ((part :: parts).map fun part =>
        decodeBytes part.toList)
      rwa [List.flatMap_map, List.flatMap_map] at hflat
    rw [← Option.some.inj h]
    split
    · -- the slash after a drive letter adds nothing
      rw [Path.components_append_slash, hparts]
      exact List.append_nil _
    · exact hparts
  · exact absurd h (by simp)

/-- A component that is written in standard spelling is read back. -/
theorem Written.components {part : String} (h : Written part.toList) (hnonempty : part ≠ "")
    (hhere : part ≠ ".") :
    (⟨decodeBytes part.toList⟩ : Path).components = [decodeBytes part.toList] := by
  obtain ⟨hpart, hslash⟩ := h.eq
  have hback (s : String) (bytes : List UInt8) (hs : encodeBytes componentSet bytes = s.toList)
      (hbytes : decodeBytes part.toList = bytes) : part = s := by
    rw [hbytes, hs] at hpart
    exact String.toList_inj.1 hpart.symm
  exact Path.components_part (fun heq => hnonempty (hback "" [] (by rfl) heq))
    (fun heq => hhere (hback "." Path.here (by cbv) heq)) hslash

/-- The URI of a path is in standard spelling. -/
theorem standard_of_ofPath? (h : ofPath? p = some u) : u.Standard := by
  rw [ofPath?, if_pos (isAbsolute_of_ofPath? h)] at h
  obtain rfl := (Option.some.inj h).symm
  refine ⟨rfl, rfl, rfl, rfl, ?_⟩
  simp only
  split
  · exact .inl rfl
  · next hne =>
    refine .inr ⟨_, hne, rfl, fun part hpart => ?_⟩
    obtain ⟨bytes, hbytes, rfl⟩ := List.mem_map.1 hpart
    obtain ⟨hsplit, hnonempty, hhere⟩ := Path.mem_components_iff.1 hbytes
    refine ⟨fun heq => hnonempty ?_, fun heq => hhere ?_, ?_⟩
    · exact ofList_encodeBytes_injective (heq.trans (by rfl))
    · exact ofList_encodeBytes_injective (heq.trans (by cbv))
    · rw [String.toList_ofList]
      exact written_encodeBytes (Path.notMem_of_mem_splitOn hsplit)

/-- Segments in standard spelling are what the components are written as. -/
theorem map_components_of_written {parts : List String}
    (h : ∀ part ∈ parts, part ≠ "" ∧ part ≠ "." ∧ Written part.toList) :
    (parts.flatMap fun part => (⟨decodeBytes part.toList⟩ : Path).components).map
      (fun part => String.ofList (encodeBytes componentSet part)) = parts := by
  induction parts with
  | nil => rfl
  | cons part parts ih =>
    obtain ⟨hnonempty, hhere, hwritten⟩ := h part List.mem_cons_self
    rw [List.flatMap_cons, hwritten.components hnonempty hhere, List.singleton_append,
      List.map_cons, hwritten.eq.1, String.ofList_toList,
      ih fun p hp => h p (List.mem_cons_of_mem _ hp)]

/-- A URI in standard spelling is the one of its path. -/
theorem Standard.ofPath?_eq (h : u.Standard) (hu : u.toPath? = some p) : ofPath? p = some u := by
  obtain ⟨parts, hroute, hcomponents⟩ := components_toPath? hu
  rw [ofPath?, if_pos (isAbsolute_toPath? hu)]
  obtain ⟨hscheme, hhost, hquery, hfragment, hsegments⟩ := h
  cases u
  simp only at hscheme hhost hquery hfragment hroute hsegments
  subst hscheme hhost hquery hfragment hroute
  rcases hsegments with hroot | ⟨parts', hne, hparts, hwritten⟩
  · obtain rfl := Route.segments.inj hroot
    rw [hcomponents]
    rfl
  · obtain rfl := Route.segments.inj hparts
    simp only [hcomponents, map_components_of_written hwritten, if_neg hne]

/-- **Standard spellings.** The path of a URI has this URI if and only if the spelling is
standard. -/
theorem ofPath?_eq_some_iff (hu : u.toPath? = some p) : ofPath? p = some u ↔ u.Standard :=
  ⟨standard_of_ofPath?, fun h => h.ofPath?_eq hu⟩

/-- Only the components of an absolute path are seen in its URI. -/
theorem ofPath?_congr (habsolute : p.isAbsolute = q.isAbsolute)
    (hcomponents : p.components = q.components) : ofPath? p = ofPath? q := by
  rw [ofPath?, ofPath?, habsolute, hcomponents]

end Uri

/-- **The URI of an import** is a given URI of its file if and only if that one is in
standard spelling. -/
theorem ImportEdge.Resolved.uri_eq_iff {edge : ImportEdge} {u : Uri} {p : Path}
    (h : edge.Resolved) (hu : u.toPath? = some p)
    (hfile : edge.filePath.components = p.components) : edge.uri = u ↔ u.Standard := by
  have habsolute : edge.filePath.isAbsolute = p.isAbsolute := by
    rw [Uri.isAbsolute_of_ofPath? h.uri, Uri.isAbsolute_toPath? hu]
  have huri : Uri.ofPath? p = some edge.uri := by
    rw [← Uri.ofPath?_congr habsolute hfile, h.uri]
  rw [← Uri.ofPath?_eq_some_iff hu, huri, Option.some.injEq]

end ElementLens
