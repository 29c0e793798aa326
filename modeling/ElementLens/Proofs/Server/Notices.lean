/-
Notices of changes.

A client that changes a document says which one it is, which version it is in now, and
what was changed, one change after the other. Numbers are written as words of 32 bits. A
notice that keeps to this is read as it was meant:

* **`Params.changed?_written`** — the changes that a notice tells;
* **`Server.heard?_written`** — what a server hears of it.
-/
import ElementLens.Proofs.Server.Turns

namespace ElementLens

/-- A change of a text, as a client writes it. -/
def TextEdit.toJson (e : TextEdit) : Json :=
  match e.range with
  | none => .object [("text", .string e.newText)]
  | some r => .object [("range", r.toJson), ("text", .string e.newText)]

/-- Changes of a document, as a client writes them. The document goes by an address. -/
def Params.Changed.toJson (p : Params.Changed) (address : String) : Json :=
  .object [("textDocument", .object [("uri", .string address), ("version", .int p.version)]),
    ("contentChanges", .array (p.edits.map TextEdit.toJson))]

/-- The line and the character of a position fit in words. -/
def Position.FitsWords (p : Position) : Prop :=
  p.line < Json.wordBound ∧ p.character < Json.wordBound

/-- Changes that can be written: the address is that of the document, and numbers fit in
words. -/
structure Params.Changed.IsWritten (p : Params.Changed) (address : String) : Prop where
  uri : Uri.parse? address = some p.uri
  version : -2147483648 ≤ p.version ∧ p.version < 2147483648
  ranges : ∀ e ∈ p.edits, ∀ r ∈ e.range, r.start.FitsWords ∧ r.stop.FitsWords

theorem Json.word?_nat {n : Nat} (h : n < wordBound) : word? (.nat n) = some n := by
  simp [word?, natBelow?, Json.nat, h]

theorem Position.ofJson?_toJson {p : Position} (h : p.FitsWords) : ofJson? p.toJson = some p := by
  simp [ofJson?, toJson, Json.record?, Json.member?, Json.get?, List.lookup_cons, Json.word?_nat h.1,
    Json.word?_nat h.2]

theorem Span.ofJson?_toJson {r : Span} (hstart : r.start.FitsWords) (hstop : r.stop.FitsWords) :
    ofJson? r.toJson = some r := by
  simp [ofJson?, toJson, Json.record?, Json.member?, Json.get?, List.lookup_cons,
    Position.ofJson?_toJson hstart, Position.ofJson?_toJson hstop]

theorem TextEdit.ofJson?_toJson {e : TextEdit}
    (h : ∀ r ∈ e.range, r.start.FitsWords ∧ r.stop.FitsWords) : ofJson? e.toJson = some e := by
  obtain ⟨range, text⟩ := e
  cases range with
  | none =>
    simp [ofJson?, toJson, Json.record?, Json.member?, Json.optional?, Json.get?, List.lookup_cons,
      Json.string?]
  | some r =>
    obtain ⟨hstart, hstop⟩ := h r rfl
    have hr := Span.ofJson?_toJson hstart hstop
    simp only [Span.toJson] at hr
    simp [ofJson?, toJson, Span.toJson, Json.record?, Json.member?, Json.optional?, Json.get?,
      List.lookup_cons, Json.string?, hr]

theorem TextEdit.mapM_ofJson?_toJson {edits : List TextEdit}
    (h : ∀ e ∈ edits, ∀ r ∈ e.range, r.start.FitsWords ∧ r.stop.FitsWords) :
    (edits.map toJson).mapM ofJson? = some edits := by
  induction edits with
  | nil => rfl
  | cons e edits ih =>
    obtain ⟨he, hedits⟩ := List.forall_mem_cons.1 h
    simp [ofJson?_toJson he, ih hedits]

/-- **A written notice of changes is read** as it was meant. -/
theorem Params.changed?_written {p : Params.Changed} {address : String}
    (h : p.IsWritten address) : changed? (p.toJson address) = some p := by
  simp [changed?, Changed.toJson, Json.record?, Json.member?, Json.get?, List.lookup_cons,
    Uri.ofJson?, Json.string?, h.uri, Json.signedWord?, Json.int?, h.version, Json.list?,
    Json.array?, TextEdit.mapM_ofJson?_toJson h.ranges]

/-- A server that is ready hears a written notice of changes. -/
theorem Server.heard?_written {s : Server} {p : Params.Changed} {address : String}
    (hready : s.lifecycle = .ready) (h : p.IsWritten address) :
    s.heard? "textDocument/didChange" (some (p.toJson address)) = some (.changed p) := by
  rw [heard?, if_pos hready, Heard.read?, Option.bind_some, Params.changed?_written h]
  rfl

end ElementLens
