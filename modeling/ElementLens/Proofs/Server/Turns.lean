/-
What a server hears.

A server takes turns (`Server.Turn`): the client sends a request or a notice, or
time passes. From one turn to the next the loader, the files and the answer of the
client may change. Of all that a client may send, little makes a difference to
what the server has in hand: the notices that it hears (`Server.Heard`) and the
questions that it looks something up for (`Server.Query`), both while the
conversation lasts.

* **`notice_eq`** — what a notice does;
* **`hear_eq`** — what the server does when it hears something;
* **`request_cases`** — what a request does.
-/
import ElementLens.Server.Dispatch

namespace ElementLens

namespace Server

/-- What may happen next. -/
inductive Turn where
  | request (method : String) (params : Option Json)
  | notice (method : String) (params : Option Json)
  | pass (milliseconds : Nat)

/-- What a turn does. -/
def turn (s : Server) (around : Surroundings) : Turn → Server
  | .request method params => (s.request around method params).2
  | .notice method params => s.notice method params
  | .pass milliseconds => s.pass around milliseconds

/-- The server after some turns, each with what is around it. -/
def run (s : Server) (turns : List (Surroundings × Turn)) : Server :=
  turns.foldl (fun s t => s.turn t.1 t.2) s

@[simp] theorem run_nil (s : Server) : s.run [] = s := rfl

theorem run_concat (s : Server) (turns : List (Surroundings × Turn)) (around : Surroundings)
    (t : Turn) : s.run (turns ++ [(around, t)]) = (s.run turns).turn around t :=
  List.foldl_append ..

/-! ### Notices -/

/-- What a notice says. -/
inductive Heard where
  | ready
  | opened (p : Params.Opened)
  | changed (p : Params.Changed)
  | closed (uri : Uri)
  | configured (change : Json)
  | activated (uri : Uri)
  | shutDown

/-- Reads a notice. -/
def Heard.read? (method : String) (params : Option Json) : Option Heard :=
  match method with
  | "initialized" => (params.bind Params.ready?).map fun _ => ready
  | "textDocument/didOpen" => (params.bind Params.opened?).map opened
  | "textDocument/didChange" => (params.bind Params.changed?).map changed
  | "textDocument/didClose" => (params.bind Params.document?).map closed
  | "workspace/didChangeConfiguration" => (params.bind Params.settings?).map configured
  | "custom/activeDocumentChanged" => (params.bind Params.named?).map activated
  | "shutdown" => some shutDown
  | _ => none

/-- What the server hears of a notice. -/
def heard? (s : Server) (method : String) (params : Option Json) : Option Heard :=
  if s.lifecycle = .ready then Heard.read? method params else none

/-- What the server does when it hears something. -/
def hear (s : Server) : Heard → Server
  | .ready => s.initialized
  | .opened p => s.didOpen p
  | .changed p => s.didChange p
  | .closed uri => s.didClose uri
  | .configured change => s.didChangeConfiguration change
  | .activated uri => s.activeDocumentChanged uri
  | .shutDown => { s with lifecycle := .shutDown }

/-- The server after it has taken in what it hears, before it asks for updates. -/
def absorb (s : Server) : Heard → Server
  | .ready => s.initialized
  | .opened p => { s with session := s.session.openDocument p.uri p.version p.text }
  | .changed p => { s with session := (s.session.change p.uri p.version p.edits).2 }
  | .closed uri => s.didClose uri
  | .configured change =>
    if s.flags.configuration then
      { s with session := s.session.withStore s.session.store.clear }
    else { s with settings := Settings.ofChange change }
  | .activated _ => s
  | .shutDown => { s with lifecycle := .shutDown }

/-- The documents of which updates are asked for when something is heard. -/
def affected (s : Server) : Heard → List Uri
  | .opened p => [p.uri]
  | .changed p => if s.session.isOpen p.uri then [p.uri] else []
  | .configured _ => s.session.openUris
  | .activated uri => if s.session.isOpen uri then [uri] else []
  | .ready | .closed _ | .shutDown => []

/-- **What the server does when it hears something**: it takes it in, and asks for
updates. -/
theorem hear_eq (s : Server) (h : Heard) :
    s.hear h = (s.affected h).foldl scheduleUpdate (s.absorb h) := by
  cases h with
  | ready | opened | closed | shutDown => rfl
  | changed p =>
    unfold hear didChange affected absorb
    cases hknown : s.session.isOpen p.uri <;> simp [Session.change, hknown]
  | configured change =>
    unfold hear didChangeConfiguration affected absorb
    cases s.flags.configuration <;> rfl
  | activated uri =>
    unfold hear activeDocumentChanged affected absorb
    cases hknown : s.session.isOpen uri <;> simp [hknown]

theorem take_eq (s : Server) (method : String) (params : Option Json) :
    s.take method params = ((Heard.read? method params).map s.hear).getD s := by
  unfold take acting
  split
  · rw [Heard.read?]; cases params.bind Params.ready? <;> rfl
  · rw [Heard.read?]; cases params.bind Params.opened? <;> rfl
  · rw [Heard.read?]; cases params.bind Params.changed? <;> rfl
  · rw [Heard.read?]; cases params.bind Params.document? <;> rfl
  · rw [Heard.read?]; cases params.bind Params.settings? <;> rfl
  · rw [Heard.read?]; cases params.bind Params.named? <;> rfl
  · rfl
  · rw [Heard.read?]
    · rfl
    all_goals assumption

/-- How far the conversation is has changed at most, and at the beginning what is
known of the client. -/
structure Converses (s s' : Server) : Prop where
  rest : s' = { s with lifecycle := s'.lifecycle, flags := s'.flags }
  flags : s.lifecycle ≠ .beginning → s'.flags = s.flags
  begun : s'.lifecycle = .beginning → s.lifecycle = .beginning
  ended : s.lifecycle = .over → s'.lifecycle = .over

theorem Converses.refl (s : Server) : Converses s s := ⟨rfl, fun _ => rfl, id, id⟩

theorem Converses.finish (s : Server) : Converses s s.finish :=
  ⟨rfl, fun _ => rfl, fun h => absurd h (by simp [Server.finish]), fun _ => rfl⟩

/-- **What a notice does.** -/
theorem notice_eq (s : Server) (method : String) (params : Option Json) :
    (∃ h, s.heard? method params = some h ∧ s.notice method params = s.hear h)
      ∨ s.heard? method params = none ∧ Converses s (s.notice method params) := by
  unfold notice heard?
  by_cases hexit : method = "exit"
  · rw [if_pos hexit, hexit]
    refine .inr ⟨?_, .finish s⟩
    split <;> rfl
  rw [if_neg hexit]
  cases hlifecycle : s.lifecycle with
  | ready =>
    simp only [if_true, take_eq]
    cases Heard.read? method params with
    | none => exact .inr ⟨rfl, .refl s⟩
    | some h => exact .inl ⟨h, rfl, rfl⟩
  | _ => exact .inr ⟨if_neg (by simp), .refl s⟩

/-! ### Requests -/

/-- A question that the server looks something up for. -/
inductive Query where
  | definition (uri : Uri) (p : Position)
  | hover (uri : Uri) (p : Position)
  | diagnostic (uri : Uri)

/-- Reads a question. -/
def Query.read? (method : String) (params : Option Json) : Option Query :=
  match method with
  | "textDocument/definition" => (params.bind Params.defined?).map fun (u, p) => definition u p
  | "textDocument/hover" => (params.bind Params.hovered?).map fun (u, p) => hover u p
  | "textDocument/diagnostic" => (params.bind Params.diagnosed?).map diagnostic
  | _ => none

/-- The question that the server is asked by a request. -/
def query? (s : Server) (method : String) (params : Option Json) : Option Query :=
  if s.lifecycle = .ready then Query.read? method params else none

/-- The server after it has looked up the answer to a question. -/
def lookUp (s : Server) (around : Surroundings) : Query → Server
  | .definition uri p => (s.definition uri p).2
  | .hover uri p => (s.hover uri p).2
  | .diagnostic uri => (s.diagnostic around uri).2

theorem answer_snd (s : Server) (around : Surroundings) (method : String) (params : Option Json) :
    (s.answer around method params).2
      = ((Query.read? method params).map (s.lookUp around)).getD s := by
  unfold answer withParams
  split
  · rw [Query.read?]; cases params.bind Params.defined? <;> rfl
  · rw [Query.read?]; cases params.bind Params.hovered? <;> rfl
  · rw [Query.read?]; cases params.bind Params.diagnosed? <;> rfl
  · rw [Query.read?]
    · split
      · split <;> rfl
      · rfl
    all_goals assumption

/-- A method that the protocol does not have asks nothing. -/
theorem Query.read?_eq_none {method : String} (params : Option Json)
    (hunknown : ¬ hasMethod method = true) : Query.read? method params = none := by
  unfold Query.read?
  split
  · exact absurd rfl hunknown
  · exact absurd rfl hunknown
  · exact absurd rfl hunknown
  · rfl

theorem converses_introduce (s : Server) (params : Option Json) :
    Converses s (s.introduce params).2 := by
  unfold introduce
  split
  · next hbeginning =>
    cases params.bind Params.introduced? with
    | none => exact .refl s
    | some flags =>
      exact ⟨rfl, fun h => absurd hbeginning h, fun _ => hbeginning,
        fun h => absurd (hbeginning.symm.trans h) (by simp)⟩
  · exact .refl s

theorem converses_shutdown (s : Server) (params : Option Json) :
    Converses s (s.shutdown params).2 := by
  unfold shutdown refusal?
  cases hlifecycle : s.lifecycle with
  | ready =>
    exact ⟨rfl, fun _ => rfl, fun h => absurd h (by simp),
      fun h => absurd (hlifecycle.symm.trans h) (by simp)⟩
  | _ => exact .refl s

/-- **What a request does.** -/
theorem request_cases (s : Server) (around : Surroundings) (method : String)
    (params : Option Json) :
    (∃ q, s.query? method params = some q
        ∧ (s.request around method params).2 = s.lookUp around q)
      ∨ s.query? method params = none ∧ Converses s (s.request around method params).2 := by
  unfold request
  cases hover : s.isOver with
  | true =>
    have hlifecycle : s.lifecycle = .over := by simpa [isOver] using hover
    exact .inr ⟨if_neg (by simp [hlifecycle]), .refl s⟩
  | false =>
    simp only [Bool.false_eq_true, if_false]
    unfold respond
    split
    · exact .inr ⟨ite_self _, .finish s⟩
    · exact .inr ⟨ite_self _, .refl s⟩
    · exact .inr ⟨ite_self _, converses_introduce s params⟩
    · exact .inr ⟨ite_self _, converses_shutdown s params⟩
    · split
      · unfold refusal? query?
        cases hlifecycle : s.lifecycle with
        | ready =>
          simp only [if_true, Prod.map_snd, id_eq, answer_snd]
          cases Query.read? method params with
          | none => exact .inr ⟨rfl, .refl s⟩
          | some q => exact .inl ⟨q, rfl, rfl⟩
        | _ => exact .inr ⟨if_neg (by simp), .refl s⟩
      · next hunknown =>
        refine .inr ⟨by rw [query?, Query.read?_eq_none params hunknown, ite_self], ?_⟩
        split <;> exact .refl s

end Server

end ElementLens
