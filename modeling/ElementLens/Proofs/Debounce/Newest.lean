/-
Only the newest task does its work, and no call is lost.

Whatever is called for at whatever times, and however long work takes, an
execution is `Debounced`: a task does its work once, as soon as it may, and
exactly if it is not overtaken (`History.Overtaken`), that is, if its key is not
called for once more before the task looks whether it is the newest. The last
task of a key is not overtaken, so every call is followed by work.

* **`Consistent.overtaken_iff`** — the story of a task tells whether it was
  overtaken;
* **`Consistent.exists_work`** — every call is followed by work;
* **`Clockwork.debounced_run`** — what executions do.
-/
import ElementLens.Proofs.Debounce.Progress

namespace ElementLens.Debouncer

/-- Whether a task has looked whether it is the newest. It looks when it wakes
up, and once more when it has the lock of its key. -/
def Kind.isLook : Kind → Bool
  | .woke _ | .started | .refused => true
  | .called | .ended | .answered _ => false

namespace History

variable {K : Type} {h earlier : History K} {e s s' : Event K} {g : Nat}

/-- The work of a task has begun. -/
def Started (h : History K) (g : Nat) : Prop := .started ∈ h.story g

/-- A task is overtaken: after the call for it, its key is called for once more
before the task looks. -/
def Overtaken (h : History K) (g : Nat) : Prop :=
  ∃ s s' e : Event K, [e, s', s].Sublist h ∧ s.kind = .called ∧ s'.kind = .called
    ∧ s'.key = s.key ∧ s.generation = g ∧ e.generation = g ∧ e.kind.isLook = true

/-- Two things happened one after the other, the second one first in the list. -/
theorem pair_sublist_of_suffix (hsuffix : e :: earlier <:+ h) (hs : s ∈ earlier) :
    [e, s].Sublist h :=
  ((List.singleton_sublist.2 hs).cons_cons e).trans hsuffix.sublist

theorem exists_suffix_of_cons_sublist {l : List (Event K)} (hsub : (e :: l).Sublist h) :
    ∃ earlier : History K, e :: earlier <:+ h ∧ l.Sublist earlier := by
  obtain ⟨before, after, rfl, he, hl⟩ := List.cons_sublist_iff.1 hsub
  obtain ⟨front, back, rfl⟩ := List.append_of_mem he
  refine ⟨back ++ after, ⟨front, by simp⟩, hl.trans (List.sublist_append_right _ _)⟩

theorem exists_suffix_of_mem (he : e ∈ h) : ∃ earlier : History K, e :: earlier <:+ h := by
  obtain ⟨front, back, rfl⟩ := List.append_of_mem he
  exact ⟨back, front, rfl⟩

theorem story_sublist (hsub : earlier.Sublist h) (g : Nat) : (earlier.story g).Sublist (h.story g) :=
  (hsub.filter _).map _

theorem story_append (h earlier : History K) (g : Nat) :
    story (h ++ earlier) g = h.story g ++ earlier.story g := by
  simp [story]

variable [DecidableEq K]

/-- The last call for a key comes after all other calls for it. -/
theorem lastCall?_split (hs : h.lastCall? s.key = some s') (hmem : s ∈ h) (hk : s.kind = .called) :
    ∃ front back, h = front ++ s' :: back ∧ s ∈ s' :: back
      ∧ ∀ e ∈ front, ¬ (e.kind = .called ∧ e.key = s.key) := by
  obtain ⟨-, front, back, rfl, hfront⟩ := List.find?_eq_some_iff_append.1 hs
  have hnot : ∀ e ∈ front, ¬ (e.kind = .called ∧ e.key = s.key) := by
    intro e he hcall
    simpa [hcall.1, hcall.2] using hfront e he
  refine ⟨front, back, rfl, ?_, hnot⟩
  rcases List.mem_append.1 hmem with hin | hin
  · exact absurd ⟨hk, rfl⟩ (hnot s hin)
  · exact hin

/-- A task that was called for and is not the newest was followed by a call. -/
theorem exists_later (hmem : s ∈ h) (hk : s.kind = .called)
    (hnew : ¬ h.IsNewest s.key s.generation) :
    ∃ s' : Event K, [s', s].Sublist h ∧ s'.kind = .called ∧ s'.key = s.key := by
  obtain ⟨s', hs'⟩ := exists_lastCall? hmem hk
  have hcall := lastCall?_eq_some hs'
  obtain ⟨front, back, rfl, hin, -⟩ := lastCall?_split hs' hmem hk
  rcases List.mem_cons.1 hin with rfl | hback
  · exact absurd (by rw [IsNewest, hs']; rfl) hnew
  · exact ⟨s', pair_sublist_of_suffix ⟨front, rfl⟩ hback, hcall.2⟩

theorem time_le_lastCall (hfalling : h.Pairwise fun e e' => e'.time ≤ e.time)
    (hs : h.lastCall? s.key = some s') (hmem : s ∈ h) (hk : s.kind = .called) :
    s.time ≤ s'.time := by
  obtain ⟨front, back, rfl, hin, -⟩ := lastCall?_split hs hmem hk
  rcases List.mem_cons.1 hin with rfl | hback
  · exact Nat.le_refl _
  · have hpair := hfalling.sublist (pair_sublist_of_suffix ⟨front, rfl⟩ hback)
    simpa using hpair

theorem IsChronicle.fits {delay : Nat} (hchron : h.IsChronicle delay)
    (hsuffix : e :: earlier <:+ h) : Fits delay e earlier := by
  induction h with
  | nil => simp at hsuffix
  | cons e' h ih =>
    rcases List.suffix_cons_iff.1 hsuffix with heq | hrest
    · obtain ⟨rfl, rfl⟩ := List.cons.inj heq
      exact hchron.1
    · exact ih hchron.2 hrest

end History

/-- The stories that a task can have. -/
def stories : List (List Kind) :=
  [] :: [.called] :: [.woke true, .called] :: [.started, .woke true, .called]
    :: [.ended, .started, .woke true, .called] :: [.refused, .woke true, .called] :: wholeStories

theorem Phase.story_mem_stories (p : Phase) : p.story ∈ stories := by
  cases p with
  | leaving l ran => cases ran <;> simp [story, stories]
  | released l ran => cases ran <;> simp [story, stories]
  | _ => simp [story, stories]

theorem getLast_of_mem_stories : ∀ story ∈ stories, story ≠ [] → story.getLast? = some .called := by
  decide

theorem count_of_mem_stories :
    ∀ story ∈ stories, story.count .called ≤ 1 ∧ story.count .started ≤ 1 := by
  decide

/-- Work that has begun was not refused. -/
theorem not_refused_of_mem_stories : ∀ story ∈ stories, .started ∈ story →
    ¬ (.refused ∈ story ∨ .woke false ∈ story) := by
  decide

theorem answered_of_mem_stories (ran : Bool) : ∀ story ∈ stories, .answered ran ∈ story →
    (ran = true ↔ .started ∈ story)
      ∧ (.started ∈ story ↔ ¬ (.refused ∈ story ∨ .woke false ∈ story)) := by
  cases ran <;> decide

theorem wholeStory_cases : ∀ story ∈ wholeStories,
    (∃ ran, .answered ran ∈ story) ∧ (.started ∈ story ∨ .refused ∈ story ∨ .woke false ∈ story) := by
  decide

namespace Clockwork.Consistent

variable {K : Type} [DecidableEq K] {delay : Nat} {c : Clockwork K} {earlier : History K}
  {e s s' : Event K} {g : Nat}

theorem story_mem_stories (h : c.Consistent delay) (g : Nat) : c.history.story g ∈ stories := by
  by_cases hnone : c.history.story g = []
  · rw [hnone]
    exact List.mem_cons_self
  obtain ⟨kind, hkind⟩ := List.exists_mem_of_ne_nil _ hnone
  obtain ⟨e, he, rfl, -⟩ := History.mem_story.1 hkind
  by_cases hover : ∀ t ∈ c.debouncer.tasks, t.generation ≠ e.generation
  · simp [stories, h.finished e he hover]
  · push Not at hover
    obtain ⟨t, ht, hg⟩ := hover
    rw [← hg, h.story t ht]
    exact t.phase.story_mem_stories

/-- A task is called for once. -/
theorem not_twice (h : c.Consistent delay) (hk : s.kind = .called)
    (htwice : [s, s].Sublist c.history) : False := by
  have hsub := History.story_sublist htwice s.generation
  have hcount := (count_of_mem_stories _ (h.story_mem_stories s.generation)).1
  have : 2 ≤ (c.history.story s.generation).count .called := by
    refine Nat.le_trans ?_ (hsub.count_le .called)
    simp [History.story, hk]
  omega

/-- What happens to a task, happens after the call for it. -/
theorem called_before (h : c.Consistent delay) (hsuffix : e :: earlier <:+ c.history)
    (hk : e.kind ≠ .called) :
    ∃ s ∈ earlier, s.kind = .called ∧ s.generation = e.generation ∧ s.key = e.key := by
  obtain ⟨front, hfront⟩ := hsuffix
  have he : e ∈ c.history := by rw [← hfront]; simp
  -- the story begins with the call, and the event is not the call
  have hstory : c.history.story e.generation
      = History.story front e.generation ++ e.kind :: earlier.story e.generation := by
    rw [← hfront, History.story_append, History.story_cons, if_pos rfl]
  have hlast := getLast_of_mem_stories _ (h.story_mem_stories e.generation) (by simp [hstory])
  have hcalled : .called ∈ earlier.story e.generation := by
    rw [hstory, List.getLast?_append_cons] at hlast
    have hmem := List.mem_of_getLast? hlast
    exact (List.mem_cons.1 hmem).resolve_left hk.symm
  obtain ⟨s, hs, hg, hsk⟩ := History.mem_story.1 hcalled
  obtain ⟨s', hs', hsk', hg', hkey⟩ := h.origin e he
  have hmem : s ∈ c.history := by
    rw [← hfront]
    exact List.mem_append_right _ (List.mem_cons_of_mem _ hs)
  rw [h.unique s' hs' s hmem hsk' hsk (by rw [hg, hg'])] at hkey
  exact ⟨s, hs, hsk, hg, hkey⟩

/-- A task that is followed by a call for its key is not the newest. -/
theorem not_isNewest (h : c.Consistent delay) (hsuffix : earlier <:+ c.history)
    (hlater : [s', s].Sublist earlier) (hk : s.kind = .called) (hk' : s'.kind = .called)
    (hkey : s'.key = s.key) : ¬ earlier.IsNewest s.key s.generation := by
  intro hnew
  have hmem : s ∈ earlier := hlater.subset (by simp)
  obtain ⟨s'', hs, hg⟩ := Option.map_eq_some_iff.1 hnew
  have hcall := History.lastCall?_eq_some hs
  obtain rfl := h.unique s'' (hsuffix.subset hcall.1) s (hsuffix.subset hmem) hcall.2.1 hk hg
  obtain ⟨front, back, rfl, -, hfront⟩ := History.lastCall?_split hs hmem hk
  -- the later call is not in front of the last one, so the last one comes twice
  have hsub : [s', s''].Sublist (s'' :: back) := by
    obtain ⟨l, l', hl, hleft, hright⟩ := List.sublist_append_iff.1 hlater
    cases l with
    | nil =>
      rw [List.nil_append] at hl
      rwa [hl]
    | cons x l =>
      obtain ⟨rfl, -⟩ := List.cons.inj hl
      exact absurd ⟨hk', hkey⟩ (hfront s' (hleft.subset List.mem_cons_self))
  have hback : s'' ∈ back := by
    rcases List.cons_sublist_cons'.1 hsub with hsub | ⟨-, hsub⟩
    · exact hsub.subset (by simp)
    · exact hsub.subset (by simp)
  exact h.not_twice hk (History.pair_sublist_of_suffix ((List.suffix_append _ _).trans hsuffix) hback)

/-- **The story of a task tells whether it was overtaken.** -/
theorem overtaken_iff (h : c.Consistent delay) : c.history.Overtaken g
    ↔ .refused ∈ c.history.story g ∨ .woke false ∈ c.history.story g := by
  constructor
  · -- a task that looks after a later call finds that it is not the newest
    rintro ⟨s, s', e, hsub, hk, hk', hkey, rfl, hg, hlook⟩
    obtain ⟨earlier, hsuffix, hlater⟩ := History.exists_suffix_of_cons_sublist hsub
    have hold := h.not_isNewest ((List.suffix_cons e earlier).trans hsuffix) hlater hk hk' hkey
    have he : e ∈ c.history := hsuffix.subset List.mem_cons_self
    have hkey' : e.key = s.key := by
      obtain ⟨o, ho, hok, hog, hokey⟩ := h.origin e he
      rw [← hokey, h.unique o ho s (hsub.subset (by simp)) hok hk (hog.trans hg)]
    rw [← hkey', ← hg] at hold
    have hfits := h.chronicle.fits hsuffix
    cases hkind : e.kind with
    | woke newest =>
      simp only [History.Fits, hkind] at hfits
      cases newest with
      | true => exact absurd (hfits.1 rfl) hold
      | false => exact .inr (History.mem_story.2 ⟨e, he, hg, hkind⟩)
    | started =>
      simp only [History.Fits, hkind] at hfits
      obtain ⟨o, ho, hog, -⟩ := hfits
      exact absurd (by rw [History.IsNewest, ho, ← hog]; rfl) hold
    | refused => exact .inl (History.mem_story.2 ⟨e, he, hg, hkind⟩)
    | called | ended | answered ran => simp [hkind, Kind.isLook] at hlook
  · intro hstory
    -- the task looked, and was not the newest
    obtain ⟨e, he, rfl, hlook, hold⟩ : ∃ e ∈ c.history, e.generation = g ∧ e.kind.isLook = true
        ∧ ∀ earlier : History K, e :: earlier <:+ c.history
          → ¬ earlier.IsNewest e.key e.generation := by
      rcases hstory with hmem | hmem
      all_goals
        obtain ⟨e, he, hg, hkind⟩ := History.mem_story.1 hmem
        refine ⟨e, he, hg, by rw [hkind]; rfl, fun earlier hsuffix => ?_⟩
        have hfits := h.chronicle.fits hsuffix
        simp only [History.Fits, hkind] at hfits
      · exact hfits
      · exact fun hnew => absurd (hfits.2 hnew) (by simp)
    obtain ⟨earlier, hsuffix⟩ := History.exists_suffix_of_mem he
    obtain ⟨s, hs, hk, hg, hkey⟩ :=
      h.called_before hsuffix (by rintro heq; simp [heq, Kind.isLook] at hlook)
    have hnew := hold earlier hsuffix
    rw [← hkey, ← hg] at hnew
    obtain ⟨s', hsub, hk', hkey'⟩ := History.exists_later hs hk hnew
    exact ⟨s, s', e, (hsub.cons_cons e).trans hsuffix.sublist, hk, hk', hkey', hg, rfl, hlook⟩

/-- The task of the last call for a key does its work. -/
theorem started_of_last (h : c.Consistent delay) {k : K}
    (hnone : ∀ t ∈ c.debouncer.tasks, t.key ≠ k) (hs : c.history.lastCall? k = some s) :
    c.history.Started s.generation := by
  have hcall := History.lastCall?_eq_some hs
  have hover : ∀ t ∈ c.debouncer.tasks, t.generation ≠ s.generation := by
    intro t ht hg
    exact hnone t ht (by rw [← h.key_eq ht hcall.1 hg.symm, hcall.2.2])
  have hwhole := (wholeStory_cases _ (h.finished s hcall.1 hover)).2
  have hnot := h.unrefused k s hs
  rcases hwhole with hstarted | hrefused | hwoke
  · exact hstarted
  · exact absurd hrefused hnot.1
  · exact absurd hwoke hnot.2

/-- Work begins with the newest task, as soon as it may. -/
theorem exists_call_of_started (h : c.Consistent delay) (hsuffix : e :: earlier <:+ c.history)
    (hk : e.kind = .started) :
    ∃ s, earlier.lastCall? e.key = some s ∧ s.generation = e.generation
      ∧ e.time = max (s.time + delay) (earlier.lastEnd e.key) ∧ earlier.AtRest e.key := by
  have hfits := h.chronicle.fits hsuffix
  simpa only [History.Fits, hk] using hfits

/-- Every call is followed by work for its key, unless a task of the key is left. -/
theorem exists_work (h : c.Consistent delay) (hs : s ∈ c.history) (hk : s.kind = .called)
    (hnone : ∀ t ∈ c.debouncer.tasks, t.key ≠ s.key) :
    ∃ e : Event K, [e, s].Sublist c.history ∧ e.kind = .started ∧ e.key = s.key
      ∧ s.time + delay ≤ e.time := by
  -- the work of the last task of the key
  obtain ⟨last, hlast⟩ := History.exists_lastCall? hs hk
  obtain ⟨hmem, hlastk, hlastkey⟩ := History.lastCall?_eq_some hlast
  obtain ⟨e, he, hg, hstarted⟩ := History.mem_story.1 (h.started_of_last hnone hlast)
  obtain ⟨earlier, hsuffix⟩ := History.exists_suffix_of_mem he
  obtain ⟨o, ho, hog, htime, -⟩ := h.exists_call_of_started hsuffix hstarted
  obtain ⟨homem, hok, hokey⟩ := History.lastCall?_eq_some ho
  have hearlier : earlier <:+ c.history := (List.suffix_cons e earlier).trans hsuffix
  obtain rfl := h.unique o (hearlier.subset homem) last hmem hok hlastk (hog.trans hg)
  have hkey : e.key = s.key := by rw [← hokey, hlastkey]
  have hle := History.time_le_lastCall h.falling hlast hs hk
  refine ⟨e, ?_, hstarted, hkey, by omega⟩
  -- no call for the key comes after the last one, and so none after the work
  obtain ⟨front, back, hsplit, hin, hfront⟩ := History.lastCall?_split hlast hs hk
  have hback : o :: back <:+ earlier := by
    rcases List.suffix_or_suffix_of_suffix (hsplit ▸ List.suffix_append front (o :: back)) hearlier
      with hle | hle
    · exact hle
    · rcases List.suffix_cons_iff.1 hle with heq | hle
      · exact heq ▸ List.suffix_rfl
      · have htwice := History.pair_sublist_of_suffix (hsplit ▸ List.suffix_append front (o :: back))
          (hle.subset homem)
        exact absurd htwice (h.not_twice hok)
  exact History.pair_sublist_of_suffix hsuffix (hback.subset hin)

end Clockwork.Consistent

namespace Clockwork

variable {K : Type} [DecidableEq K]

/-- Only the newest tasks have done their work, and no call is lost. -/
structure Debounced (delay : Nat) (c : Clockwork K) : Prop where
  /-- The work of a task begins at most once. -/
  once : ∀ g, (c.history.story g).count .started ≤ 1
  /-- A task whose work has begun was not overtaken. -/
  newest : ∀ g, c.history.Started g → ¬ c.history.Overtaken g
  /-- A task answers whether its work has begun, and it has if the task was not
  overtaken. -/
  answers : ∀ g ran, .answered ran ∈ c.history.story g →
    (ran = true ↔ c.history.Started g) ∧ (c.history.Started g ↔ ¬ c.history.Overtaken g)
  /-- Work begins as soon as the delay is over and the last work of its key has
  ended. -/
  prompt : ∀ (e : Event K) (earlier : History K), e :: earlier <:+ c.history → e.kind = .started →
    ∃ s ∈ earlier, s.kind = .called ∧ s.generation = e.generation ∧ s.key = e.key
      ∧ e.time = max (s.time + delay) (earlier.lastEnd e.key) ∧ earlier.AtRest e.key
  /-- A task that is not there any more has answered. -/
  finished : ∀ s ∈ c.history, (∀ t ∈ c.debouncer.tasks, t.generation ≠ s.generation) →
    ∃ ran, .answered ran ∈ c.history.story s.generation
  /-- The last task of a key does its work. -/
  last : ∀ k s, c.history.lastCall? k = some s → (∀ t ∈ c.debouncer.tasks, t.key ≠ k) →
    c.history.Started s.generation
  /-- A call is followed by work of its key that begins no sooner than after the
  delay. -/
  followed : ∀ s ∈ c.history, s.kind = .called → (∀ t ∈ c.debouncer.tasks, t.key ≠ s.key) →
    ∃ e : Event K, [e, s].Sublist c.history ∧ e.kind = .started ∧ e.key = s.key
      ∧ s.time + delay ≤ e.time
  /-- While there are tasks, one of them can move, at once or after some time. -/
  goesOn : c.debouncer.tasks ≠ [] → ∃ actions c', c.run delay actions = some c'
    ∧ (∀ k, .call k ∉ actions) ∧ ∃ g, .move g ∈ actions

variable {delay : Nat} {c : Clockwork K}

theorem Consistent.debounced (h : c.Consistent delay) : c.Debounced delay where
  once g := (count_of_mem_stories _ (h.story_mem_stories g)).2
  newest g hstarted hover :=
    not_refused_of_mem_stories _ (h.story_mem_stories g) hstarted (h.overtaken_iff.1 hover)
  answers g ran hran := by
    rw [h.overtaken_iff]
    exact answered_of_mem_stories ran _ (h.story_mem_stories g) hran
  prompt e earlier hsuffix hk := by
    obtain ⟨s, hs, hg, htime, hrest⟩ := h.exists_call_of_started hsuffix hk
    obtain ⟨hmem, hsk, hkey⟩ := History.lastCall?_eq_some hs
    exact ⟨s, hmem, hsk, hg, hkey, htime, hrest⟩
  finished s hs hnone := (wholeStory_cases _ (h.finished s hs hnone)).1
  last _ _ hs hnone := h.started_of_last hnone hs
  followed _ hs hk hnone := h.exists_work hs hk hnone
  goesOn := h.goesOn

/-- **Only the newest task does its work, and no call is lost.** Whatever is
called for and however long work takes, tasks do their work exactly if they are
not overtaken, and as soon as they may; every call is followed by work; and no
task takes more than nine steps, while there is always one that can be taken. -/
theorem debounced_run {actions : List (Action K)}
    (hrun : Clockwork.start.run delay actions = some c) :
    c.Debounced delay ∧ ∀ g, actions.count (.move g) ≤ 9 := by
  refine ⟨(Consistent.start.run hrun).debounced, fun g => ?_⟩
  have hcount := count_move_run Consistent.start hrun g
  have hstart : (Clockwork.start : Clockwork K).stepsLeft g ≤ 9 := by
    unfold stepsLeft
    split
    · exact Nat.le_refl _
    · exact Nat.zero_le _
  omega

/-- Work takes from 3 to 7; the second task wakes up at 6 and waits, and is
overtaken before it gets the lock; the work of the third one begins at 9. -/
def threeCalls : List (Action Nat) :=
  [.call 0, .pass 3, .move 1, .move 1, .move 1, .move 1, .call 0, .pass 3, .move 2, .move 2,
    .call 0, .pass 1, .move 1, .move 1, .move 1, .move 1, .move 1, .move 2, .move 2, .move 2,
    .move 2, .pass 2, .move 3, .move 3, .move 3, .move 3]

theorem debounced_run_threeCalls : ∃ c, Clockwork.start.run 3 threeCalls = some c
    ∧ c.history.story 1 = [.answered true, .ended, .started, .woke true, .called]
    ∧ c.history.story 2 = [.answered false, .refused, .woke true, .called]
    ∧ c.history.head? = some ⟨9, 3, 0, .started⟩
    ∧ c.Debounced 3 ∧ ∀ g, threeCalls.count (.move g) ≤ 9 := by
  have hresult : (Clockwork.start.run 3 threeCalls).map
      (fun c => (c.history.story 1, c.history.story 2, c.history.head?))
      = some ([.answered true, .ended, .started, .woke true, .called],
        [.answered false, .refused, .woke true, .called], some ⟨9, 3, 0, .started⟩) := by
    decide +kernel
  obtain ⟨c, hrun, heq⟩ := Option.map_eq_some_iff.1 hresult
  obtain ⟨hfirst, hsecond, hthird⟩ := by simpa only [Prod.mk.injEq] using heq
  exact ⟨c, hrun, hfirst, hsecond, hthird, debounced_run hrun⟩

end Clockwork

end ElementLens.Debouncer
