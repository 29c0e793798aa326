/-
The line for a lock.

Tasks of a key wait for its lock in the order of their arrival. If the lock always goes to
the one that waited longest, and if no task of a key looks between the look of one that is
the newest and its joining the line, then whoever has tasks of its key behind it in line is
overtaken: there is a newer call, and its task is further behind or sleeps.

* **`InLine.step`** — every step keeps the line in order;
* **`Crowd.inLine_take`** — so does every turn.
-/
import ElementLens.Proofs.Debounce.Exclusion

namespace ElementLens.Debouncer

/-- The lock that a task waits for. -/
def Phase.awaited? : Phase → Option Nat
  | .waiting l => some l
  | .sleeping | .due | .admitted _ | .running _ | .done _ | .settled _ | .leaving _ _
  | .released _ _ => none

theorem Phase.awaited?_eq_some_iff {p : Phase} {l : Nat} :
    p.awaited? = some l ↔ p = .waiting l := by
  cases p <;> simp [awaited?]

variable {K : Type} [DecidableEq K]

/-- Whether a task of a key has looked, but not joined the line yet. -/
def isDue (d : Debouncer K) (k : K) : Bool :=
  d.tasks.any fun t => t.key = k && t.phase == .due

/-- A task is overtaken: it is not the newest of its key, and never will be again. -/
def IsOvertaken (d : Debouncer K) (t : Task K) : Prop := lookup d.newest t.key ≠ some t.generation

/-- The line is in order: the locks are, and tasks of a key are overtaken if one that has
looked, or waits behind them, or waits for the lock that they have, is there. -/
structure InLine (d : Debouncer K) : Prop where
  ordered : d.Ordered
  due : ∀ t ∈ d.tasks, ∀ u ∈ d.tasks, t.key = u.key → t ≠ u → t.phase ≠ .sleeping →
    u.phase = .due → d.IsOvertaken t
  waiting : d.tasks.Pairwise fun t u => t.key = u.key → t.phase.awaited? ≠ none →
    u.phase.awaited? ≠ none → d.IsOvertaken t
  held : ∀ t ∈ d.tasks, ∀ u ∈ d.tasks, t.key = u.key → t.phase.held? ≠ none →
    u.phase.awaited? ≠ none → d.IsOvertaken t

/-- What was the newest before was recorded before, as long as nothing is recorded. -/
def Ages (d d' : Debouncer K) : Prop :=
  ∀ k g, lookup d'.newest k = some g → lookup d.newest k = some g

section Steps

variable {d d' : Debouncer K} {t u : Task K} {g l : Nat} {p : Phase}

theorem IsOvertaken.ages (h : d.IsOvertaken t) (hages : d.Ages d') : d'.IsOvertaken t :=
  fun hnewest => h (hages _ _ hnewest)

theorem isOvertaken_of_isNewest (hd : d.Ordered) (ht : t ∈ d.tasks) (hu : u ∈ d.tasks)
    (hkey : t.key = u.key) (hne : t ≠ u) (hnewest : d.isNewest u = true) : d.IsOvertaken t := by
  intro h
  rw [isNewest, beq_iff_eq, ← hkey, h] at hnewest
  exact hne (hd.eq_of_generation ht hu (Option.some.inj hnewest))

theorem ages_step (d : Debouncer K) (t : Task K) : d.Ages (d.step t) := by
  intro k g hg
  rcases newest_step d t with hsame | ⟨-, -, hnewest⟩
  · rwa [hsame] at hg
  · rw [hnewest, lookup_erase] at hg
    split at hg
    · exact absurd hg (by simp)
    · exact hg

theorem isDue_eq_false (h : d.isDue t.key = false) (hu : u ∈ d.tasks) (hkey : u.key = t.key) :
    u.phase ≠ .due := by
  intro hp
  have := List.any_eq_false.1 h u hu
  simp [hkey, hp] at this

namespace InLine

theorem empty : (Debouncer.empty : Debouncer K).InLine where
  ordered := .empty
  due := by simp [Debouncer.empty]
  waiting := .nil
  held := by simp [Debouncer.empty]

/-- Fewer tasks stand in line as they did. -/
theorem fewer (h : d.InLine) (hd : d'.Ordered) (hages : d.Ages d')
    (htasks : d'.tasks.Sublist d.tasks) : d'.InLine where
  ordered := hd
  due t ht u hu hkey hne hp hup :=
    (h.due t (htasks.subset ht) u (htasks.subset hu) hkey hne hp hup).ages hages
  waiting := (h.waiting.sublist htasks).imp fun ha hkey hp hup => (ha hkey hp hup).ages hages
  held t ht u hu hkey hp hup :=
    (h.held t (htasks.subset ht) u (htasks.subset hu) hkey hp hup).ages hages

/-- A task may come to stand somewhere else but in the line. If it comes to have looked,
or to have a lock, it has to be in order that it does. -/
theorem advance (h : d.InLine) (ht : t ∈ d.tasks) (hd : d'.Ordered) (hages : d.Ages d')
    (htasks : d'.tasks = (d.advance t.generation p).tasks) (hwaiting : p.awaited? = none)
    (hdue : p = .due → ∀ u ∈ d.tasks, u.key = t.key → u ≠ t → u.phase ≠ .sleeping →
      d.IsOvertaken u)
    (hasleep : t.phase = .sleeping → ∀ u ∈ d.tasks, u.key = t.key → u.phase ≠ .due)
    (hheld : p.held? ≠ none → t.phase.held? = none → ∀ u ∈ d.tasks, u.key = t.key → u ≠ t →
      u.phase.awaited? ≠ none → d.IsOvertaken t) : d'.InLine := by
  have hmem (u : Task K) : u ∈ d'.tasks
      ↔ (u ∈ d.tasks ∧ u.generation ≠ t.generation) ∨ u = { t with phase := p } := by
    rw [htasks]
    exact mem_advance ht h.ordered.nodup
  have hne {u : Task K} (hu : u.generation ≠ t.generation) : u ≠ t := fun heq => hu (heq ▸ rfl)
  refine ⟨hd, ?_, ?_, ?_⟩
  · intro u hu v hv hkey huv hup hvp
    rcases (hmem u).1 hu with ⟨hu, hug⟩ | rfl <;> rcases (hmem v).1 hv with ⟨hv, hvg⟩ | rfl
    · exact (h.due u hu v hv hkey huv hup hvp).ages hages
    · exact (hdue hvp u hu hkey (hne hug) hup).ages hages
    · refine IsOvertaken.ages (d := d) ?_ hages
      by_cases hp : t.phase = .sleeping
      · exact absurd hvp (hasleep hp v hv hkey.symm)
      · exact h.due t ht v hv hkey (hne hvg).symm hp hvp
    · exact absurd rfl huv
  · rw [htasks, Debouncer.advance, List.pairwise_map]
    refine h.waiting.imp fun {u v} huv hkey hup hvp => ?_
    -- a task that is in line has not moved
    by_cases hug : u.generation = t.generation
    · rw [if_pos hug] at hup
      exact absurd hup (by simp [hwaiting])
    by_cases hvg : v.generation = t.generation
    · rw [if_pos hvg] at hvp
      exact absurd hvp (by simp [hwaiting])
    rw [if_neg hug] at hkey hup ⊢
    rw [if_neg hvg] at hkey hvp
    exact (huv hkey hup hvp).ages hages
  · intro u hu v hv hkey hup hvp
    rcases (hmem u).1 hu with ⟨hu, hug⟩ | rfl <;> rcases (hmem v).1 hv with ⟨hv, hvg⟩ | rfl
    · exact (h.held u hu v hv hkey hup hvp).ages hages
    · exact absurd hvp (by simp [hwaiting])
    · refine IsOvertaken.ages (d := d) ?_ hages
      by_cases hp : t.phase.held? = none
      · exact hheld hup hp v hv hkey.symm (hne hvg) hvp
      · exact h.held t ht v hv hkey hp hvp
    · exact absurd hvp (by simp [hwaiting])

/-- A task that has looked joins the line. Everybody else of its key who has looked is
overtaken. -/
theorem join (h : d.InLine) (ht : t ∈ d.tasks) (hp : t.phase = .due) : (d.join t).InLine := by
  obtain ⟨l, htasks⟩ : ∃ l, (d.join t).tasks
      = d.others t.generation ++ [{ t with phase := .waiting l }] := by
    unfold Debouncer.join
    split
    · exact ⟨_, rfl⟩
    · exact ⟨_, rfl⟩
  have hages : d.Ages (d.join t) := by
    have := ages_step d t
    rwa [step, hp] at this
  have hmem (u : Task K) : u ∈ (d.join t).tasks
      ↔ (u ∈ d.tasks ∧ u.generation ≠ t.generation) ∨ u = { t with phase := .waiting l } := by
    rw [htasks]
    simp [others]
  have hbehind (u : Task K) (hu : u ∈ d.tasks) (hug : u.generation ≠ t.generation)
      (hkey : u.key = t.key) (hup : u.phase ≠ .sleeping) : (d.join t).IsOvertaken u :=
    (h.due u hu t ht hkey (fun heq => hug (heq ▸ rfl)) hup hp).ages hages
  refine ⟨h.ordered.join ht, ?_, ?_, ?_⟩
  · intro u hu v hv hkey huv hup hvp
    rcases (hmem v).1 hv with ⟨hv, hvg⟩ | rfl
    · rcases (hmem u).1 hu with ⟨hu, -⟩ | rfl
      · exact (h.due u hu v hv hkey huv hup hvp).ages hages
      · exact (h.due t ht v hv hkey (fun heq => hvg (heq ▸ rfl)) (by simp [hp]) hvp).ages hages
    · simp at hvp
  · rw [htasks, List.pairwise_append]
    refine ⟨?_, List.pairwise_singleton _ _, ?_⟩
    · exact (h.waiting.sublist List.filter_sublist).imp fun huv hkey hup hvp =>
        (huv hkey hup hvp).ages hages
    · intro u hu v hv hkey hup _
      obtain rfl := List.mem_singleton.1 hv
      rw [others, List.mem_filter, decide_eq_true_iff] at hu
      exact hbehind u hu.1 hu.2 hkey (by rintro heq; simp [heq, Phase.awaited?] at hup)
  · intro u hu v hv hkey hup hvp
    rcases (hmem u).1 hu with ⟨hu, hug⟩ | rfl
    · rcases (hmem v).1 hv with ⟨hv, -⟩ | rfl
      · exact (h.held u hu v hv hkey hup hvp).ages hages
      · exact hbehind u hu hug hkey (by rintro heq; simp [heq, Phase.held?] at hup)
    · simp [Phase.held?] at hup

/-- Whoever waits for the lock of a task's key stands behind the task that is first in
line. -/
theorem isOvertaken_first (h : d.InLine) (ht : t ∈ d.tasks) (hp : t.phase = .waiting l)
    (hfirst : d.first? l = some t) (hu : u ∈ d.tasks) (hkey : u.key = t.key) (hne : u ≠ t)
    (hup : u.phase.awaited? ≠ none) : d.IsOvertaken t := by
  obtain ⟨l', hawaited⟩ := Option.ne_none_iff_exists'.1 hup
  have hup' := Phase.awaited?_eq_some_iff.1 hawaited
  -- they wait for the same lock, the one of the key
  have hl := h.ordered.contended t ht l (by rw [hp]; rfl)
  have hl' := h.ordered.contended u hu l' (by rw [hup']; rfl)
  rw [hkey, hl] at hl'
  obtain rfl := Option.some.inj hl'
  obtain ⟨front, back, hsplit, hfront⟩ := (List.find?_eq_some_iff_append.1 hfirst).2
  have hback : u ∈ back := by
    rw [hsplit, List.mem_append, List.mem_cons] at hu
    rcases hu with hu | heq | hu
    · exact absurd (hfront u hu) (by simp [hup'])
    · exact absurd heq hne
    · exact hu
  have hline := h.waiting
  rw [hsplit, List.pairwise_append] at hline
  exact (List.pairwise_cons.1 hline.2.1).1 u hback hkey.symm (by simp [hp, Phase.awaited?]) hup

/-- A call is recorded: a task that is overtaken stays so. -/
theorem record (h : d.InLine) {k : K} (hd : (d.record g k).Ordered)
    (hfresh : ∀ t ∈ d.tasks, t.generation ≠ g) : (d.record g k).InLine := by
  have hstill {u : Task K} (hu : u ∈ d.tasks) (hover : d.IsOvertaken u) :
      (d.record g k).IsOvertaken u := by
    unfold IsOvertaken Debouncer.record
    rw [lookup_insert]
    split
    · exact fun heq => hfresh u hu (Option.some.inj heq).symm
    · exact hover
  refine ⟨hd, ?_, ?_, ?_⟩
  · intro u hu v hv hkey huv hup hvp
    rcases mem_record.1 hu with hu | rfl
    · rcases mem_record.1 hv with hv | rfl
      · exact hstill hu (h.due u hu v hv hkey huv hup hvp)
      · simp at hvp
    · exact absurd rfl hup
  · rw [Debouncer.record, List.pairwise_append]
    refine ⟨?_, List.pairwise_singleton _ _, ?_⟩
    · exact h.waiting.imp_of_mem fun hu _ huv hkey hup hvp => hstill hu (huv hkey hup hvp)
    · intro u _ v hv _ _ hvp
      obtain rfl := List.mem_singleton.1 hv
      simp [Phase.awaited?] at hvp
  · intro u hu v hv hkey hup hvp
    rcases mem_record.1 hu with hu | rfl
    · rcases mem_record.1 hv with hv | rfl
      · exact hstill hu (h.held u hu v hv hkey hup hvp)
      · simp [Phase.awaited?] at hvp
    · simp [Phase.held?] at hup

/-- A call draws its generation. -/
theorem draw (h : d.InLine) : InLine { d with generation := d.generation + 1 } :=
  ⟨h.ordered.draw, h.due, h.waiting, h.held⟩

/-- **Every step keeps the line in order**, if the first in line goes first, and nobody looks
as the newest while somebody else who has looked is not in line yet. -/
theorem step (h : d.InLine) (ht : t ∈ d.tasks)
    (hlook : t.phase = .sleeping → d.isNewest t = true → d.isDue t.key = false)
    (htake : ∀ l, t.phase = .waiting l → d.first? l = some t) : (d.step t).InLine := by
  have hd : (d.step t).Ordered := h.ordered.step ht
  have hages := ages_step d t
  cases hp : t.phase with
  | sleeping =>
    by_cases hnewest : d.isNewest t = true
    · refine h.advance ht hd hages (p := .due) (by simp [Debouncer.step, hp, hnewest]) rfl
        ?_ ?_ (by simp [Phase.held?])
      · exact fun _ u hu hkey hne _ => isOvertaken_of_isNewest h.ordered hu ht hkey hne hnewest
      · exact fun _ u hu hkey => isDue_eq_false (hlook hp hnewest) hu hkey
    · refine h.fewer hd hages ?_
      rw [Debouncer.step, hp]
      simp only [hnewest]
      exact List.filter_sublist
  | due =>
    have hjoin := h.join ht hp
    rwa [Debouncer.step, hp]
  | waiting l =>
    by_cases hheld : d.isHeld l = true
    · rw [Debouncer.step, hp]
      simpa [hheld] using h
    · refine h.advance ht hd hages (p := .admitted l) (by simp [Debouncer.step, hp, hheld]) rfl
        (by simp) (by simp [hp]) ?_
      exact fun _ _ u hu hkey hne hup => h.isOvertaken_first ht hp (htake l hp) hu hkey hne hup
  | admitted l =>
    refine h.advance ht hd hages
      (p := if d.isNewest t then .running l else .leaving l false) (by simp [Debouncer.step, hp])
      ?_ ?_ (by simp [hp]) (by simp [hp, Phase.held?])
    all_goals split <;> simp [Phase.awaited?]
  | running l =>
    exact h.advance ht hd hages (p := .done l) (by simp [Debouncer.step, hp]) rfl
      (by simp) (by simp [hp]) (by simp [hp, Phase.held?])
  | done l =>
    refine h.advance ht hd hages (p := .settled l) ?_ rfl (by simp) (by simp [hp])
      (by simp [hp, Phase.held?])
    simp [Debouncer.step, hp, Debouncer.advance, tasks_forgetNewest]
  | settled l =>
    refine h.advance ht hd hages (p := .leaving l true) ?_ rfl (by simp) (by simp [hp])
      (by simp [hp, Phase.held?])
    simp [Debouncer.step, hp, Debouncer.advance, tasks_forgetLock]
  | leaving l ran =>
    exact h.advance ht hd hages (p := .released l ran) (by simp [Debouncer.step, hp]) rfl
      (by simp) (by simp [hp]) (by simp [Phase.held?])
  | released l ran =>
    refine h.fewer hd hages ?_
    rw [Debouncer.step, hp]
    exact List.filter_sublist

/-- Work that breaks down keeps the line in order, too. -/
theorem breakDown (h : d.InLine) (hd : (d.breakDown g).Ordered) : (d.breakDown g).InLine := by
  rcases breakDown_cases h.ordered g with heq | ⟨t, ht, -, l, hp, heq⟩
  · rwa [heq]
  · rw [heq] at hd ⊢
    exact h.advance ht hd (fun _ _ h => h) rfl rfl (by simp) (by simp [hp])
      (by simp [hp, Phase.held?])

end InLine

end Steps

namespace Crowd

variable {c : Crowd K} {turn : Turn K} {turns : List (Turn K)}

/-- Whoever takes a lock is first in line for it. -/
def InOrder (c : Crowd K) (turn : Turn K) : Prop :=
  ∀ t ∈ c.debouncer.tasks, turn = .move t.generation →
    ∀ l ∈ t.phase.awaited?, c.debouncer.first? l = some t

/-- Whoever looks as the newest of its key finds nobody of the key who has looked, but has not
joined the line yet. -/
def Prompt (c : Crowd K) (turn : Turn K) : Prop :=
  ∀ t ∈ c.debouncer.tasks, turn = .move t.generation → t.phase = .sleeping →
    c.debouncer.isNewest t = true → c.debouncer.isDue t.key = false

instance (c : Crowd K) : DecidablePred c.InOrder := fun turn =>
  inferInstanceAs (Decidable (∀ t ∈ c.debouncer.tasks, turn = .move t.generation →
    ∀ l ∈ t.phase.awaited?, c.debouncer.first? l = some t))

instance (c : Crowd K) : DecidablePred c.Prompt := fun turn =>
  inferInstanceAs (Decidable (∀ t ∈ c.debouncer.tasks, turn = .move t.generation →
    t.phase = .sleeping → c.debouncer.isNewest t = true → c.debouncer.isDue t.key = false))

/-- **Every turn keeps the line in order** that is in order and prompt. -/
theorem inLine_take (hc : c.Orderly) (h : c.debouncer.InLine) (horder : c.InOrder turn)
    (hprompt : c.Prompt turn) : (c.take turn).debouncer.InLine := by
  have hnext : (c.take turn).debouncer.Ordered := (hc.take turn).ordered
  cases turn with
  | draw k => exact h.draw
  | record g =>
    cases hlookup : c.drawn.lookup g with
    | none => simpa only [take, hlookup] using h
    | some k =>
      simp only [take, hlookup] at hnext ⊢
      exact h.record hnext (hc.fresh _ (mem_of_lookup hlookup))
  | move g =>
    rcases move_cases hc.ordered g with heq | ⟨t, ht, hg, heq⟩ <;> simp only [take, heq]
    · exact h
    · exact h.step ht (hprompt t ht (by rw [hg])) fun l hp =>
        horder t ht (by rw [hg]) l (by simp [hp, Phase.awaited?])
  | breakDown g => exact h.breakDown hnext

end Crowd

end ElementLens.Debouncer
