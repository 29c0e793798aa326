/-
Work of one key never overlaps.

Callers and tasks take turns in any order, whatever the time is. A call is made
in two parts, first it draws its generation, then it is recorded as the newest of
its key, so calls made at the same time may be recorded in either order. Work may
also break down; then the lock is given back, and nothing that is kept for the
key is settled.

* **`Crowd.Orderly.take`** — every turn keeps the locks in order;
* **`Crowd.length_atWork_le_one`** — at most one task of a key is at work, though
  a key may have more than one lock over time.
-/
import ElementLens.Proofs.Debounce.Locks

namespace ElementLens.Debouncer

/-- A debouncer, and the calls that have drawn their generation but are not
recorded yet. -/
structure Crowd (K : Type) where
  debouncer : Debouncer K
  drawn : List (Nat × K)
deriving DecidableEq, Repr

/-- Whose turn it is: a call draws its generation, or is recorded; a task takes
its next step, or its work breaks down. -/
inductive Turn (K : Type) where
  | draw (k : K)
  | record (g : Nat)
  | move (g : Nat)
  | breakDown (g : Nat)
deriving DecidableEq, Repr

variable {K : Type} [DecidableEq K]

/-- The work of a task breaks down, if it is at work. -/
def breakDown (d : Debouncer K) (g : Nat) : Debouncer K :=
  match d.task? g with
  | some ⟨_, _, .running lock⟩ => d.advance g (.leaving lock false)
  | _ => d

/-- The tasks of a key that are at work. -/
def atWork (d : Debouncer K) (k : K) : List (Task K) :=
  d.tasks.filter fun t => t.key = k && t.phase matches .running _

namespace Crowd

/-- Before the first call. -/
def start : Crowd K := ⟨Debouncer.empty, []⟩

/-- What a turn does. A turn of a call or a task that is not there does nothing. -/
def take (c : Crowd K) : Turn K → Crowd K
  | .draw k =>
    let g := c.debouncer.generation + 1
    ⟨{ c.debouncer with generation := g }, (g, k) :: c.drawn⟩
  | .record g =>
    match c.drawn.lookup g with
    | none => c
    | some k => ⟨c.debouncer.record g k, c.drawn.filter fun call => call.1 ≠ g⟩
  | .move g => { c with debouncer := c.debouncer.move g }
  | .breakDown g => { c with debouncer := c.debouncer.breakDown g }

/-- Turns one after the other. -/
def run (c : Crowd K) (turns : List (Turn K)) : Crowd K := turns.foldl take c

/-- A call that nobody interrupts. -/
theorem take_record_draw (d : Debouncer K) (k : K) :
    (take ⟨d, []⟩ (.draw k)).take (.record (d.generation + 1)) = ⟨d.schedule k, []⟩ := by
  simp [take, record, schedule]

/-- The locks are in order, and the generations drawn are told apart from each
other and from those of tasks. -/
structure Orderly (c : Crowd K) : Prop where
  ordered : c.debouncer.Ordered
  nodup : (c.drawn.map Prod.fst).Nodup
  generation_le : ∀ call ∈ c.drawn, call.1 ≤ c.debouncer.generation
  fresh : ∀ call ∈ c.drawn, ∀ t ∈ c.debouncer.tasks, t.generation ≠ call.1

end Crowd

/-! ### Tasks do not change their generation -/

variable {d : Debouncer K} {t u : Task K} {g : Nat}

omit [DecidableEq K] in
theorem generation_of_mem_advance {p : Phase} (hu : u ∈ (d.advance g p).tasks) :
    ∃ v ∈ d.tasks, v.generation = u.generation := by
  obtain ⟨v, hv, rfl⟩ := List.mem_map.1 hu
  refine ⟨v, hv, ?_⟩
  split <;> rfl

theorem generation_of_mem_step (hd : d.Ordered) (ht : t ∈ d.tasks) (hu : u ∈ (d.step t).tasks) :
    ∃ v ∈ d.tasks, v.generation = u.generation := by
  by_cases hfree : ∀ l, t.phase = .waiting l → d.isHeld l = false
  · rcases (hd.mem_step ht hfree).1 hu with ⟨hu, -⟩ | ⟨p, -, rfl⟩
    · exact ⟨u, hu, rfl⟩
    · exact ⟨t, ht, rfl⟩
  · -- a task that waits for a lock in use stays where it is
    push Not at hfree
    obtain ⟨l, hp, hheld⟩ := hfree
    have hheld : d.isHeld l = true := by simpa using hheld
    rw [step, hp] at hu
    simp only [hheld, if_true] at hu
    exact ⟨u, hu, rfl⟩

theorem move_cases (hd : d.Ordered) (g : Nat) :
    d.move g = d ∨ ∃ t ∈ d.tasks, t.generation = g ∧ d.move g = d.step t := by
  unfold move
  cases htask : d.task? g with
  | none => exact .inl rfl
  | some t =>
    obtain ⟨ht, hg⟩ := (task?_eq_some_iff hd.nodup).1 htask
    exact .inr ⟨t, ht, hg, rfl⟩

theorem breakDown_cases (hd : d.Ordered) (g : Nat) :
    d.breakDown g = d ∨ ∃ t ∈ d.tasks, t.generation = g ∧ ∃ l, t.phase = .running l
      ∧ d.breakDown g = d.advance t.generation (.leaving l false) := by
  unfold breakDown
  split
  · next g' k l htask =>
    obtain ⟨ht, rfl⟩ := (task?_eq_some_iff hd.nodup).1 htask
    exact .inr ⟨_, ht, rfl, l, rfl, rfl⟩
  · exact .inl rfl

omit [DecidableEq K] in
theorem mem_of_lookup {drawn : List (Nat × K)} {k : K} (h : drawn.lookup g = some k) :
    (g, k) ∈ drawn := by
  obtain ⟨front, back, hsplit, -⟩ := List.lookup_eq_some_iff.1 h
  rw [hsplit]
  exact List.mem_append_right _ List.mem_cons_self

namespace Crowd

namespace Orderly

variable {c : Crowd K}

theorem start : (Crowd.start : Crowd K).Orderly where
  ordered := .empty
  nodup := List.nodup_nil
  generation_le := by simp [Crowd.start]
  fresh := by simp [Crowd.start]

/-- Tasks may do anything that keeps the locks in order and makes no task. -/
theorem replace (h : c.Orderly) (hd : d.Ordered) (hle : c.debouncer.generation ≤ d.generation)
    (hold : ∀ u ∈ d.tasks, ∃ v ∈ c.debouncer.tasks, v.generation = u.generation) :
    Orderly { c with debouncer := d } where
  ordered := hd
  nodup := h.nodup
  generation_le call hcall := Nat.le_trans (h.generation_le call hcall) hle
  fresh call hcall u hu := by
    obtain ⟨v, hv, hg⟩ := hold u hu
    rw [← hg]
    exact h.fresh call hcall v hv

theorem draw (h : c.Orderly) (k : K) : (c.take (.draw k)).Orderly where
  ordered := h.ordered.draw
  nodup := by
    refine List.nodup_cons.2 ⟨fun hmem => ?_, h.nodup⟩
    obtain ⟨call, hcall, heq⟩ := List.mem_map.1 hmem
    have := h.generation_le call hcall
    omega
  generation_le call hcall := by
    rcases List.mem_cons.1 hcall with rfl | hcall
    · exact Nat.le_refl _
    · exact Nat.le_succ_of_le (h.generation_le call hcall)
  fresh call hcall t ht := by
    rcases List.mem_cons.1 hcall with rfl | hcall
    · exact Nat.ne_of_lt (Nat.lt_succ_of_le (h.ordered.generation_le t ht))
    · exact h.fresh call hcall t ht

theorem record (h : c.Orderly) (g : Nat) : (c.take (.record g)).Orderly := by
  cases hlookup : c.drawn.lookup g with
  | none =>
    rw [show c.take (.record g) = c by simp only [Crowd.take, hlookup]]
    exact h
  | some k =>
    have hmem := mem_of_lookup hlookup
    simp only [Crowd.take, hlookup]
    exact {
      ordered := h.ordered.record (h.generation_le _ hmem) (h.fresh _ hmem)
      nodup := h.nodup.sublist (List.filter_sublist.map _)
      generation_le := fun call hcall => h.generation_le call (List.mem_of_mem_filter hcall)
      fresh := fun call hcall t ht => by
        rcases mem_record.1 ht with ht | rfl
        · exact h.fresh call (List.mem_of_mem_filter hcall) t ht
        · exact fun heq => absurd heq.symm (by simpa using List.of_mem_filter hcall) }

/-- **Every turn keeps the locks in order.** -/
theorem take (h : c.Orderly) (turn : Turn K) : (c.take turn).Orderly := by
  cases turn with
  | draw k => exact h.draw k
  | record g => exact h.record g
  | move g =>
    rcases move_cases h.ordered g with heq | ⟨t, ht, -, heq⟩ <;> simp only [Crowd.take, heq]
    · exact h
    · exact h.replace (h.ordered.step ht) (Nat.le_of_eq (generation_step _ t).symm) fun u hu =>
        generation_of_mem_step h.ordered ht hu
  | breakDown g =>
    rcases breakDown_cases h.ordered g with heq | ⟨t, ht, -, l, hp, heq⟩ <;>
      simp only [Crowd.take, heq]
    · exact h
    · -- the task keeps the lock that it has, and contends for it no longer
      refine h.replace ?_ (Nat.le_refl _) fun u hu => generation_of_mem_advance hu
      exact h.ordered.advance_held ht (l := l) (by rw [hp]; rfl) (by simp [Phase.contended?])
        fun _ hl => (Option.some.inj hl).symm

theorem run (h : c.Orderly) (turns : List (Turn K)) : (c.run turns).Orderly := by
  induction turns generalizing c with
  | nil => exact h
  | cons turn turns ih => exact ih (h.take turn)

end Orderly

theorem mem_atWork {k : K} : t ∈ d.atWork k
    ↔ t ∈ d.tasks ∧ t.key = k ∧ ∃ l, t.phase = .running l := by
  rw [atWork, List.mem_filter, Bool.and_eq_true, decide_eq_true_iff]
  refine and_congr_right fun _ => and_congr_right fun _ => ?_
  cases t.phase <;> simp

/-- **Work of one key never overlaps.** Whatever turns are taken in whatever
order, at most one task of a key is at work. -/
theorem length_atWork_le_one (turns : List (Turn K)) (k : K) :
    ((start.run turns).debouncer.atWork k).length ≤ 1 := by
  have h : (start.run turns : Crowd K).Orderly := Orderly.start.run turns
  have hnodup : ((start.run turns).debouncer.atWork k).Nodup :=
    h.ordered.nodup.of_map.filter _
  have hsame : ∀ t ∈ (start.run turns).debouncer.atWork k,
      ∀ u ∈ (start.run turns).debouncer.atWork k, t = u := by
    intro t ht u hu
    obtain ⟨htask, hkey, l, hp⟩ := mem_atWork.1 ht
    obtain ⟨hutask, hukey, l', hup⟩ := mem_atWork.1 hu
    exact h.ordered.eq_of_running htask hutask (hkey.trans hukey.symm) hp hup
  match hwork : (start.run turns).debouncer.atWork k with
  | [] | [_] => simp
  | t :: u :: rest =>
    rw [hwork] at hnodup hsame
    have heq := hsame t List.mem_cons_self u (List.mem_cons_of_mem _ List.mem_cons_self)
    rw [heq] at hnodup
    simp at hnodup

/-- The first task has dropped the lock of its key, but not given it back, when
the second one makes a new lock and is at work. -/
example : (start.run [.draw "a", .record 1, .move 1, .move 1, .move 1, .move 1,
      .draw "a", .record 2, .move 1, .move 1, .move 1,
      .move 2, .move 2, .move 2, .move 2]).debouncer.tasks.map Task.phase
    = [.leaving 0 true, .running 1] := by
  decide

end Crowd

end ElementLens.Debouncer
