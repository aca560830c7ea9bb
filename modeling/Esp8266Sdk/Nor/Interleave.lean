import Esp8266Sdk.Lts.Run
import Esp8266Sdk.Nor.Prog
import Mathlib.Logic.Function.Basic

/-! Tasks that run programs on one world. A step of a task is a single flash
access, with the RAM code before it. Where no task takes a step while another is
between its first step and its return, an interleaved run is a run of whole
programs one after another. -/

namespace Esp8266Sdk.Nor

variable {σ ε α ι : Type}

/-- The program behind the next flash access, and the world after the access. -/
def Prog.access : Prog σ ε α → World σ → Prog σ ε α × World σ
  | .ret a, w => (.ret a, w)
  | .fail e, w => (.fail e, w)
  | .get k, w => (k w.ram).access w
  | .put s k, w => k.access { w with ram := s }
  | .read a n k, w => (k (w.flash.read a n), w)
  | .step op k, w => (k, { w with flash := op.apply w.flash })

theorem Prog.run_access (p : Prog σ ε α) (w : World σ) : (p.access w).1.run (p.access w).2 = p.run w := by
  induction p generalizing w with
  | ret a => rfl
  | fail e => rfl
  | get k ih => exact ih _ w
  | put s k ih => exact ih _
  | read a n k => rfl
  | step op k => rfl

/-- A task that has not begun, one on its way, and one that has ended. -/
inductive Task (σ ε α : Type) where
  | idle (p : Prog σ ε α)
  | busy (p : Prog σ ε α)
  | done (r : Except ε α)

namespace Task

/-- A task on its way through the program. -/
def of : Prog σ ε α → Task σ ε α
  | .ret a => .done (.ok a)
  | .fail e => .done (.error e)
  | p => .busy p

/-- The task up to and with its next flash access, or up to its end. -/
def step : Task σ ε α → World σ → Option (Task σ ε α × World σ)
  | .idle p, w | .busy p, w => some (of (p.access w).1, (p.access w).2)
  | .done _, _ => none

/-- The result and the world if the task goes on alone. -/
def final : Task σ ε α → World σ → Except ε α × World σ
  | .idle p, w | .busy p, w => p.run w
  | .done r, w => (r, w)

/-- The result of a task that has ended. -/
def result : Task σ ε α → Option (Except ε α)
  | .done r => some r
  | _ => none

def Idle : Task σ ε α → Prop
  | .idle _ => True
  | _ => False

def Busy : Task σ ε α → Prop
  | .busy _ => True
  | _ => False

instance : (k : Task σ ε α) → Decidable k.Idle
  | .idle _ => inferInstanceAs (Decidable True)
  | .busy _ | .done _ => inferInstanceAs (Decidable False)

instance : (k : Task σ ε α) → Decidable k.Busy
  | .busy _ => inferInstanceAs (Decidable True)
  | .idle _ | .done _ => inferInstanceAs (Decidable False)

theorem final_of (p : Prog σ ε α) (w : World σ) : (of p).final w = p.run w := by cases p <;> rfl

theorem not_idle_of (p : Prog σ ε α) : ¬ (of p).Idle := by cases p <;> exact id

variable {k k' : Task σ ε α} {w w' : World σ}

theorem eq_done (hi : ¬ k.Idle) (hb : ¬ k.Busy) : ∃ r, k = .done r := by
  cases k with
  | idle p => exact absurd trivial hi
  | busy p => exact absurd trivial hb
  | done r => exact ⟨r, rfl⟩

/-- The result of a task that is not on its way does not depend on the world. -/
theorem final_fst (hi : ¬ k.Idle) (hb : ¬ k.Busy) (w w' : World σ) : (k.final w).1 = (k.final w').1 := by
  obtain ⟨r, rfl⟩ := eq_done hi hb
  rfl

/-- A step does not change where the task ends. -/
theorem final_step (h : k.step w = some (k', w')) : k'.final w' = k.final w := by
  cases k with
  | idle p | busy p =>
    cases h
    rw [final_of, p.run_access]
    rfl
  | done r => cases h

theorem not_idle_step (h : k.step w = some (k', w')) : ¬ k'.Idle := by
  cases k with
  | idle p | busy p =>
    cases h
    exact not_idle_of _
  | done r => cases h

theorem live_step (h : k.step w = some (k', w')) : k.Idle ∨ k.Busy := by
  cases k with
  | idle p => exact .inl trivial
  | busy p => exact .inr trivial
  | done r => cases h

end Task

/-- Tasks and the world they share. -/
structure Tasks (ι σ ε α : Type) where
  world : World σ
  task : ι → Task σ ε α

namespace Tasks

/-- All tasks before their first step. -/
def start (p : ι → Prog σ ε α) (w : World σ) : Tasks ι σ ε α := ⟨w, fun i => .idle (p i)⟩

/-- No other task is between its first step and its end, and a task that begins
meets its condition `A`. -/
def Serial (A : ι → World σ → Prop) (t : Tasks ι σ ε α) (i : ι) : Prop :=
  (∀ j, j ≠ i → ¬ (t.task j).Busy) ∧ ((t.task i).Idle → A i t.world)

section

variable [DecidableEq ι]

/-- Task `i` takes a step. -/
def step (t : Tasks ι σ ε α) (i : ι) : Option (Tasks ι σ ε α) :=
  ((t.task i).step t.world).map fun r => ⟨r.2, Function.update t.task i r.1⟩

/-- Runs of steps that meet `ok`, the tasks in any order. -/
abbrev Run (ok : Tasks ι σ ε α → ι → Prop) : Tasks ι σ ε α → Tasks ι σ ε α → Prop :=
  Lts.Run (fun t i t' => t.step i = some t') ok

end

/-! ### Steps -/

/-- What a step of task `i` does. -/
structure Moves (t t' : Tasks ι σ ε α) (i : ι) : Prop where
  final : (t'.task i).final t'.world = (t.task i).final t.world
  live : (t.task i).Idle ∨ (t.task i).Busy
  not_idle : ¬ (t'.task i).Idle
  other : ∀ j, j ≠ i → t'.task j = t.task j

variable {p : ι → Prog σ ε α} {A : ι → World σ → Prop} {w w' : World σ} {t t' : Tasks ι σ ε α} {i : ι}

theorem step_moves [DecidableEq ι] (h : t.step i = some t') : Moves t t' i := by
  obtain ⟨⟨k, w⟩, hk, rfl⟩ := Option.map_eq_some_iff.mp h
  refine ⟨?_, Task.live_step hk, ?_, fun j hj => Function.update_of_ne hj _ _⟩
  · simp only [Function.update_self]
    exact Task.final_step hk
  · simp only [Function.update_self]
    exact Task.not_idle_step hk

/-- Only the task that moved can be on its way. -/
theorem Moves.eq_of_busy (h : Moves t t' i) (hok : Serial A t i) {j : ι} (hj : (t'.task j).Busy) : j = i := by
  by_contra hne
  rw [h.other j hne] at hj
  exact hok.1 j hne hj

/-- If the task that moved has ended, the world is where it ended. -/
theorem Moves.world_eq (h : Moves t t' i) (hno : ¬ (t'.task i).Busy) : t'.world = ((t.task i).final t.world).2 := by
  obtain ⟨r, hr⟩ := Task.eq_done h.not_idle hno
  rw [← h.final, hr]
  rfl

/-! ### Whole programs one after another -/

/-- From `w` the programs of the list have run one after another, with these
results, each from a world that meets its condition. -/
inductive Sequence (p : ι → Prog σ ε α) (A : ι → World σ → Prop) (w : World σ) :
    List (ι × Except ε α) → World σ → Prop
  | nil : Sequence p A w [] w
  | snoc {l : List (ι × Except ε α)} {w₁ w₂ : World σ} {i : ι} {r : Except ε α} (hl : Sequence p A w l w₁)
      (ha : A i w₁) (hr : (p i).run w₁ = (r, w₂)) : Sequence p A w (l ++ [(i, r)]) w₂

/-- The programs of the tasks that have begun, run one after another to their
ends. The last of them may still be on its way to the world `w'`. -/
structure InSequence (p : ι → Prog σ ε α) (A : ι → World σ → Prop) (w : World σ) (t : Tasks ι σ ε α)
    (l : List (ι × Except ε α)) (w' : World σ) : Prop where
  sequence : Sequence p A w l w'
  nodup : (l.map Prod.fst).Nodup
  idle : ∀ i, (t.task i).Idle → t.task i = .idle (p i)
  mem : ∀ i r, (i, r) ∈ l ↔ ¬ (t.task i).Idle ∧ ((t.task i).final t.world).1 = r
  busy : ∀ i, (t.task i).Busy → ((t.task i).final t.world).2 = w'
  world : (∀ i, ¬ (t.task i).Busy) → t.world = w'

namespace InSequence

theorem start (p : ι → Prog σ ε α) (A : ι → World σ → Prop) (w : World σ) : InSequence p A w (start p w) [] w where
  sequence := .nil
  nodup := List.nodup_nil
  idle := fun _ _ => rfl
  mem := fun _ _ => iff_of_false List.not_mem_nil fun h => h.1 trivial
  busy := fun _ h => h.elim
  world := fun _ => rfl

variable {l : List (ι × Except ε α)}

theorem idle_moves (h : InSequence p A w t l w') (hm : Moves t t' i) (j : ι) (hj : (t'.task j).Idle) :
    t'.task j = .idle (p j) := by
  by_cases hji : j = i
  · subst hji
    exact absurd hj hm.not_idle
  · rw [hm.other j hji] at hj ⊢
    exact h.idle j hj

/-- A step of one task leaves the results of the others. -/
theorem mem_moves (h : InSequence p A w t l w') (hok : Serial A t i) (hm : Moves t t' i) {j : ι} (hji : j ≠ i)
    (r : Except ε α) : (j, r) ∈ l ↔ ¬ (t'.task j).Idle ∧ ((t'.task j).final t'.world).1 = r := by
  rw [h.mem, hm.other j hji]
  refine and_congr_right fun hni => ?_
  rw [Task.final_fst hni (hok.1 j hji) t.world t'.world]

/-- A task that begins comes last. -/
theorem begins (h : InSequence p A w t l w') (hok : Serial A t i) (hm : Moves t t' i) (hi : (t.task i).Idle) :
    InSequence p A w t' (l ++ [(i, ((t.task i).final t.world).1)]) ((t.task i).final t.world).2 := by
  have hnot : ∀ j, ¬ (t.task j).Busy := by
    intro j hj
    by_cases hji : j = i
    · subst hji
      rw [h.idle j hi] at hj
      exact hj
    · exact hok.1 j hji hj
  obtain rfl := h.world hnot
  have hnew : ∀ r, (i, r) ∉ l := fun r hr => ((h.mem i r).1 hr).1 hi
  have hrun : (t.task i).final t.world = (p i).run t.world := by
    rw [h.idle i hi]
    rfl
  refine ⟨h.sequence.snoc (hok.2 hi) (by rw [← hrun]), ?_, h.idle_moves hm, fun j r => ?_, fun j hj => ?_, fun hno => ?_⟩
  · rw [List.map_append, List.map_singleton, List.nodup_append]
    refine ⟨h.nodup, by simp, fun j hj j' hj' => ?_⟩
    obtain ⟨⟨j, r⟩, hr, rfl⟩ := List.mem_map.1 hj
    rintro rfl
    obtain rfl := List.mem_singleton.1 hj'
    exact hnew r hr
  · rw [List.mem_append, List.mem_singleton, Prod.mk.injEq]
    by_cases hji : j = i
    · subst hji
      rw [hm.final]
      simp [hnew, hm.not_idle, eq_comm]
    · simp [hji, h.mem_moves hok hm hji]
  · rw [hm.eq_of_busy hok hj, hm.final]
  · exact hm.world_eq (hno i)

/-- A task on its way stays on its way or ends. -/
theorem goes_on (h : InSequence p A w t l w') (hok : Serial A t i) (hm : Moves t t' i) (hb : (t.task i).Busy) :
    InSequence p A w t' l w' := by
  have hw := h.busy i hb
  have hi : ¬ (t.task i).Idle := by
    intro hi
    rw [h.idle i hi] at hb
    exact hb
  refine ⟨h.sequence, h.nodup, h.idle_moves hm, fun j r => ?_, fun j hj => ?_, fun hno => ?_⟩
  · by_cases hji : j = i
    · subst hji
      rw [h.mem, hm.final]
      exact and_congr_left fun _ => iff_of_true hi hm.not_idle
    · exact h.mem_moves hok hm hji r
  · rw [hm.eq_of_busy hok hj, hm.final, hw]
  · rw [hm.world_eq (hno i), hw]

end InSequence

section

variable [DecidableEq ι]

/-- A run in which no two tasks are on their way at once is a run of the programs
of the tasks that have begun, one after another. -/
theorem Run.sequence (h : Run (Serial A) (start p w) t) (hno : ∀ i, ¬ (t.task i).Busy) :
    ∃ l, Sequence p A w l t.world ∧ (l.map Prod.fst).Nodup ∧ ∀ i r, (i, r) ∈ l ↔ (t.task i).result = some r := by
  obtain ⟨l, w', hin⟩ : ∃ l w', InSequence p A w t l w' := by
    refine h.invariant (I := fun t => ∃ l w', InSequence p A w t l w') ?_ ⟨[], w, .start p A w⟩
    rintro t i t' ⟨l, w', hl⟩ hok hstep
    have hm := step_moves hstep
    rcases hm.live with hi | hb
    · exact ⟨_, _, hl.begins hok hm hi⟩
    · exact ⟨_, _, hl.goes_on hok hm hb⟩
  obtain rfl := hin.world hno
  refine ⟨l, hin.sequence, hin.nodup, fun i r => ?_⟩
  rw [hin.mem]
  have hb := hno i
  cases hi : t.task i with
  | idle q => simp [Task.Idle, Task.result]
  | busy q =>
    rw [hi] at hb
    exact absurd trivial hb
  | done r => simp [Task.Idle, Task.result, Task.final]

/-! ### A task that runs alone -/

/-- The tasks after task `i` ran its program `q` from `w` to the end. -/
def finish (t : Tasks ι σ ε α) (i : ι) (q : Prog σ ε α) (w : World σ) : Tasks ι σ ε α :=
  ⟨(q.run w).2, Function.update t.task i (.done (q.run w).1)⟩

theorem run_finish_done {q : Prog σ ε α} (hr : t.task i = .done (q.run w).1) (hworld : t.world = (q.run w).2) :
    Run (Serial A) t (t.finish i q w) := by
  rw [finish, ← hr, Function.update_eq_self, ← hworld]
  exact .refl

theorem step_live {q : Prog σ ε α} (h : t.task i = .idle q ∨ t.task i = .busy q) :
    t.step i = some ⟨(q.access t.world).2, Function.update t.task i (.of (q.access t.world).1)⟩ := by
  rcases h with h | h <;> rw [step, h] <;> rfl

/-- One access, and then on to the end. -/
theorem run_finish_step {q : Prog σ ε α} (h : t.task i = .idle q ∨ t.task i = .busy q) (hok : Serial A t i)
    (hrest : Run (Serial A) ⟨(q.access t.world).2, Function.update t.task i (.of (q.access t.world).1)⟩
      (t.finish i q t.world)) : Run (Serial A) t (t.finish i q t.world) := by
  have hfirst : Run (Serial A) t _ := Lts.Run.refl.tail hok (step_live h)
  exact hfirst.trans hrest

/-- Behind its next access the program can run to its end. -/
def Ends (A : ι → World σ → Prop) (i : ι) (q : Prog σ ε α) (w : World σ) : Prop :=
  ∀ t : Tasks ι σ ε α, t.task i = .of (q.access w).1 → t.world = (q.access w).2 → (∀ j, j ≠ i → ¬ (t.task j).Busy) →
    Run (Serial A) t (t.finish i q w)

theorem Ends.run {q : Prog σ ε α} (h : Ends A i q t.world) (hq : t.task i = .idle q ∨ t.task i = .busy q)
    (hok : Serial A t i) : Run (Serial A) t (t.finish i q t.world) := by
  apply run_finish_step hq hok
  have hrest := h ⟨(q.access t.world).2, Function.update t.task i (.of (q.access t.world).1)⟩
    (Function.update_self ..) rfl fun j hj => ?_
  · rwa [finish, Function.update_idem] at hrest
  · simp only [Function.update_of_ne hj]
    exact hok.1 j hj

theorem Ends.run_of {q : Prog σ ε α} (h : Ends A i q t.world) (hq : t.task i = .of q)
    (halone : ∀ j, j ≠ i → ¬ (t.task j).Busy) : Run (Serial A) t (t.finish i q t.world) := by
  have hok : Serial A t i := ⟨halone, fun hi => absurd (hq ▸ hi) (Task.not_idle_of q)⟩
  cases q with
  | ret a => exact run_finish_done hq rfl
  | fail e => exact run_finish_done hq rfl
  | get k => exact h.run (.inr hq) hok
  | put s k => exact h.run (.inr hq) hok
  | read a n k => exact h.run (.inr hq) hok
  | step op k => exact h.run (.inr hq) hok

theorem ends (q : Prog σ ε α) (w : World σ) : Ends A i q w := by
  induction q generalizing w with
  | ret a => exact fun t hself hworld _ => run_finish_done hself hworld
  | fail e => exact fun t hself hworld _ => run_finish_done hself hworld
  | get k ih => exact ih _ w
  | put s k ih => exact ih _
  | read a n k ih =>
    rintro t hself rfl halone
    exact (ih _ _).run_of hself halone
  | step op k ih =>
    intro t hself hworld halone
    have hrest := (ih t.world).run_of hself halone
    rwa [hworld] at hrest

/-- A task that begins alone can run its program to the end. -/
theorem run_alone {q : Prog σ ε α} {r : Except ε α} (hq : t.task i = .idle q) (hok : Serial A t i)
    (hr : q.run t.world = (r, w')) : Run (Serial A) t ⟨w', Function.update t.task i (.done r)⟩ := by
  have hrun := (ends q t.world).run (.inl hq) hok
  rwa [finish, hr] at hrun

end

end Tasks

end Esp8266Sdk.Nor
