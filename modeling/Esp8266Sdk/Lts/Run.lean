import Mathlib.Tactic.Basic
import Mathlib.Tactic.Common

/-! Runs of a labelled transition system whose every step meets a condition on
the state before it and the label. An invariant is proved for one step and holds
along the run; a map that takes steps to steps takes runs to runs. -/

namespace Esp8266Sdk.Lts

variable {σ α τ β : Type*}

/-- `s'` is reached from `s` by steps of `R` that meet `ok`. -/
inductive Run (R : σ → α → σ → Prop) (ok : σ → α → Prop) (s : σ) : σ → Prop
  | refl : Run R ok s s
  | tail {t u : σ} {a : α} : Run R ok s t → ok t a → R t a u → Run R ok s u

namespace Run

variable {R : σ → α → σ → Prop} {R' : τ → β → τ → Prop} {ok ok' : σ → α → Prop} {s s' : σ}

theorem mono (hok : ∀ s a, ok s a → ok' s a) (h : Run R ok s s') : Run R ok' s s' := by
  induction h with
  | refl => exact .refl
  | tail _ ha hstep ih => exact ih.tail (hok _ _ ha) hstep

theorem trans {s'' : σ} (h : Run R ok s s') (h' : Run R ok s' s'') : Run R ok s s'' := by
  induction h' with
  | refl => exact h
  | tail _ ha hstep ih => exact ih.tail ha hstep

/-- What a step preserves holds along a run. -/
theorem invariant {I : σ → Prop} (hI : ∀ {s a s'}, I s → ok s a → R s a s' → I s') (h : Run R ok s s')
    (h₀ : I s) : I s' := by
  induction h with
  | refl => exact h₀
  | tail _ ha hstep ih => exact hI ih ha hstep

/-- A run seen through a map of states and labels. -/
theorem map {f : σ → τ} {g : σ → α → β} {ok' : τ → β → Prop}
    (hstep : ∀ {s a s'}, R s a s' → R' (f s) (g s a) (f s'))
    (hok : ∀ s a, ok s a → ok' (f s) (g s a)) (h : Run R ok s s') : Run R' ok' (f s) (f s') := by
  induction h with
  | refl => exact .refl
  | tail _ ha h ih => exact ih.tail (hok _ _ ha) (hstep h)

end Run

/-! ### Running a list of labels -/

variable (step : σ → α → Option σ) (ok : σ → α → Prop) [∀ s a, Decidable (ok s a)]

/-- Take the labels one after the other, as long as each is enabled and meets `ok`. -/
def exec : σ → List α → Option σ
  | s, [] => some s
  | s, a :: as => if ok s a then (step s a).bind fun s' => exec s' as else none

variable {step ok}

theorem run_of_exec {as : List α} {s s' : σ} (h : exec step ok s as = some s') :
    Run (fun s a s' => step s a = some s') ok s s' := by
  induction as generalizing s with
  | nil =>
    cases h
    exact .refl
  | cons a as ih =>
    simp only [exec] at h
    split at h
    · obtain ⟨t, ht, h⟩ := Option.bind_eq_some_iff.mp h
      exact (Run.tail .refl ‹_› ht).trans (ih h)
    · cases h

/-- A run to a state that meets `P`, by evaluation. -/
theorem run_of_any {as : List α} {s : σ} {P : σ → Bool} (h : (exec step ok s as).any P) :
    ∃ s', Run (fun s a s' => step s a = some s') ok s s' ∧ P s' := by
  obtain ⟨s', hs, hP⟩ := Option.any_eq_true .. |>.mp h
  exact ⟨s', run_of_exec hs, hP⟩

end Esp8266Sdk.Lts
