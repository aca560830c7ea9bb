import Esp8266Sdk.Nor.Loop

/-! Runs in which flash steps fail. A step that fails leaves the flash as it is,
and a program that does not look at the status goes on as if it had been made.
`wpFaults` asks for a postcondition whichever of the tolerated steps fail. -/

namespace Esp8266Sdk.Nor.Prog

variable {σ ε α β ι : Type}

/-- A run in which the flash step number `n` fails where `fails n` says so. -/
def flaky : Prog σ ε α → (ℕ → Bool) → World σ → Except ε α × World σ
  | .ret a, _, w => (.ok a, w)
  | .fail e, _, w => (.error e, w)
  | .get k, fails, w => (k w.ram).flaky fails w
  | .put s k, fails, w => k.flaky fails { w with ram := s }
  | .read a n k, fails, w => (k (w.flash.read a n)).flaky fails w
  | .step op k, fails, w =>
    if fails 0 then k.flaky (fun n => fails (n + 1)) w
    else k.flaky (fun n => fails (n + 1)) { w with flash := op.apply w.flash }

/-- The steps of the run that fail, each with the world it would have started from. -/
def failed : Prog σ ε α → (ℕ → Bool) → World σ → List (World σ × Op)
  | .ret _, _, _ => []
  | .fail _, _, _ => []
  | .get k, fails, w => (k w.ram).failed fails w
  | .put s k, fails, w => k.failed fails { w with ram := s }
  | .read a n k, fails, w => (k (w.flash.read a n)).failed fails w
  | .step op k, fails, w =>
    if fails 0 then (w, op) :: k.failed (fun n => fails (n + 1)) w
    else k.failed (fun n => fails (n + 1)) { w with flash := op.apply w.flash }

theorem failed_never (p : Prog σ ε α) (w : World σ) : p.failed (fun _ => false) w = [] := by
  induction p generalizing w with
  | ret a => rfl
  | fail e => rfl
  | get q ih => exact ih _ w
  | put s q ih => exact ih _
  | read a n q ih => exact ih _ w
  | step op q ih => exact ih _

/-- A run in which no step fails. -/
theorem flaky_never (p : Prog σ ε α) (w : World σ) : p.flaky (fun _ => false) w = p.run w := by
  induction p generalizing w with
  | ret a => rfl
  | fail e => rfl
  | get q ih => exact ih _ w
  | put s q ih => exact ih _
  | read a n q ih => exact ih _ w
  | step op q ih => exact ih _

/-- However the steps in `May` fail, the run ends in `Q` or fails in `E`. -/
def wpFaults (May : World σ → Op → Prop) (Q : α → World σ → Prop) (E : ε → World σ → Prop) : Prog σ ε α → World σ → Prop
  | .ret a, w => Q a w
  | .fail e, w => E e w
  | .get k, w => (k w.ram).wpFaults May Q E w
  | .put s k, w => k.wpFaults May Q E { w with ram := s }
  | .read a n k, w => (k (w.flash.read a n)).wpFaults May Q E w
  | .step op k, w =>
    k.wpFaults May Q E { w with flash := op.apply w.flash } ∧ (May w op → k.wpFaults May Q E w)

variable {May : World σ → Op → Prop} {Q Q' : α → World σ → Prop} {E : ε → World σ → Prop}

@[simp] theorem wpFaults_pure (a : α) (w : World σ) : wpFaults May Q E (pure a) w ↔ Q a w := Iff.rfl

@[simp] theorem wpFaults_bind (p : Prog σ ε β) (k : β → Prog σ ε α) (w : World σ) :
    wpFaults May Q E (p >>= k) w ↔ wpFaults May (fun b w => wpFaults May Q E (k b) w) E p w := by
  rw [bind_eq]
  induction p generalizing w with
  | ret a => exact Iff.rfl
  | fail e => exact Iff.rfl
  | get q ih => exact ih _ w
  | put s q ih => exact ih _
  | read a n q ih => exact ih _ w
  | step op q ih => exact and_congr (ih _) (imp_congr_right fun _ => ih _)

theorem wpFaults_post {p : Prog σ ε α} {w : World σ} (h : wpFaults May Q E p w) (hQ : ∀ a w, Q a w → Q' a w) :
    wpFaults May Q' E p w := by
  induction p generalizing w with
  | ret a => exact hQ _ _ h
  | fail e => exact h
  | get q ih => exact ih _ h
  | put s q ih => exact ih h
  | read a n q ih => exact ih _ h
  | step op q ih => exact ⟨ih h.1, fun hm => ih (h.2 hm)⟩

theorem wpFaults_range {n : ℕ} {body : β → ℕ → Prog σ ε β} (I : ℕ → β → World σ → Prop)
    (h : ∀ k < n, ∀ b w, I k b w → wpFaults May (I (k + 1)) E (body b k) w) {b : β} {w : World σ} (h0 : I 0 b w) :
    wpFaults May (I n) E ((List.range n).foldlM body b) w := by
  induction n with
  | zero => exact h0
  | succ n ih =>
    simp only [List.range_succ, List.foldlM_append, wpFaults_bind]
    refine wpFaults_post (ih fun k hk => h k (by omega)) fun b w hb => ?_
    simpa using h n (by omega) b w hb

/-- Where the tolerated steps change nothing, a run without faults says what runs with faults do. -/
theorem wpFaults_of_wp {p : Prog σ ε α} {w : World σ}
    (h : wp (fun w op => May w op → op.apply w.flash = w.flash) Q E p w) : wpFaults May Q E p w := by
  induction p generalizing w with
  | ret a => exact h
  | fail e => exact h
  | get q ih => exact ih _ h
  | put s q ih => exact ih h
  | read a n q ih => exact ih _ h
  | step op q ih =>
    refine ⟨ih h.2, fun hm => ?_⟩
    have hnext := ih h.2
    rwa [h.1 hm] at hnext

theorem wp_of_wpFaults {p : Prog σ ε α} {w : World σ} (h : wpFaults May Q E p w) : wp (fun _ _ => True) Q E p w := by
  induction p generalizing w with
  | ret a => exact h
  | fail e => exact h
  | get q ih => exact ih _ h
  | put s q ih => exact ih h
  | read a n q ih => exact ih _ h
  | step op q ih => exact ⟨trivial, ih h.1⟩

/-- A reading program meets no fault. -/
theorem Reads.wpFaults {p : Prog σ ε α} {g : Flash → α} (hp : Reads p g) {w : World σ} (h : Q (g w.flash) w) :
    wpFaults May Q E p w :=
  wpFaults_of_wp ((hp _ Q E w).2 h)

theorem Checks.wpFaults {p : Prog σ ε α} {e : ε} {g : Flash → Option α} (hp : Checks p e g) {w : World σ}
    (h : match g w.flash with
      | some a => Q a w
      | none => E e w) : wpFaults May Q E p w :=
  wpFaults_of_wp ((hp _ Q E w).2 h)

theorem wpFaults_flaky {p : Prog σ ε α} {w : World σ} (h : wpFaults May Q E p w) {fails : ℕ → Bool}
    (hf : ∀ s ∈ p.failed fails w, May s.1 s.2) :
    match p.flaky fails w with
      | (.ok a, w') => Q a w'
      | (.error e, w') => E e w' := by
  induction p generalizing w fails with
  | ret a => exact h
  | fail e => exact h
  | get q ih => exact ih _ h hf
  | put s q ih => exact ih h hf
  | read a n q ih => exact ih _ h hf
  | step op q ih =>
    rw [failed] at hf
    rw [flaky]
    split_ifs with h0
    · rw [if_pos h0] at hf
      exact ih (h.2 (hf _ List.mem_cons_self)) fun s hs => hf s (List.mem_cons_of_mem _ hs)
    · rw [if_neg h0] at hf
      exact ih h.1 hf

theorem wpFaults_ok {p : Prog σ ε α} {w w' : World σ} {fails : ℕ → Bool} {a : α} (h : wpFaults May Q E p w)
    (hf : ∀ s ∈ p.failed fails w, May s.1 s.2) (hr : p.flaky fails w = (.ok a, w')) : Q a w' := by
  have hend := wpFaults_flaky h hf
  rwa [hr] at hend

end Esp8266Sdk.Nor.Prog
