import Esp8266Sdk.Nor.Flash

/-! Programs over a NOR flash. A program is a tree of flash reads, flash steps
and accesses to a RAM state, ending in a result or in a failure. It is run on a
world, the flash together with the RAM. The tree keeps every flash step apart,
so that a run can also be cut between two steps. -/

namespace Esp8266Sdk.Nor

/-- A program with RAM state `σ`, failures `ε` and results `α`. -/
inductive Prog (σ ε α : Type) where
  | ret (a : α)
  | fail (e : ε)
  | get (k : σ → Prog σ ε α)
  | put (s : σ) (k : Prog σ ε α)
  | read (a n : ℕ) (k : List UInt8 → Prog σ ε α)
  | step (op : Op) (k : Prog σ ε α)

/-- The flash and the RAM a program runs on. -/
structure World (σ : Type) where
  flash : Flash
  ram : σ

namespace Prog

variable {σ ε α β ι : Type}

def bind (p : Prog σ ε α) (k : α → Prog σ ε β) : Prog σ ε β := match p with
  | .ret a => k a
  | .fail e => .fail e
  | .get q => .get fun s => (q s).bind k
  | .put s q => .put s (q.bind k)
  | .read a n q => .read a n fun bs => (q bs).bind k
  | .step op q => .step op (q.bind k)

instance : Monad (Prog σ ε) where
  pure := .ret
  bind := bind

theorem bind_eq (p : Prog σ ε α) (k : α → Prog σ ε β) : p >>= k = p.bind k := rfl

theorem bind_ret (p : Prog σ ε α) : p.bind .ret = p := by
  induction p with
  | ret a => rfl
  | fail e => rfl
  | get q ih => simp only [bind]; congr 1; funext s; exact ih s
  | put s q ih => simp only [bind, ih]
  | read a n q ih => simp only [bind]; congr 1; funext bs; exact ih bs
  | step op q ih => simp only [bind, ih]

theorem bind_assoc {γ : Type} (p : Prog σ ε α) (k : α → Prog σ ε β) (l : β → Prog σ ε γ) :
    (p.bind k).bind l = p.bind fun a => (k a).bind l := by
  induction p with
  | ret a => rfl
  | fail e => rfl
  | get q ih => simp only [bind]; congr 1; funext s; exact ih s
  | put s q ih => simp only [bind, ih]
  | read a n q ih => simp only [bind]; congr 1; funext bs; exact ih bs
  | step op q ih => simp only [bind, ih]

instance : LawfulMonad (Prog σ ε) := LawfulMonad.mk' _ bind_ret (fun _ _ => rfl) bind_assoc

/-! ### Runs -/

/-- The result of a run and the world it leaves. -/
def run : Prog σ ε α → World σ → Except ε α × World σ
  | .ret a, w => (.ok a, w)
  | .fail e, w => (.error e, w)
  | .get k, w => (k w.ram).run w
  | .put s k, w => k.run { w with ram := s }
  | .read a n k, w => (k (w.flash.read a n)).run w
  | .step op k, w => k.run { w with flash := op.apply w.flash }

/-- The flash steps of a run, each with the world it starts from. -/
def steps : Prog σ ε α → World σ → List (World σ × Op)
  | .ret _, _ => []
  | .fail _, _ => []
  | .get k, w => (k w.ram).steps w
  | .put s k, w => k.steps { w with ram := s }
  | .read a n k, w => (k (w.flash.read a n)).steps w
  | .step op k, w => (w, op) :: k.steps { w with flash := op.apply w.flash }

/-- The flash after the steps of a list. -/
def replay (f : Flash) (l : List (World σ × Op)) : Flash := l.foldl (fun f s => s.2.apply f) f

/-- The flash when a run is cut after its first `k` steps. -/
def cut (p : Prog σ ε α) (w : World σ) (k : ℕ) : Flash := replay w.flash ((p.steps w).take k)

theorem run_bind (p : Prog σ ε α) (k : α → Prog σ ε β) (w : World σ) :
    (p >>= k).run w = match p.run w with
      | (.ok a, w') => (k a).run w'
      | (.error e, w') => (.error e, w') := by
  rw [bind_eq]
  induction p generalizing w with
  | ret a => rfl
  | fail e => rfl
  | get q ih => exact ih _ w
  | put s q ih => exact ih _
  | read a n q ih => exact ih _ w
  | step op q ih => exact ih _

theorem steps_bind (p : Prog σ ε α) (k : α → Prog σ ε β) (w : World σ) :
    (p >>= k).steps w = p.steps w ++ match p.run w with
      | (.ok a, w') => (k a).steps w'
      | (.error _, _) => [] := by
  rw [bind_eq]
  induction p generalizing w with
  | ret a => rfl
  | fail e => rfl
  | get q ih => exact ih _ w
  | put s q ih => exact ih _
  | read a n q ih => exact ih _ w
  | step op q ih => exact congrArg _ (ih _)

theorem mem_steps_bind {p : Prog σ ε α} {k : α → Prog σ ε β} {w : World σ} {s : World σ × Op} :
    s ∈ (p >>= k).steps w ↔ s ∈ p.steps w ∨ ∃ a w', p.run w = (.ok a, w') ∧ s ∈ (k a).steps w' := by
  rw [steps_bind, List.mem_append]
  apply or_congr_right
  rcases p.run w with ⟨a | a, w'⟩ <;> simp

theorem run_bind_eq_ok {p : Prog σ ε α} {k : α → Prog σ ε β} {w w'' : World σ} {b : β} :
    (p >>= k).run w = (.ok b, w'') ↔ ∃ a w', p.run w = (.ok a, w') ∧ (k a).run w' = (.ok b, w'') := by
  rw [run_bind]
  rcases p.run w with ⟨a | a, w'⟩ <;> simp

/-- Two sequences run alike where their parts do. -/
theorem run_bind_congr {p q : Prog σ ε α} {k l : α → Prog σ ε β} {w : World σ} (h : p.run w = q.run w)
    (hk : ∀ a w', p.run w = (.ok a, w') → (k a).run w' = (l a).run w') : (p >>= k).run w = (q >>= l).run w := by
  rw [run_bind, run_bind, ← h]
  rcases hr : p.run w with ⟨e | a, w'⟩
  · rfl
  · exact hk a w' hr

/-- A whole run leaves the flash that all its steps make. -/
theorem replay_steps (p : Prog σ ε α) (w : World σ) : replay w.flash (p.steps w) = (p.run w).2.flash := by
  induction p generalizing w with
  | ret a => rfl
  | fail e => rfl
  | get q ih => exact ih _ w
  | put s q ih => exact ih { w with ram := s }
  | read a n q ih => exact ih _ w
  | step op q ih => exact ih { w with flash := op.apply w.flash }

/-! ### Weakest preconditions -/

/-- Every step of the run satisfies `G`, and the run ends in `Q` or fails in `E`. -/
def wp (G : World σ → Op → Prop) (Q : α → World σ → Prop) (E : ε → World σ → Prop) : Prog σ ε α → World σ → Prop
  | .ret a, w => Q a w
  | .fail e, w => E e w
  | .get k, w => (k w.ram).wp G Q E w
  | .put s k, w => k.wp G Q E { w with ram := s }
  | .read a n k, w => (k (w.flash.read a n)).wp G Q E w
  | .step op k, w => G w op ∧ k.wp G Q E { w with flash := op.apply w.flash }

variable {G G' : World σ → Op → Prop} {Q Q' : α → World σ → Prop} {E E' : ε → World σ → Prop}

@[simp] theorem wp_pure (a : α) (w : World σ) : wp G Q E (pure a) w ↔ Q a w := Iff.rfl

@[simp] theorem wp_fail (e : ε) (w : World σ) : wp G Q E (.fail e) w ↔ E e w := Iff.rfl

@[simp] theorem wp_bind (p : Prog σ ε β) (k : β → Prog σ ε α) (w : World σ) :
    wp G Q E (p >>= k) w ↔ wp G (fun b w => wp G Q E (k b) w) E p w := by
  rw [bind_eq]
  induction p generalizing w with
  | ret a => exact Iff.rfl
  | fail e => exact Iff.rfl
  | get q ih => exact ih _ w
  | put s q ih => exact ih _
  | read a n q ih => exact ih _ w
  | step op q ih => exact and_congr_right fun _ => ih _

theorem wp_mono {p : Prog σ ε α} {w : World σ} (h : wp G Q E p w) (hG : ∀ w op, G w op → G' w op)
    (hQ : ∀ a w, Q a w → Q' a w) (hE : ∀ e w, E e w → E' e w) : wp G' Q' E' p w := by
  induction p generalizing w with
  | ret a => exact hQ _ _ h
  | fail e => exact hE _ _ h
  | get q ih => exact ih _ h
  | put s q ih => exact ih h
  | read a n q ih => exact ih _ h
  | step op q ih => exact ⟨hG _ _ h.1, ih h.2⟩

theorem wp_and {p : Prog σ ε α} {w : World σ} (h : wp G Q E p w) (h' : wp G' Q' E' p w) :
    wp (fun w op => G w op ∧ G' w op) (fun a w => Q a w ∧ Q' a w) (fun e w => E e w ∧ E' e w) p w := by
  induction p generalizing w with
  | ret a => exact ⟨h, h'⟩
  | fail e => exact ⟨h, h'⟩
  | get q ih => exact ih _ h h'
  | put s q ih => exact ih h h'
  | read a n q ih => exact ih _ h h'
  | step op q ih => exact ⟨⟨h.1, h'.1⟩, ih h.2 h'.2⟩

theorem wp_post {p : Prog σ ε α} {w : World σ} (h : wp G Q E p w) (hQ : ∀ a w, Q a w → Q' a w) : wp G Q' E p w :=
  wp_mono h (fun _ _ h => h) hQ fun _ _ h => h

theorem wp_run {p : Prog σ ε α} {w : World σ} (h : wp G Q E p w) :
    match p.run w with
      | (.ok a, w') => Q a w'
      | (.error e, w') => E e w' := by
  induction p generalizing w with
  | ret a => exact h
  | fail e => exact h
  | get q ih => exact ih _ h
  | put s q ih => exact ih h
  | read a n q ih => exact ih _ h
  | step op q ih => exact ih h.2

theorem wp_ok {p : Prog σ ε α} {w w' : World σ} {a : α} (h : wp G Q E p w) (hr : p.run w = (.ok a, w')) : Q a w' := by
  have := wp_run h
  rwa [hr] at this

/-- The result of a run, where every end gives the same one. -/
theorem run_fst_eq {p : Prog σ ε α} {w : World σ} {o : Except ε α}
    (h : wp (fun _ _ => True) (fun a _ => .ok a = o) (fun e _ => .error e = o) p w) : (p.run w).1 = o := by
  induction p generalizing w with
  | ret a => exact h
  | fail e => exact h
  | get q ih => exact ih _ h
  | put s q ih => exact ih h
  | read a n q ih => exact ih _ h
  | step op q ih => exact ih h.2

theorem run_eq {p : Prog σ ε α} {w : World σ} {o : Except ε α} (h : (p.run w).1 = o) : p.run w = (o, (p.run w).2) := by
  rw [← h]

/-- A condition on the end of a run, without one on its steps. -/
theorem wp_of_run {p : Prog σ ε α} {w : World σ}
    (h : match p.run w with
      | (.ok a, w') => Q a w'
      | (.error e, w') => E e w') : wp (fun _ _ => True) Q E p w := by
  induction p generalizing w with
  | ret a => exact h
  | fail e => exact h
  | get q ih => exact ih _ h
  | put s q ih => exact ih h
  | read a n q ih => exact ih _ h
  | step op q ih => exact ⟨trivial, ih h⟩

/-- Programs that run alike meet the same conditions on their ends. -/
theorem wp_of_run_eq {p q : Prog σ ε α} {w : World σ} (h : p.run w = q.run w) (hp : wp (fun _ _ => True) Q E p w) :
    wp (fun _ _ => True) Q E q w := by
  apply wp_of_run
  rw [← h]
  exact wp_run hp

/-- The world a run leaves, however it ends. -/
theorem run_snd {I : World σ → Prop} {p : Prog σ ε α} {w : World σ} (h : wp G (fun _ => I) (fun _ => I) p w) :
    I (p.run w).2 := by
  induction p generalizing w with
  | ret a => exact h
  | fail e => exact h
  | get q ih => exact ih _ h
  | put s q ih => exact ih h
  | read a n q ih => exact ih _ h
  | step op q ih => exact ih h.2

theorem wp_steps {p : Prog σ ε α} {w : World σ} (h : wp G Q E p w) : ∀ s ∈ p.steps w, G s.1 s.2 := by
  induction p generalizing w with
  | ret a => simp [steps]
  | fail e => simp [steps]
  | get q ih => exact ih _ h
  | put s q ih => exact ih h
  | read a n q ih => exact ih _ h
  | step op q ih => simpa [steps] using ⟨h.1, fun a b hs => ih h.2 (a, b) hs⟩

theorem wp_of_steps {p : Prog σ ε α} {w : World σ} (h : ∀ s ∈ p.steps w, G s.1 s.2) :
    wp G (fun _ _ => True) (fun _ _ => True) p w := by
  induction p generalizing w with
  | ret a => trivial
  | fail e => trivial
  | get q ih => exact ih _ h
  | put s q ih => exact ih h
  | read a n q ih => exact ih _ h
  | step op q ih => exact ⟨h _ List.mem_cons_self, ih fun s hs => h s (List.mem_cons_of_mem _ hs)⟩

/-- A returning run ends where `run` says. -/
theorem wp_and_run {p : Prog σ ε α} {w : World σ} (h : wp G Q E p w) :
    wp G (fun a w' => Q a w' ∧ p.run w = (.ok a, w')) E p w := by
  induction p generalizing w with
  | ret a => exact ⟨h, rfl⟩
  | fail e => exact h
  | get q ih => exact ih _ h
  | put s q ih => exact ih h
  | read a n q ih => exact ih _ h
  | step op q ih => exact ⟨h.1, ih h.2⟩

/-- An invariant that holds after every step holds wherever the run is cut. -/
theorem wp_cut {I : Flash → Prop} (hG : ∀ w op, G w op → I (op.apply w.flash)) {p : Prog σ ε α} {w : World σ}
    (h : wp G Q E p w) (hI : I w.flash) (k : ℕ) : I (p.cut w k) := by
  induction p generalizing w k with
  | ret a => simpa [cut, steps, replay] using hI
  | fail e => simpa [cut, steps, replay] using hI
  | get q ih => exact ih _ h hI k
  | put s q ih => exact ih h hI k
  | read a n q ih => exact ih _ h hI k
  | step op q ih =>
    cases k with
    | zero => exact hI
    | succ k => exact ih h.2 (hG _ _ h.1) k

end Prog

end Esp8266Sdk.Nor
