import Esp8266Sdk.Nor.Loop

/-! The list of flash steps of a run. Sequences append the lists of their parts, so
that the flash of a cut run is read off the list. -/

namespace Esp8266Sdk.Nor

/-- The flash after the steps of a list. -/
def applyOps (f : Flash) (l : List Op) : Flash := l.foldl (fun f op => op.apply f) f

@[simp] theorem applyOps_nil (f : Flash) : applyOps f [] = f := rfl

@[simp] theorem applyOps_cons (f : Flash) (op : Op) (l : List Op) : applyOps f (op :: l) = applyOps (op.apply f) l := rfl

theorem applyOps_append (f : Flash) (l l' : List Op) : applyOps f (l ++ l') = applyOps (applyOps f l) l' :=
  List.foldl_append

/-- A cut in the second of two lists comes after all steps of the first. -/
theorem applyOps_take_append (f : Flash) (l l' : List Op) {k : ℕ} (hk : l.length ≤ k) :
    applyOps f ((l ++ l').take k) = applyOps (applyOps f l) (l'.take (k - l.length)) := by
  rw [List.take_append, List.take_of_length_le hk, applyOps_append]

namespace Prog

variable {σ ε α β : Type}

/-- The run makes the flash steps `l` and ends as `r`. -/
structure Emits (p : Prog σ ε α) (w : World σ) (l : List Op) (r : Except ε α × World σ) : Prop where
  steps : (p.steps w).map Prod.snd = l
  run : p.run w = r

namespace Emits

variable {p : Prog σ ε α} {k : α → Prog σ ε β} {w w' : World σ} {l l' : List Op} {a : α} {e : ε}

theorem pure (a : α) (w : World σ) : Emits (Pure.pure a : Prog σ ε α) w [] (.ok a, w) := ⟨rfl, rfl⟩

theorem fail (e : ε) (w : World σ) : Emits (.fail e : Prog σ ε α) w [] (.error e, w) := ⟨rfl, rfl⟩

theorem step (op : Op) (w : World σ) :
    Emits (.step op (.ret ()) : Prog σ ε Unit) w [op] (.ok (), { w with flash := op.apply w.flash }) := ⟨rfl, rfl⟩

theorem modify (g : σ → σ) (w : World σ) :
    Emits (.get fun s => .put (g s) (.ret ()) : Prog σ ε Unit) w [] (.ok (), { w with ram := g w.ram }) := ⟨rfl, rfl⟩

theorem bind {r : Except ε β × World σ} (h : Emits p w l (.ok a, w')) (h' : Emits (k a) w' l' r) :
    Emits (p >>= k) w (l ++ l') r := by
  constructor
  · rw [steps_bind, h.run, List.map_append, h.steps, h'.steps]
  · rw [run_bind, h.run]
    exact h'.run

theorem bind_error (h : Emits p w l (.error e, w')) : Emits (p >>= k) w l (.error e, w') := by
  constructor
  · rw [steps_bind, h.run, List.append_nil, h.steps]
  · rw [run_bind, h.run]

/-- The result of a run may be changed afterwards. -/
theorem bind_pure {r : Except ε α × World σ} (h : Emits p w l r) (g : α → β) :
    ∃ r', Emits (p >>= fun a => Pure.pure (g a)) w l r' := by
  rcases r with ⟨e | a, w'⟩
  · exact ⟨_, h.bind_error⟩
  · rw [← List.append_nil l]
    exact ⟨_, h.bind (pure (g a) w')⟩

/-- What only reads makes no step. -/
theorem reads_bind {g : Flash → α} (hp : Reads p g) {r : Except ε β × World σ} (h : Emits (k (g w.flash)) w l r) :
    Emits (p >>= k) w l r :=
  bind (l := []) ⟨by rw [hp.steps, List.map_nil], hp.run w⟩ h

theorem checks_bind {g : Flash → Option α} (hp : Checks p e g) (ha : g w.flash = some a) {r : Except ε β × World σ}
    (h : Emits (k a) w l r) : Emits (p >>= k) w l r := by
  have hread := wp_and_run ((hp (fun _ _ => False) (fun b w' => b = a ∧ w' = w) (fun _ _ => False) w).2 (by
    rw [ha]
    exact ⟨rfl, rfl⟩))
  have hsteps : p.steps w = [] := List.eq_nil_iff_forall_not_mem.2 fun s hs => wp_steps hread s hs
  have hrun : p.run w = (.ok a, w) := by
    rcases hr : p.run w with ⟨e | b, w'⟩
    · have := wp_run hread
      rw [hr] at this
      exact this.elim
    · obtain ⟨⟨rfl, rfl⟩, -⟩ := wp_ok hread hr
      rfl
  exact bind (l := []) ⟨by rw [hsteps, List.map_nil], hrun⟩ h

/-- A loop makes the steps of its passes. -/
theorem range {n : ℕ} {body : ℕ → Prog σ ε Unit} (I : ℕ → World σ) (L : ℕ → List Op)
    (h : ∀ k < n, Emits (body k) (I k) (L k) (.ok (), I (k + 1))) :
    Emits ((List.range n).foldlM (fun _ k => body k) ()) (I 0) ((List.range n).flatMap L) (.ok (), I n) := by
  induction n with
  | zero => exact pure () _
  | succ n ih =>
    rw [List.range_succ, List.foldlM_append, List.flatMap_append, List.flatMap_singleton]
    refine (ih fun k hk => h k (by omega)).bind ?_
    simpa using h n (by omega)

/-- A loop of which one pass makes steps. -/
theorem range_single {n m : ℕ} {body : ℕ → Prog σ ε Unit} (hm : m < n)
    (hbefore : ∀ k < m, Emits (body k) w [] (.ok (), w)) (h : Emits (body m) w l (.ok (), w'))
    (hafter : ∀ k, m < k → k < n → Emits (body k) w' [] (.ok (), w')) :
    Emits ((List.range n).foldlM (fun _ k => body k) ()) w l (.ok (), w') := by
  have hflat : ∀ N, (List.range N).flatMap (fun k => if k = m then l else []) = if m < N then l else [] := by
    intro N
    induction N with
    | zero => rfl
    | succ N ih =>
      rw [List.range_succ, List.flatMap_append, List.flatMap_singleton, ih]
      rcases Nat.lt_trichotomy m N with h | rfl | h
      · rw [if_pos h, if_neg (by omega), if_pos (by omega), List.append_nil]
      · rw [if_neg (by omega), if_pos rfl, if_pos (by omega), List.nil_append]
      · rw [if_neg (by omega), if_neg (by omega), if_neg (by omega), List.append_nil]
  have hall : Emits ((List.range n).foldlM (fun _ k => body k) ()) _ _ _ :=
    range (fun k => if k ≤ m then w else w') (fun k => if k = m then l else []) fun k hk => by
    rcases Nat.lt_trichotomy k m with hlt | rfl | hgt
    · rw [if_pos hlt.le, if_neg (by omega), if_pos (by omega)]
      exact hbefore k hlt
    · rw [if_pos le_rfl, if_pos rfl, if_neg (by omega)]
      exact h
    · rw [if_neg (by omega), if_neg (by omega), if_neg (by omega)]
      exact hafter k hgt hk
  rwa [hflat, if_pos hm, if_pos (Nat.zero_le _), if_neg (by omega)] at hall

/-- A loop that fails in pass `m`, which makes no step. -/
theorem range_error {n m : ℕ} {body : ℕ → Prog σ ε Unit} (I : ℕ → World σ) (L : ℕ → List Op) (hm : m < n)
    (h : ∀ k < m, Emits (body k) (I k) (L k) (.ok (), I (k + 1))) (hfail : Emits (body m) (I m) [] (.error e, I m)) :
    Emits ((List.range n).foldlM (fun _ k => body k) ()) (I 0) ((List.range m).flatMap L) (.error e, I m) := by
  obtain ⟨d, rfl⟩ := Nat.exists_eq_add_of_lt hm
  rw [show m + d + 1 = m + (d + 1) by omega, List.range_add, List.foldlM_append, List.range_succ_eq_map, List.map_cons,
    Nat.add_zero, ← List.append_nil ((List.range m).flatMap L)]
  refine (range I L h).bind ?_
  rw [List.foldlM_cons]
  exact hfail.bind_error

/-- The flash of a cut run. -/
theorem cut {r : Except ε α × World σ} (h : Emits p w l r) (k : ℕ) : p.cut w k = applyOps w.flash (l.take k) := by
  rw [Prog.cut, replay, ← h.steps, applyOps, ← List.map_take, List.foldl_map]

/-- The flash at the end. -/
theorem flash {r : Except ε α × World σ} (h : Emits p w l r) : r.2.flash = applyOps w.flash l := by
  rw [← h.run, ← replay_steps, replay, ← h.steps, applyOps, List.foldl_map]

end Emits

end Prog

end Esp8266Sdk.Nor
