import Esp8266Sdk.Nor.Prog
import Mathlib.Data.List.Range

/-! Loops over flash programs: folds over a range with an accumulator, searches
that stop at the first answer, and programs that only read. A reading program
computes a function of the flash and of nothing else. -/

namespace Esp8266Sdk.Nor.Prog

variable {σ ε α β ι : Type}

/-- Run `body` on the elements in order until one of them answers. -/
def search : List ι → (ι → Prog σ ε (Option β)) → Prog σ ε (Option β)
  | [], _ => pure none
  | i :: l, body => do
    match ← body i with
    | some b => pure (some b)
    | none => search l body

variable {G : World σ → Op → Prop} {E : ε → World σ → Prop}

/-- An invariant indexed by the number of passes made. -/
theorem wp_range {n : ℕ} {body : β → ℕ → Prog σ ε β} (I : ℕ → β → World σ → Prop)
    (h : ∀ k < n, ∀ b w, I k b w → wp G (I (k + 1)) E (body b k) w) {b : β} {w : World σ} (h0 : I 0 b w) :
    wp G (I n) E ((List.range n).foldlM body b) w := by
  induction n with
  | zero => exact h0
  | succ n ih =>
    simp only [List.range_succ, List.foldlM_append, wp_bind]
    refine wp_post (ih fun k hk => h k (by omega)) fun b w hb => ?_
    simpa using h n (by omega) b w hb

/-- Two loops run alike where their bodies do in every world that meets the invariant. -/
theorem run_range_congr {n : ℕ} {p q : ℕ → Prog σ ε Unit} (I : ℕ → World σ → Prop)
    (h : ∀ k < n, ∀ w, I k w → (p k).run w = (q k).run w ∧ wp (fun _ _ => True) (fun _ => I (k + 1)) (fun _ _ => True) (p k) w)
    {w : World σ} (h0 : I 0 w) :
    ((List.range n).foldlM (fun _ k => p k) ()).run w = ((List.range n).foldlM (fun _ k => q k) ()).run w := by
  induction n with
  | zero => rfl
  | succ n ih =>
    have hn : wp (fun _ _ => True) (fun _ => I n) (fun _ _ => True) ((List.range n).foldlM (fun _ k => p k) ()) w :=
      wp_range (fun k _ => I k) (fun k hk _ w hw => (h k (by omega) w hw).2) h0
    simp only [List.range_succ, List.foldlM_append, List.foldlM_cons, List.foldlM_nil, bind_pure]
    refine run_bind_congr (ih fun k hk => h k (by omega)) fun a w' hr => ?_
    have hI := wp_ok hn hr
    exact (h n (by omega) w' hI).1

/-! ### Reading programs -/

/-- `p` computes `g` of the flash and changes nothing. -/
def Reads (p : Prog σ ε α) (g : Flash → α) : Prop :=
  ∀ (G : World σ → Op → Prop) (Q : α → World σ → Prop) (E : ε → World σ → Prop) (w : World σ),
    wp G Q E p w ↔ Q (g w.flash) w

theorem Reads.pure (a : α) : Reads (Pure.pure a : Prog σ ε α) fun _ => a := fun _ _ _ _ => Iff.rfl

theorem Reads.bind {p : Prog σ ε α} {g : Flash → α} {k : α → Prog σ ε β} {h : α → Flash → β}
    (hp : Reads p g) (hk : ∀ a, Reads (k a) (h a)) : Reads (p >>= k) fun f => h (g f) f := by
  intro G Q E w
  rw [wp_bind, hp]
  exact hk _ G Q E w

theorem Reads.foldlM {body : β → ι → Prog σ ε β} {g : β → ι → Flash → β} (hb : ∀ b i, Reads (body b i) (g b i))
    (l : List ι) (b : β) : Reads (l.foldlM body b) fun f => l.foldl (fun b i => g b i f) b := by
  induction l generalizing b with
  | nil => exact Reads.pure b
  | cons i l ih =>
    intro G Q E w
    rw [List.foldlM_cons, wp_bind, hb]
    exact ih _ G Q E w

theorem Reads.search {body : ι → Prog σ ε (Option β)} {g : ι → Flash → Option β} {l : List ι}
    (hb : ∀ i ∈ l, Reads (body i) (g i)) : Reads (search l body) fun f => l.findSome? fun i => g i f := by
  induction l with
  | nil => exact Reads.pure none
  | cons i l ih =>
    intro G Q E w
    rw [Prog.search, wp_bind, hb i List.mem_cons_self]
    simp only [List.findSome?_cons]
    cases g i w.flash with
    | none => exact ih (fun j hj => hb j (List.mem_cons_of_mem _ hj)) G Q E w
    | some b => exact Iff.rfl

/-- `p` computes `g` of the flash and changes nothing, failing with `e` where `g` is `none`. -/
def Checks (p : Prog σ ε α) (e : ε) (g : Flash → Option α) : Prop :=
  ∀ (G : World σ → Op → Prop) (Q : α → World σ → Prop) (E : ε → World σ → Prop) (w : World σ),
    wp G Q E p w ↔ match g w.flash with
      | some a => Q a w
      | none => E e w

theorem Reads.checks {p : Prog σ ε α} {g : Flash → α} (hp : Reads p g) (e : ε) : Checks p e fun f => some (g f) := hp

theorem Checks.foldlM {e : ε} {body : β → ι → Prog σ ε β} {g : β → ι → Flash → Option β}
    (hb : ∀ b i, Checks (body b i) e (g b i)) (l : List ι) (b : β) :
    Checks (l.foldlM body b) e fun f => l.foldlM (fun b i => g b i f) b := by
  induction l generalizing b with
  | nil => exact (Reads.pure b).checks e
  | cons i l ih =>
    intro G Q E w
    rw [List.foldlM_cons, wp_bind, hb]
    simp only [List.foldlM_cons]
    cases g b i w.flash with
    | none => exact Iff.rfl
    | some b' => exact ih b' G Q E w

/-- A reading program makes no step and returns its function of the flash. -/
theorem Reads.run {p : Prog σ ε α} {g : Flash → α} (hp : Reads p g) (w : World σ) : p.run w = (.ok (g w.flash), w) := by
  have h := wp_run ((hp (fun _ _ => True) (fun a w' => a = g w.flash ∧ w' = w) (fun _ _ => False) w).2 ⟨rfl, rfl⟩)
  rcases hr : p.run w with ⟨a | e, w'⟩
  · rw [hr] at h
    exact h.elim
  · rw [hr] at h
    obtain ⟨rfl, rfl⟩ := h
    rfl

theorem Reads.run_bind {p : Prog σ ε α} {g : Flash → α} (hp : Reads p g) (k : α → Prog σ ε β) (w : World σ) :
    (p >>= k).run w = (k (g w.flash)).run w := by
  rw [Prog.run_bind, hp.run]

theorem Reads.steps {p : Prog σ ε α} {g : Flash → α} (hp : Reads p g) (w : World σ) : p.steps w = [] := by
  have h := wp_steps ((hp (fun _ _ => False) (fun _ _ => True) (fun _ _ => True) w).2 trivial)
  exact List.eq_nil_iff_forall_not_mem.2 fun s hs => h s hs

/-! ### First answers -/

theorem findSome?_congr {l : List ι} {g h : ι → Option β} (e : ∀ i ∈ l, g i = h i) : l.findSome? g = l.findSome? h := by
  induction l with
  | nil => rfl
  | cons i l ih =>
    rw [List.findSome?_cons, List.findSome?_cons, e i List.mem_cons_self, ih fun j hj => e j (List.mem_cons_of_mem _ hj)]

/-- A search over a range answers at the first index that has an answer. -/
theorem findSome?_range_eq_some {n : ℕ} {g : ℕ → Option β} {b : β} :
    (List.range n).findSome? g = some b ↔ ∃ i < n, g i = some b ∧ ∀ j < i, g j = none := by
  induction n with
  | zero => simp
  | succ n ih =>
    rw [List.range_succ, List.findSome?_append, Option.or_eq_some_iff, ih]
    simp only [List.findSome?_eq_none_iff, List.mem_range, List.findSome?_singleton]
    constructor
    · rintro (⟨i, hi, h⟩ | ⟨hnone, hb⟩)
      · exact ⟨i, by omega, h⟩
      · exact ⟨n, by omega, hb, hnone⟩
    · rintro ⟨i, hi, hb, hnone⟩
      rcases Nat.lt_or_ge i n with h | h
      · exact .inl ⟨i, h, hb, hnone⟩
      · obtain rfl : i = n := by omega
        exact .inr ⟨hnone, hb⟩

theorem findSome?_range_eq_none {n : ℕ} {g : ℕ → Option β} :
    (List.range n).findSome? g = none ↔ ∀ i < n, g i = none := by
  simp only [List.findSome?_eq_none_iff, List.mem_range]

end Esp8266Sdk.Nor.Prog
