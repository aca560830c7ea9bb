import Esp8266Sdk.Nor.Loop

/-! The requests of a program to its flash: the reads and the steps it makes. A
program that keeps `I` of the RAM and makes only requests that satisfy `R` and
`G` does so piece by piece. -/

namespace Esp8266Sdk.Nor.Prog

variable {σ ε α β ι : Type} {R : ℕ → ℕ → Prop} {G : Op → Prop} {I : σ → Prop}

/-- Every read of the run satisfies `R` and every step of it `G`. -/
def Asks (R : ℕ → ℕ → Prop) (G : Op → Prop) : Prog σ ε α → World σ → Prop
  | .ret _, _ => True
  | .fail _, _ => True
  | .get k, w => (k w.ram).Asks R G w
  | .put s k, w => k.Asks R G { w with ram := s }
  | .read a n k, w => R a n ∧ (k (w.flash.read a n)).Asks R G w
  | .step op k, w => G op ∧ k.Asks R G { w with flash := op.apply w.flash }

theorem asks_bind {p : Prog σ ε α} {k : α → Prog σ ε β} {w : World σ} :
    (p >>= k).Asks R G w ↔ p.Asks R G w ∧ ∀ a w', p.run w = (.ok a, w') → (k a).Asks R G w' := by
  rw [bind_eq]
  induction p generalizing w with
  | ret a =>
    refine ⟨fun h => ⟨trivial, fun b w' hr => ?_⟩, fun h => h.2 _ _ rfl⟩
    obtain ⟨hb, rfl⟩ := Prod.mk.inj hr
    obtain rfl := Except.ok.inj hb
    exact h
  | fail e => exact ⟨fun _ => ⟨trivial, fun _ _ hr => by cases hr⟩, fun _ => trivial⟩
  | get q ih => exact ih _
  | put s q ih => exact ih
  | read a n q ih => exact (and_congr_right fun _ => ih _).trans and_assoc.symm
  | step op q ih => exact (and_congr_right fun _ => ih).trans and_assoc.symm

/-- From every RAM in `I` the program makes only such requests, and it keeps `I`. -/
def Modest (R : ℕ → ℕ → Prop) (G : Op → Prop) (I : σ → Prop) (p : Prog σ ε α) : Prop :=
  ∀ w, I w.ram → p.Asks R G w ∧ I (p.run w).2.ram

namespace Modest

theorem pure (a : α) : Modest R G I (Pure.pure a : Prog σ ε α) := fun _ h => ⟨trivial, h⟩

theorem fail (e : ε) : Modest R G I (.fail e : Prog σ ε α) := fun _ h => ⟨trivial, h⟩

theorem step {op : Op} (hg : G op) {p : Prog σ ε α} (h : Modest R G I p) : Modest R G I (.step op p) :=
  fun w hI => ⟨⟨hg, (h { w with flash := op.apply w.flash } hI).1⟩, (h { w with flash := op.apply w.flash } hI).2⟩

theorem read {a n : ℕ} (hr : R a n) {k : List UInt8 → Prog σ ε α} (h : ∀ bs, Modest R G I (k bs)) :
    Modest R G I (.read a n k) := fun w hI => ⟨⟨hr, (h _ w hI).1⟩, (h _ w hI).2⟩

/-- A read of the RAM. -/
theorem get {k : σ → Prog σ ε α} (h : ∀ s, I s → Modest R G I (k s)) : Modest R G I (.get k) :=
  fun w hI => h w.ram hI w hI

/-- A change of the RAM. -/
theorem modify {g : σ → σ} (hg : ∀ s, I s → I (g s)) {p : Prog σ ε α} (h : Modest R G I p) :
    Modest R G I (.get fun s => .put (g s) p) := fun w hI => h { w with ram := g w.ram } (hg w.ram hI)

/-- A sequence, whose second part needs to be considered for what the first can return. -/
theorem bind {p : Prog σ ε α} {k : α → Prog σ ε β} (hp : Modest R G I p)
    (hk : ∀ a, (∃ w w', I w.ram ∧ p.run w = (.ok a, w')) → Modest R G I (k a)) : Modest R G I (p >>= k) := by
  intro w hI
  obtain ⟨ha, hmid⟩ := hp w hI
  rw [asks_bind, run_bind]
  rcases hr : p.run w with ⟨e | a, w'⟩ <;> rw [hr] at hmid
  · exact ⟨⟨ha, fun _ _ he => by cases he⟩, hmid⟩
  · obtain ⟨hk₁, hk₂⟩ := hk a ⟨w, w', hI, hr⟩ w' hmid
    refine ⟨⟨ha, fun b w'' he => ?_⟩, hk₂⟩
    obtain ⟨hb, rfl⟩ := Prod.mk.inj he
    obtain rfl := Except.ok.inj hb
    exact hk₁

theorem foldlM {body : β → ι → Prog σ ε β} {l : List ι} (h : ∀ b, ∀ i ∈ l, Modest R G I (body b i)) (b : β) :
    Modest R G I (l.foldlM body b) := by
  induction l generalizing b with
  | nil => exact pure b
  | cons i l ih =>
    rw [List.foldlM_cons]
    exact (h b i List.mem_cons_self).bind fun b' _ => ih (fun b j hj => h b j (List.mem_cons_of_mem _ hj)) b'

theorem search {body : ι → Prog σ ε (Option β)} {l : List ι} (h : ∀ i ∈ l, Modest R G I (body i)) :
    Modest R G I (Prog.search l body) := by
  induction l with
  | nil => exact pure none
  | cons i l ih =>
    refine (h i List.mem_cons_self).bind fun o _ => ?_
    cases o with
    | none => exact ih fun j hj => h j (List.mem_cons_of_mem _ hj)
    | some b => exact pure _

end Modest

end Esp8266Sdk.Nor.Prog
