import Esp8266Sdk.Nor.Loop

/-! Programs that only write the RAM. Their result and the flash they leave do not
depend on it, and it keeps what each of their writes keeps. -/

namespace Esp8266Sdk.Nor.Prog

variable {σ ε α β ι : Type}

/-- Two ends with the same result and the same flash. -/
def SameEnd (x y : Except ε α × World σ) : Prop := x.1 = y.1 ∧ x.2.flash = y.2.flash

/-- Some run of the program returns `a`. -/
def Returns (p : Prog σ ε α) (a : α) : Prop := ∃ w w', p.run w = (.ok a, w')

/-- The program does not look at the RAM, and what it writes keeps `I`. -/
structure WriteOnly (I : σ → Prop) (p : Prog σ ε α) : Prop where
  same : ∀ f s t, SameEnd (p.run ⟨f, s⟩) (p.run ⟨f, t⟩)
  keeps : ∀ w, I w.ram → I (p.run w).2.ram

namespace WriteOnly

variable {I : σ → Prop}

theorem pure (a : α) : WriteOnly I (Pure.pure a : Prog σ ε α) := ⟨fun _ _ _ => ⟨rfl, rfl⟩, fun _ h => h⟩

theorem fail (e : ε) : WriteOnly I (.fail e : Prog σ ε α) := ⟨fun _ _ _ => ⟨rfl, rfl⟩, fun _ h => h⟩

theorem step (op : Op) {p : Prog σ ε α} (h : WriteOnly I p) : WriteOnly I (.step op p) :=
  ⟨fun _ _ _ => h.same _ _ _, fun _ hI => h.keeps _ hI⟩

/-- A change of the RAM. -/
theorem modify {g : σ → σ} (hg : ∀ s, I s → I (g s)) {p : Prog σ ε α} (h : WriteOnly I p) :
    WriteOnly I (.get fun s => .put (g s) p) :=
  ⟨fun _ _ _ => h.same _ _ _, fun w hI => h.keeps _ (hg w.ram hI)⟩

theorem reads {p : Prog σ ε α} {g : Flash → α} (h : Reads p g) : WriteOnly I p := by
  refine ⟨fun f s t => ?_, fun w hI => ?_⟩
  · rw [h.run, h.run]
    exact ⟨rfl, rfl⟩
  · rwa [h.run]

/-- A sequence, whose second part needs to be considered for what the first can return. -/
theorem bind {p : Prog σ ε α} {k : α → Prog σ ε β} (hp : WriteOnly I p) (hk : ∀ a, Returns p a → WriteOnly I (k a)) :
    WriteOnly I (p >>= k) := by
  refine ⟨fun f s t => ?_, fun w hI => ?_⟩
  · obtain ⟨hres, hflash⟩ := hp.same f s t
    rw [run_bind, run_bind]
    rcases hs : p.run ⟨f, s⟩ with ⟨e | a, g, s'⟩ <;> rcases ht : p.run ⟨f, t⟩ with ⟨e' | a', g', t'⟩ <;>
      rw [hs, ht] at hres hflash
    · exact ⟨congrArg Except.error (Except.error.inj hres), hflash⟩
    · cases hres
    · cases hres
    · obtain rfl := Except.ok.inj hres
      obtain rfl : g = g' := hflash
      exact (hk a ⟨_, _, hs⟩).same g s' t'
  · have hmid := hp.keeps w hI
    rw [run_bind]
    rcases hw : p.run w with ⟨e | a, w'⟩ <;> rw [hw] at hmid
    · exact hmid
    · exact (hk a ⟨_, _, hw⟩).keeps w' hmid

theorem foldlM {body : β → ι → Prog σ ε β} (h : ∀ b i, WriteOnly I (body b i)) (l : List ι) (b : β) :
    WriteOnly I (l.foldlM body b) := by
  induction l generalizing b with
  | nil => exact pure b
  | cons i l ih =>
    rw [List.foldlM_cons]
    exact (h b i).bind fun b' _ => ih b'

end WriteOnly

end Esp8266Sdk.Nor.Prog
