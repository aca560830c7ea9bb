import Mathlib.Data.Fintype.Card
import Mathlib.Data.List.Lex
import Mathlib.Algebra.Order.BigOperators.Group.Finset
import Mathlib.Algebra.Order.Ring.GeomSum

/-! Contenders that give way to greater ones. Each holds one name after the other and
moves on only from a name that a greater contender has held. The number of its moves is
bounded by its rank alone, whatever the order in which the contenders move. -/

namespace Esp8266Sdk.Lts

variable {ι β γ : Type*} [Fintype ι] [LinearOrder β] (addr : ι → β)

/-- The contenders that are greater than `a`, and how many there are. -/
def above (a : ι) : Finset ι := Finset.univ.filter fun b => addr a < addr b

def rank (a : ι) : ℕ := (above addr a).card

variable {addr} {a b : ι}

theorem mem_above : b ∈ above addr a ↔ addr a < addr b := by simp [above]

theorem rank_lt (h : addr a < addr b) : rank addr b < rank addr a := by
  apply Finset.card_lt_card
  refine (Finset.ssubset_iff_of_subset fun c hc => ?_).2 ⟨b, mem_above.2 h, fun hb => lt_irrefl _ (mem_above.1 hb)⟩
  exact mem_above.2 (h.trans (mem_above.1 hc))

theorem sum_above_lt (hi : Function.Injective addr) (a : ι) : ∑ b ∈ above addr a, 2 ^ rank addr b < 2 ^ rank addr a := by
  have hinj : Set.InjOn (rank addr) (above addr a) := by
    intro b _ c _ h
    by_contra hne
    rcases lt_or_gt_of_ne (hi.ne hne) with hlt | hlt
    · exact absurd h (rank_lt hlt).ne'
    · exact absurd h (rank_lt hlt).ne
  rw [← Finset.sum_image (f := fun k => 2 ^ k) hinj]
  apply Nat.geomSum_lt (le_refl 2)
  intro k hk
  obtain ⟨b, hb, rfl⟩ := Finset.mem_image.1 hk
  exact rank_lt (mem_above.1 hb)

/-- Of the names `name a 0`, `name a 1`, ... the contender `a` has left the first `c a`,
each to a greater one. Then it has left less than `2 ^ rank a`. -/
theorem moves_lt (hi : Function.Injective addr) (c : ι → ℕ) (name : ι → ℕ → γ)
    (hname : ∀ a i j, i < j → j < 2 ^ rank addr a → name a i ≠ name a j)
    (hcause : ∀ a i, i < c a → ∃ b, addr a < addr b ∧ ∃ j ≤ c b, name b j = name a i) (a : ι) : c a < 2 ^ rank addr a := by
  induction hr : rank addr a using Nat.strong_induction_on generalizing a with
  | _ r ih =>
    subst hr
    by_contra hge
    -- the names left are held by greater contenders, at different times
    have hex (i : Fin (2 ^ rank addr a)) : ∃ x : (_ : ι) × ℕ,
        x ∈ (above addr a).sigma (fun b => Finset.range (c b + 1)) ∧ name x.1 x.2 = name a i := by
      obtain ⟨b, hb, j, hj, he⟩ := hcause a i (i.2.trans_le (Nat.not_lt.1 hge))
      exact ⟨⟨b, j⟩, Finset.mem_sigma.2 ⟨mem_above.2 hb, Finset.mem_range.2 (Nat.lt_succ_of_le hj)⟩, he⟩
    choose f hf hfn using hex
    have hinj : Function.Injective f := by
      intro i j h
      have hn : name a i = name a j := by rw [← hfn i, ← hfn j, h]
      rcases lt_trichotomy i j with hlt | he | hgt
      · exact absurd hn (hname a i j hlt j.2)
      · exact he
      · exact absurd hn.symm (hname a j i hgt i.2)
    have hcard := Finset.card_le_card_of_injOn f (s := Finset.univ) (fun i _ => hf i) hinj.injOn
    rw [Finset.card_univ, Fintype.card_fin, Finset.card_sigma] at hcard
    have hsum : ∑ b ∈ above addr a, (Finset.range (c b + 1)).card ≤ ∑ b ∈ above addr a, 2 ^ rank addr b := by
      apply Finset.sum_le_sum
      intro b hb
      rw [Finset.card_range]
      exact ih _ (rank_lt (mem_above.1 hb)) b rfl
    exact absurd (hcard.trans hsum) (Nat.not_le.2 (sum_above_lt hi a))

end Esp8266Sdk.Lts
