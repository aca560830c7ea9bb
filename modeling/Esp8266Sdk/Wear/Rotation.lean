import Mathlib

/-! A gap that travels through places. `n` things stand on `n + 1` places, in the
order of a rotation, around one place that is left free. A move brings the thing
behind the gap into it; when the gap has gone once through all places, the
rotation has turned by one and the gap is at the start again. In `n (n + 1)`
moves every thing stands on every place equally often. -/

namespace Esp8266Sdk.Wear

/-- The place of thing `l`, with the gap at `gap` and the rotation turned `turn` times. -/
def place (n gap turn l : ℕ) : ℕ :=
  let r := (n - turn + l) % n
  if r < gap then r else r + 1

/-- The place whose thing moves next. -/
def behind (n gap : ℕ) : ℕ := if gap + 1 ≥ n + 1 then 0 else gap + 1

/-- The gap and the rotation after a move. -/
def moved (n gap turn : ℕ) : ℕ × ℕ :=
  if gap + 1 ≥ n + 1 then (0, if turn + 1 ≥ n then 0 else turn + 1) else (gap + 1, turn)

variable {n gap turn l : ℕ}

theorem place_lt (hn : 0 < n) : place n gap turn l < n + 1 := by
  have hr := Nat.mod_lt (n - turn + l) hn
  unfold place
  simp only
  split_ifs <;> omega

theorem place_ne_gap : place n gap turn l ≠ gap := by
  unfold place
  simp only
  split_ifs <;> omega

/-- Turning keeps things apart. -/
theorem turned_inj {l' : ℕ} (hl : l < n) (hl' : l' < n) (h : (n - turn + l) % n = (n - turn + l') % n) :
    l = l' := by
  have hm : l ≡ l' [MOD n] := Nat.ModEq.add_left_cancel' (n - turn) h
  rwa [Nat.ModEq, Nat.mod_eq_of_lt hl, Nat.mod_eq_of_lt hl'] at hm

theorem place_inj {l' : ℕ} (hl : l < n) (hl' : l' < n) (h : place n gap turn l = place n gap turn l') :
    l = l' := by
  have hr : (n - turn + l) % n = (n - turn + l') % n := by
    unfold place at h
    simp only at h
    split_ifs at h <;> omega
  exact turned_inj hl hl' hr

/-- A move brings one thing into the gap and leaves the others where they are. -/
theorem place_moved (ht : turn < n) (hg : gap ≤ n) : place n (moved n gap turn).1 (moved n gap turn).2 l =
    if place n gap turn l = behind n gap then gap else place n gap turn l := by
  have hn : 0 < n := by omega
  have hr := Nat.mod_lt (n - turn + l) hn
  unfold moved behind
  by_cases h : gap + 1 ≥ n + 1
  · -- the gap goes back to the start, and the rotation turns
    obtain rfl : gap = n := by omega
    have hturn : (gap - (if turn + 1 ≥ gap then 0 else turn + 1) + l) % gap =
        if (gap - turn + l) % gap = 0 then gap - 1 else (gap - turn + l) % gap - 1 := by
      have hstep : (gap - (if turn + 1 ≥ gap then 0 else turn + 1) + l + 1) % gap = (gap - turn + l) % gap := by
        split_ifs with h1
        · rw [show gap - 0 + l + 1 = (gap - turn + l) + gap by omega, Nat.add_mod_right]
        · congr 1
          omega
      have hs := Nat.mod_lt (gap - (if turn + 1 ≥ gap then 0 else turn + 1) + l) hn
      rw [← hstep, ← Nat.mod_add_mod (gap - (if turn + 1 ≥ gap then 0 else turn + 1) + l)]
      generalize (gap - (if turn + 1 ≥ gap then 0 else turn + 1) + l) % gap = s at hs ⊢
      rcases Nat.lt_or_ge (s + 1) gap with hlt | hge
      · rw [Nat.mod_eq_of_lt hlt, if_neg (Nat.succ_ne_zero s), Nat.add_sub_cancel]
      · rw [show s + 1 = gap by omega, Nat.mod_self, if_pos rfl]
        omega
    rw [if_pos h, if_pos h]
    simp only [place, hturn, Nat.not_lt_zero, if_false]
    split_ifs <;> omega
  · rw [if_neg h, if_neg h]
    simp only [place]
    split_ifs <;> omega

/-! ### Levelling -/

/-- The gap and the rotation after `k` moves. -/
def after (n : ℕ) : ℕ → ℕ × ℕ
  | 0 => (0, 0)
  | k + 1 => moved n (after n k).1 (after n k).2

theorem after_eq (hn : 0 < n) (k : ℕ) : after n k = (k % (n + 1), k / (n + 1) % n) := by
  induction k with
  | zero => simp [after]
  | succ k ih =>
    have hk := Nat.mod_lt k (show 0 < n + 1 by omega)
    have ht := Nat.mod_lt (k / (n + 1)) hn
    rw [after, ih, moved]
    simp only
    by_cases h : k % (n + 1) + 1 ≥ n + 1
    · have hmod : (k + 1) % (n + 1) = 0 := by
        rw [Nat.add_mod, Nat.mod_eq_of_lt (show 1 < n + 1 by omega), show k % (n + 1) + 1 = n + 1 by omega, Nat.mod_self]
      have hdiv : (k + 1) / (n + 1) = k / (n + 1) + 1 := Nat.succ_div_of_mod_eq_zero hmod
      rw [if_pos h, hmod, hdiv]
      congr 1
      split_ifs with h1
      · rw [Nat.add_mod, show k / (n + 1) % n = n - 1 by omega]
        rcases Nat.lt_or_ge 1 n with h2 | h2
        · rw [Nat.mod_eq_of_lt h2, Nat.sub_add_cancel hn, Nat.mod_self]
        · obtain rfl : n = 1 := by omega
          rfl
      · rw [Nat.add_mod, Nat.mod_eq_of_lt (show 1 < n by omega), Nat.mod_eq_of_lt (by omega : k / (n + 1) % n + 1 < n)]
    · have hmod : (k + 1) % (n + 1) = k % (n + 1) + 1 := by
        rw [Nat.add_mod, Nat.mod_eq_of_lt (show 1 < n + 1 by omega), Nat.mod_eq_of_lt (by omega)]
      have hdiv : (k + 1) / (n + 1) = k / (n + 1) := by
        rw [Nat.succ_div, if_neg (fun hd => by rw [Nat.mod_eq_zero_of_dvd hd] at hmod; omega), Nat.add_zero]
      rw [if_neg h, hmod, hdiv]

theorem after_round (hn : 0 < n) : after n (n * (n + 1)) = after n 0 := by
  rw [after_eq hn, after_eq hn, Nat.mul_mod_left, Nat.mul_div_cancel _ (Nat.succ_pos n), Nat.mod_self, Nat.zero_mod, Nat.zero_div,
    Nat.zero_mod]

/-- At each place of the gap but `p`, one rotation brings thing `l` to place `p`. -/
theorem exists_turn (hl : l < n) (hg : gap ≤ n) {p : ℕ} (hp : p ≤ n) (hne : p ≠ gap) : ∃ t < n, place n gap t l = p := by
  have key (r : ℕ) (hr : r < n) : ∃ t < n, (n - t + l) % n = r := by
    rcases Nat.lt_or_ge l r with h | h
    · refine ⟨n + l - r, by omega, ?_⟩
      rw [show n - (n + l - r) + l = r by omega, Nat.mod_eq_of_lt hr]
    · refine ⟨l - r, by omega, ?_⟩
      rw [show n - (l - r) + l = r + n by omega, Nat.add_mod_right, Nat.mod_eq_of_lt hr]
  rcases Nat.lt_or_gt_of_ne hne with h | h
  · obtain ⟨t, ht, hr⟩ := key p (by omega)
    refine ⟨t, ht, ?_⟩
    rw [place, hr, if_pos h]
  · obtain ⟨t, ht, hr⟩ := key (p - 1) (by omega)
    refine ⟨t, ht, ?_⟩
    rw [place, hr, if_neg (by omega)]
    omega

theorem turn_inj {t t' : ℕ} (ht : t < n) (ht' : t' < n) (h : place n gap t l = place n gap t' l) : t = t' := by
  have hr : (n - t + l) % n = (n - t' + l) % n := by
    unfold place at h
    simp only at h
    split_ifs at h <;> omega
  have hm : n - t ≡ n - t' [MOD n] := Nat.ModEq.add_right_cancel' l hr
  have hs : n - t + (t + t') ≡ n - t' + (t + t') [MOD n] := hm.add_right _
  rw [show n - t + (t + t') = t' + n by omega, show n - t' + (t + t') = t + n by omega] at hs
  have hs : (t' + n) % n = (t + n) % n := hs
  rw [Nat.add_mod_right, Nat.add_mod_right, Nat.mod_eq_of_lt ht, Nat.mod_eq_of_lt ht'] at hs
  exact hs.symm

/-- In one round of moves, each thing stands on each place equally often. -/
theorem place_level (hl : l < n) {p : ℕ} (hp : p ≤ n) :
    ((Finset.range (n * (n + 1))).filter fun k => place n (after n k).1 (after n k).2 l = p).card = n := by
  have hn : 0 < n := by omega
  have hcard : ((Finset.range (n + 1)).erase p).card = n := by
    rw [Finset.card_erase_of_mem (Finset.mem_range.2 (by omega)), Finset.card_range, Nat.add_sub_cancel]
  have hturn {k : ℕ} (hk : k < n * (n + 1)) : k / (n + 1) < n := Nat.div_lt_of_lt_mul (by rwa [Nat.mul_comm])
  refine Eq.trans ?_ hcard
  refine Finset.card_bij (fun k _ => k % (n + 1)) ?_ ?_ ?_
  · intro k hk
    obtain ⟨-, hp⟩ := Finset.mem_filter.1 hk
    rw [after_eq hn] at hp
    exact Finset.mem_erase.2 ⟨fun h => place_ne_gap (hp.trans h.symm), Finset.mem_range.2 (Nat.mod_lt _ (by omega))⟩
  · intro k hk k' hk' h
    obtain ⟨hk, hpk⟩ := Finset.mem_filter.1 hk
    obtain ⟨hk', hpk'⟩ := Finset.mem_filter.1 hk'
    have hk := hturn (Finset.mem_range.1 hk)
    have hk' := hturn (Finset.mem_range.1 hk')
    rw [after_eq hn, Nat.mod_eq_of_lt hk] at hpk
    rw [after_eq hn, Nat.mod_eq_of_lt hk', ← h] at hpk'
    have hd := turn_inj hk hk' (hpk.trans hpk'.symm)
    rw [← Nat.div_add_mod k (n + 1), ← Nat.div_add_mod k' (n + 1), hd, h]
  · intro gap hgap
    obtain ⟨hne, hgap⟩ := Finset.mem_erase.1 hgap
    have hgap := Finset.mem_range.1 hgap
    obtain ⟨t, ht, hpl⟩ := exists_turn hl (Nat.le_of_lt_succ hgap) hp hne.symm
    have hmod : (t * (n + 1) + gap) % (n + 1) = gap := by
      rw [Nat.add_comm, Nat.add_mul_mod_self_right, Nat.mod_eq_of_lt hgap]
    have hdiv : (t * (n + 1) + gap) / (n + 1) = t := by
      rw [Nat.add_comm, Nat.add_mul_div_right _ _ (Nat.succ_pos n), Nat.div_eq_of_lt hgap, Nat.zero_add]
    refine ⟨t * (n + 1) + gap, Finset.mem_filter.2 ⟨Finset.mem_range.2 ?_, ?_⟩, hmod⟩
    · calc t * (n + 1) + gap < t * (n + 1) + (n + 1) := by omega
        _ = (t + 1) * (n + 1) := (Nat.succ_mul _ _).symm
        _ ≤ n * (n + 1) := Nat.mul_le_mul_right _ ht
    · rw [after_eq hn, hmod, hdiv, Nat.mod_eq_of_lt ht]
      exact hpl

/-- In one round, the gap is on each place equally often. -/
theorem gap_level (hn : 0 < n) {p : ℕ} (hp : p ≤ n) :
    (∑ k ∈ Finset.range (n * (n + 1)), if (after n k).1 = p then 1 else 0) = n := by
  have hrounds (m : ℕ) : (∑ k ∈ Finset.range (m * (n + 1)), if k % (n + 1) = p then 1 else 0) = m := by
    induction m with
    | zero => rw [Nat.zero_mul, Finset.sum_range_zero]
    | succ m ih =>
      have hturn : (∑ x ∈ Finset.range (n + 1), if (m * (n + 1) + x) % (n + 1) = p then 1 else 0) = 1 := by
        rw [Finset.sum_eq_single_of_mem p (Finset.mem_range.2 (by omega))]
        · rw [Nat.mul_add_mod_self_right, Nat.mod_eq_of_lt (by omega), if_pos rfl]
        · intro x hx hne
          have hx := Finset.mem_range.1 hx
          rw [Nat.mul_add_mod_self_right, Nat.mod_eq_of_lt hx, if_neg hne]
      rw [Nat.succ_mul, Finset.sum_range_add, ih, hturn]
  simp only [after_eq hn]
  exact hrounds n

/-! ### Sums over blocks of steps -/

theorem sum_blocks {m : ℕ} (hm : 0 < m) (F : ℕ → ℕ) (N : ℕ) :
    ∑ i ∈ Finset.range (N * m), F (i / m) = m * ∑ j ∈ Finset.range N, F j := by
  induction N with
  | zero => rw [Nat.zero_mul, Finset.sum_range_zero, Finset.sum_range_zero, Nat.mul_zero]
  | succ N ih =>
    have hblock : ∑ x ∈ Finset.range m, F ((N * m + x) / m) = m * F N := by
      rw [Finset.sum_congr rfl fun x hx => ?_, Finset.sum_const, Finset.card_range, smul_eq_mul]
      rw [Nat.mul_comm, Nat.mul_add_div hm, Nat.div_eq_of_lt (Finset.mem_range.1 hx), Nat.add_zero]
    rw [Nat.succ_mul, Finset.sum_range_add, ih, hblock, Finset.sum_range_succ, Nat.mul_add]

/-- What happens at the last step of each block. -/
theorem sum_block_ends {m : ℕ} (hm : 0 < m) (F : ℕ → ℕ) (N : ℕ) :
    (∑ i ∈ Finset.range (N * m), if m ∣ i + 1 then F (i / m) else 0) = ∑ j ∈ Finset.range N, F j := by
  induction N with
  | zero => rw [Nat.zero_mul, Finset.sum_range_zero, Finset.sum_range_zero]
  | succ N ih =>
    have hblock : (∑ x ∈ Finset.range m, if m ∣ N * m + x + 1 then F ((N * m + x) / m) else 0) = F N := by
      have hdvd (x : ℕ) : m ∣ N * m + x + 1 ↔ m ∣ x + 1 := by
        rw [Nat.add_assoc]
        exact (Nat.dvd_add_right (Dvd.intro_left N rfl))
      rw [Finset.sum_eq_single_of_mem (m - 1) (Finset.mem_range.2 (by omega))]
      · rw [if_pos ((hdvd _).2 (by rw [Nat.sub_add_cancel hm])), Nat.mul_comm, Nat.mul_add_div hm, Nat.div_eq_of_lt (by omega),
          Nat.add_zero]
      · intro x hx hne
        have hx := Finset.mem_range.1 hx
        rw [if_neg]
        intro h
        have hle := Nat.le_of_dvd (Nat.succ_pos x) ((hdvd x).1 h)
        omega
    rw [Nat.succ_mul, Finset.sum_range_add, ih, hblock, Finset.sum_range_succ]

end Esp8266Sdk.Wear
