import Esp8266Sdk.Wear.Invariant

/-! The data of the wear levelling as its user sees them. A page is found on the
place that the rotation gives it; moving the page behind the gap does not change
the data, and a request inside a page does to the data what it does to the flash. -/

namespace Esp8266Sdk.Wear

open Nor Prog Flash

variable {g : Geometry} {n ss : ℕ} {f f' : Flash} {deviceId : UInt32} {turn pos : ℕ} {a : UInt32}

/-- The data under a position and a turn. -/
def view (n turn pos : ℕ) (f : Flash) : Flash := fun x => f (place n pos turn (x / 4096) * 4096 + x % 4096)

/-- The same data. -/
def Same (n : ℕ) (c c' : Flash) : Prop := ∀ x < n * 4096, c x = c' x

theorem Same.trans {c c' c'' : Flash} (h : Same n c c') (h' : Same n c' c'') : Same n c c'' :=
  fun x hx => (h x hx).trans (h' x hx)

theorem Same.symm {c c' : Flash} (h : Same n c c') : Same n c' c := fun x hx => (h x hx).symm

theorem Same.erase {c c' : Flash} (h : Same n c c') (b m : ℕ) : Same n (c.erase b m) (c'.erase b m) := by
  intro x hx
  rw [erase_apply, erase_apply, h x hx]

theorem Same.program {c c' : Flash} (h : Same n c c') (b : ℕ) (bs : List UInt8) :
    Same n (c.program b bs) (c'.program b bs) := by
  intro x hx
  rw [program_apply, program_apply, h x hx]

/-! ### Addresses -/

theorem Fits.lt (hg : Fits g n ss) : n + 1 < 4096 := by
  have h1 := hg.full
  have h2 := hg.small
  omega

theorem live_pos (hg : Fits g n ss) (hp : pos ≤ n) : (live n deviceId turn pos a).pos.toNat = pos := by
  have h := hg.lt
  exact UInt32.toNat_ofNat_of_lt' (by simp only [UInt32.size]; omega)

theorem live_moveCount (hg : Fits g n ss) (ht : turn < n) : (live n deviceId turn pos a).moveCount.toNat = turn := by
  have h := hg.lt
  exact UInt32.toNat_ofNat_of_lt' (by simp only [UInt32.size]; omega)

theorem live_maxPos (hg : Fits g n ss) : (live n deviceId turn pos a).maxPos.toNat = n + 1 := by
  have h := hg.lt
  rw [Nat.add_comm n 1]
  exact UInt32.toNat_ofNat_of_lt' (by simp only [UInt32.size]; omega)

/-- `calcAddr` finds the place of the page. -/
theorem calcAddr_live (hg : Fits g n ss) (ht : turn < n) (hp : pos ≤ n) {x : ℕ} (hx : x < n * 4096) :
    calcAddr g (live n deviceId turn pos a) x = place n pos turn (x / 4096) * 4096 + x % 4096 := by
  have hlt := hg.lt
  have hr := Nat.mod_lt x (show 0 < 4096 by decide)
  have hq := Nat.mod_lt (n - turn + x / 4096) hg.pages
  have hsum : size32 (diff32 (n * 4096) (turn * 4096) + x) = (n - turn + x / 4096) * 4096 + x % 4096 := by
    have hle : turn * 4096 ≤ n * 4096 := by omega
    have hd : n * 4096 < 2 ^ 32 := by omega
    have hs : n * 4096 - turn * 4096 + x < 2 ^ 32 := by omega
    rw [diff32_eq hle hd, size32, Nat.mod_eq_of_lt hs]
    omega
  have hmod : ((n - turn + x / 4096) * 4096 + x % 4096) % (n * 4096) = (n - turn + x / 4096) % n * 4096 + x % 4096 := by
    have e : (n - turn + x / 4096) * 4096 + x % 4096 =
        n * 4096 * ((n - turn + x / 4096) / n) + ((n - turn + x / 4096) % n * 4096 + x % 4096) := by
      conv_lhs => rw [← Nat.div_add_mod (n - turn + x / 4096) n]
      ring
    rw [e, Nat.mul_add_mod, Nat.mod_eq_of_lt (by omega)]
  rw [calcAddr, live_pos hg hp, live_moveCount hg ht, hg.data, sectorSize, hsum, hmod, place]
  split_ifs <;> omega

/-! ### Steps on the pages -/

/-- The data lie in the pages. -/
theorem view_congr (hn : 0 < n) (e : ∀ x < (n + 1) * 4096, f' x = f x) :
    Same n (view n turn pos f') (view n turn pos f) := by
  intro x _
  have hp : place n pos turn (x / 4096) < n + 1 := place_lt hn
  exact e _ (by omega)

/-- The gap holds no data. -/
theorem view_gap (hn : 0 < n) (e : ∀ x < (n + 1) * 4096, x / 4096 ≠ pos → f' x = f x) :
    Same n (view n turn pos f') (view n turn pos f) := by
  intro x _
  have hp : place n pos turn (x / 4096) < n + 1 := place_lt hn
  have hg : place n pos turn (x / 4096) ≠ pos := place_ne_gap
  exact e _ (by omega) (by omega)

/-- Page `pos` while the first `m` bytes of page `src` are copied into it. -/
def copied (f : Flash) (pos src m : ℕ) : Flash := fun x =>
  if pos * 4096 ≤ x ∧ x < pos * 4096 + 4096 then
    if x < pos * 4096 + m then f (src * 4096 + (x - pos * 4096)) else 0xff
  else f x

theorem copied_zero (f : Flash) (pos src : ℕ) : f.erase (pos * 4096) 4096 = copied f pos src 0 := by
  funext x
  unfold copied
  rw [erase_apply]
  split_ifs with h h'
  · omega
  · rfl
  · rfl

theorem copied_other (f : Flash) {pos src m x : ℕ} (h : x / 4096 ≠ pos) : copied f pos src m x = f x := by
  rw [copied, if_neg (by omega)]

/-- One pass of the loop that copies a page. -/
theorem copied_step (f : Flash) {pos src m : ℕ} (hne : src ≠ pos) (hm : m + 32 ≤ 4096) :
    (copied f pos src m).program (pos * 4096 + m) ((copied f pos src m).read (src * 4096 + m) 32) =
      copied f pos src (m + 32) := by
  funext x
  rw [program_apply, length_read]
  by_cases hx : pos * 4096 + m ≤ x ∧ x < pos * 4096 + m + 32
  · obtain ⟨i, rfl⟩ := Nat.exists_eq_add_of_le hx.1
    have hi : i < 32 := by omega
    rw [if_pos hx, Nat.add_sub_cancel_left, getD_read, if_pos hi]
    clear hx
    have hold : copied f pos src m (pos * 4096 + m + i) = 0xff := by
      rw [copied, if_pos (by omega), if_neg (by omega)]
    have hsrc : copied f pos src m (src * 4096 + m + i) = f (src * 4096 + m + i) := copied_other f (by omega)
    have hnew : copied f pos src (m + 32) (pos * 4096 + m + i) = f (src * 4096 + m + i) := by
      rw [copied, if_pos (by omega), if_pos (by omega), Nat.add_assoc (pos * 4096), Nat.add_sub_cancel_left, Nat.add_assoc]
    rw [hold, hsrc, hnew, ff_and]
  · rw [if_neg hx]
    simp only [copied]
    split_ifs <;> first | rfl | omega

/-- The page behind the gap has been copied into it. -/
theorem view_copied (ht : turn < n) (hp : pos ≤ n) : Same n
    (view n (moved n pos turn).2 (moved n pos turn).1 (copied f pos (behind n pos) 4096)) (view n turn pos f) := by
  intro x _
  have hr := Nat.mod_lt x (show 0 < 4096 by decide)
  unfold view
  rw [place_moved ht hp]
  split_ifs with h
  · rw [h, copied, if_pos (by omega), if_pos (by omega), Nat.add_sub_cancel_left]
  · have hne : place n pos turn (x / 4096) ≠ pos := place_ne_gap
    exact copied_other f (by omega)

/-- Programming inside a page of the data. -/
theorem view_program {b : ℕ} {bs : List UInt8} (hb : b < n * 4096) (hl : b % 4096 + bs.length ≤ 4096) : Same n
    (view n turn pos (f.program (place n pos turn (b / 4096) * 4096 + b % 4096) bs)) ((view n turn pos f).program b bs) := by
  intro x hx
  have hr := Nat.mod_lt x (show 0 < 4096 by decide)
  have hrb := Nat.mod_lt b (show 0 < 4096 by decide)
  unfold view
  rw [program_apply, program_apply]
  by_cases hq : x / 4096 = b / 4096
  · rw [hq]
    by_cases hin : b ≤ x ∧ x < b + bs.length
    · rw [if_pos (by omega), if_pos hin]
      congr 2
      omega
    · rw [if_neg (by omega), if_neg hin]
  · -- another page stands on another place
    have hne : place n pos turn (x / 4096) ≠ place n pos turn (b / 4096) :=
      fun h => hq (place_inj (by omega) (by omega) h)
    rw [if_neg (by omega), if_neg (by omega)]

/-- Erasing a page of the data. -/
theorem view_erase {l : ℕ} (hl : l < n) : Same n
    (view n turn pos (f.erase (place n pos turn l * 4096) 4096)) ((view n turn pos f).erase (l * 4096) 4096) := by
  intro x hx
  have hr := Nat.mod_lt x (show 0 < 4096 by decide)
  unfold view
  rw [erase_apply, erase_apply]
  by_cases hq : x / 4096 = l
  · rw [hq, if_pos (by omega), if_pos (by omega)]
  · have hne : place n pos turn (x / 4096) ≠ place n pos turn l := fun h => hq (place_inj (by omega) hl h)
    rw [if_neg (by omega), if_neg (by omega)]

/-! ### Up and durable -/

/-- The flash holds the data `c`: whatever the RAM holds, mounting will find them. -/
def Durable (g : Geometry) (n ss : ℕ) (f c : Flash) : Prop :=
  ∃ deviceId turn pos, (Settled g n f deviceId turn pos ∨ pos = 0 ∧ Pending g n ss f deviceId turn) ∧
    Same n (view n turn pos f) c

/-- A mounted store with the data `c` at a position. -/
def Stands (g : Geometry) (n : ℕ) (w : WlWorld) (c : Flash) (deviceId : UInt32) (turn pos : ℕ) (accessCount : UInt32) : Prop :=
  w.ram = ⟨live n deviceId turn pos accessCount, true⟩ ∧ accessCount < updaterate ∧
    Settled g n w.flash deviceId turn pos ∧ Same n (view n turn pos w.flash) c

/-- A mounted store with the data `c`. -/
def Up (g : Geometry) (n : ℕ) (w : WlWorld) (c : Flash) : Prop :=
  ∃ deviceId turn pos accessCount, Stands g n w c deviceId turn pos accessCount

/-- The first copy of the state is erased. -/
def Broken (g : Geometry) (f : Flash) : Prop := f.read g.addrState1 stateBytes = blank stateBytes

theorem Up.durable {w : WlWorld} {c : Flash} (h : Up g n w c) : Durable g n ss w.flash c := by
  obtain ⟨deviceId, turn, pos, accessCount, -, -, hs, hc⟩ := h
  exact ⟨deviceId, turn, pos, .inl hs, hc⟩

/-- Every step leaves a flash that is broken or holds the data `c`. -/
def Keeps (g : Geometry) (n ss : ℕ) (c : Flash) (w : WlWorld) (op : Op) : Prop :=
  Broken g (op.apply w.flash) ∨ Durable g n ss (op.apply w.flash) c

end Esp8266Sdk.Wear
