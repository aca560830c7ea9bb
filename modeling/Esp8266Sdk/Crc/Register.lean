import Mathlib

/-! Cyclic redundancy checks as shift registers. A register of `n` bits takes a
message bit by bit, the least significant bit first: the bit is added to the low
end and the register moves down by one, adding the polynomial `p` where a one
falls out. When the top bit of `p` is set a move can be undone, so two different
windows of at most `n` bits between the same bits leave different registers. -/

namespace Esp8266Sdk.Crc

variable {n : ℕ} (p : BitVec n)

/-- One move of the register. -/
def shift (s : BitVec n) : BitVec n := if s.getLsbD 0 then s >>> 1 ^^^ p else s >>> 1

/-- A bit at the low end. -/
def lowBit (b : Bool) : BitVec n := (BitVec.ofBool b).setWidth n

def feedBit (s : BitVec n) (b : Bool) : BitVec n := shift p (s ^^^ lowBit b)

/-- The register after a message. -/
def feed (s : BitVec n) (bs : List Bool) : BitVec n := bs.foldl (feedBit p) s

@[simp] theorem feed_nil (s : BitVec n) : feed p s [] = s := rfl

@[simp] theorem feed_cons (s : BitVec n) (b : Bool) (bs : List Bool) : feed p s (b :: bs) = feed p (feedBit p s b) bs := rfl

theorem feed_append (s : BitVec n) (bs cs : List Bool) : feed p s (bs ++ cs) = feed p (feed p s bs) cs := List.foldl_append

/-- The first bits of a message as a number. -/
def word : List Bool → BitVec n
  | [] => 0
  | b :: bs => word bs <<< 1 ^^^ lowBit b

theorem getLsbD_lowBit (b : Bool) (i : ℕ) : (lowBit b : BitVec n).getLsbD i = (decide (i < n) && decide (i = 0) && b) := by
  rw [lowBit, BitVec.getLsbD_setWidth, BitVec.getLsbD_ofBool]
  rcases i with _ | i <;> simp

theorem getLsbD_word (bs : List Bool) (i : ℕ) : (word bs : BitVec n).getLsbD i = (decide (i < n) && bs.getD i false) := by
  induction bs generalizing i with
  | nil => simp [word]
  | cons b bs ih =>
    rw [word, BitVec.getLsbD_xor, BitVec.getLsbD_shiftLeft, getLsbD_lowBit]
    rcases i with _ | i
    · simp
    · by_cases hi : i + 1 < n
      · rw [Nat.add_sub_cancel, ih, List.getD_cons_succ]
        simp [hi, show i < n by omega]
      · simp [hi]

/-- Messages of the same length that fit the register are told apart by their numbers. -/
theorem word_injective {bs cs : List Bool} (hl : bs.length = cs.length) (hn : bs.length ≤ n)
    (h : (word bs : BitVec n) = word cs) : bs = cs := by
  apply List.ext_getElem hl
  intro i hi hi'
  have hb : (word bs : BitVec n).getLsbD i = (word cs : BitVec n).getLsbD i := by rw [h]
  rw [getLsbD_word, getLsbD_word, List.getD_eq_getElem _ _ hi, List.getD_eq_getElem _ _ hi'] at hb
  simpa [show i < n by omega] using hb

/-! ### Moves -/

theorem shift_xor (a b : BitVec n) : shift p (a ^^^ b) = shift p a ^^^ shift p b := by
  unfold shift
  rw [BitVec.getLsbD_xor, BitVec.ushiftRight_xor_distrib]
  cases a.getLsbD 0 <;> cases b.getLsbD 0
  · rfl
  · exact BitVec.xor_assoc _ _ _
  · simp only [Bool.xor_false, if_true, Bool.false_eq_true, if_false]
    rw [BitVec.xor_assoc, BitVec.xor_comm (b >>> 1), ← BitVec.xor_assoc]
  · simp only [Bool.xor_self, Bool.false_eq_true, if_false, if_true]
    rw [BitVec.xor_assoc, ← BitVec.xor_assoc p, BitVec.xor_comm p, BitVec.xor_assoc (b >>> 1), BitVec.xor_self,
      BitVec.xor_zero]

theorem shifts_xor (k : ℕ) (a b : BitVec n) : (shift p)^[k] (a ^^^ b) = (shift p)^[k] a ^^^ (shift p)^[k] b := by
  induction k generalizing a b with
  | zero => rfl
  | succ k ih => rw [Function.iterate_succ_apply, Function.iterate_succ_apply, Function.iterate_succ_apply, shift_xor, ih]

/-- A move up that loses no bit is undone by a move down. -/
theorem shift_double {y : BitVec n} (h : y.getLsbD (n - 1) = false) : shift p (y <<< 1) = y := by
  rw [shift, if_neg (by simp)]
  apply BitVec.eq_of_getLsbD_eq
  intro i hi
  rw [BitVec.getLsbD_ushiftRight, BitVec.getLsbD_shiftLeft]
  by_cases h1 : 1 + i < n
  · simp [h1]
  · obtain rfl : i = n - 1 := by omega
    simp [h, h1]

variable {p}

/-- A polynomial with its top bit set tells whether a one fell out. -/
theorem shift_injective (hp : p.msb = true) : Function.Injective (shift p) := by
  intro a b h
  have top (s : BitVec n) : (shift p s).getLsbD (n - 1) = s.getLsbD 0 := by
    have hn : 0 < n := by
      rcases Nat.eq_zero_or_pos n with rfl | hn
      · simp [BitVec.msb, BitVec.getMsbD] at hp
      · exact hn
    have ht : (s >>> 1).getLsbD (n - 1) = false := by
      rw [BitVec.getLsbD_ushiftRight]
      exact BitVec.getLsbD_of_ge _ _ (by omega)
    have hpt : p.getLsbD (n - 1) = true := by rwa [← BitVec.msb_eq_getLsbD_last]
    unfold shift
    split_ifs with hs
    · rw [BitVec.getLsbD_xor, ht, hpt, hs]
      rfl
    · rw [ht]
      simpa using hs
  have h0 : a.getLsbD 0 = b.getLsbD 0 := by rw [← top a, ← top b, h]
  have hs : a >>> 1 = b >>> 1 := by
    unfold shift at h
    rw [h0] at h
    split_ifs at h
    · exact (BitVec.xor_left_inj p).1 h
    · exact h
  apply BitVec.eq_of_getLsbD_eq
  intro i hi
  rcases i with _ | i
  · exact h0
  · have e : (a >>> 1).getLsbD i = (b >>> 1).getLsbD i := by rw [hs]
    rwa [BitVec.getLsbD_ushiftRight, BitVec.getLsbD_ushiftRight, Nat.add_comm] at e

/-- A message that fits the register is its number, moved down. -/
theorem feed_eq (s : BitVec n) {bs : List Bool} (h : bs.length ≤ n) : feed p s bs = (shift p)^[bs.length] (s ^^^ word bs) := by
  induction bs generalizing s with
  | nil => simp [word]
  | cons b bs ih =>
    have hlen : bs.length + 1 ≤ n := h
    have htop : (word bs : BitVec n).getLsbD (n - 1) = false := by
      rw [getLsbD_word, List.getD_eq_default _ _ (by omega)]
      simp
    rw [feed_cons, ih _ (by omega), List.length_cons, Function.iterate_succ_apply, feedBit]
    congr 1
    rw [word, BitVec.xor_comm (word bs <<< 1), ← BitVec.xor_assoc, shift_xor p _ (word bs <<< 1), shift_double p htop]

theorem feed_injective (hp : p.msb = true) (bs : List Bool) : Function.Injective fun s => feed p s bs := by
  induction bs with
  | nil => exact fun _ _ h => h
  | cons b bs ih =>
    intro s t h
    have h := shift_injective hp (ih h)
    exact (BitVec.xor_left_inj (lowBit b)).1 h

/-- Every burst of at most `n` bits changes the register. -/
theorem feed_burst (hp : p.msb = true) (s : BitVec n) {u v v' w : List Bool} (hl : v.length = v'.length) (hn : v.length ≤ n)
    (hne : v ≠ v') : feed p s (u ++ v ++ w) ≠ feed p s (u ++ v' ++ w) := by
  intro h
  rw [feed_append, feed_append, feed_append p s (u ++ v'), feed_append] at h
  have h := feed_injective hp w h
  rw [feed_eq (feed p s u) hn, feed_eq (feed p s u) (hl.symm.trans_le hn), ← hl] at h
  have h := (shift_injective hp).iterate v.length h
  exact hne (word_injective hl hn ((BitVec.xor_right_inj (feed p s u)).1 h))

/-! ### Bytes and tables -/

/-- The bits of a number, the least significant first. -/
def bits {m : ℕ} (x : BitVec m) : List Bool := (List.range m).map x.getLsbD

@[simp] theorem length_bits {m : ℕ} (x : BitVec m) : (bits x).length = m := by simp [bits]

theorem word_bits {m : ℕ} (x : BitVec m) : (word (bits x) : BitVec n) = x.setWidth n := by
  apply BitVec.eq_of_getLsbD_eq
  intro i hi
  rw [getLsbD_word, BitVec.getLsbD_setWidth, bits]
  by_cases him : i < m
  · rw [List.getD_eq_getElem _ _ (by simpa using him), List.getElem_map, List.getElem_range]
  · rw [List.getD_eq_default _ _ (by simpa using him), BitVec.getLsbD_of_ge _ _ (by omega)]

/-- The bits of a buffer. -/
def message (buf : List UInt8) : List Bool := buf.flatMap fun b => bits b.toBitVec

/-- Eight moves of every byte. -/
def IsTable (p : BitVec n) (t : ℕ → BitVec n) : Prop := ∀ i < 256, t i = (shift p)^[8] (BitVec.ofNat n i)

instance (p : BitVec n) (t : ℕ → BitVec n) : Decidable (IsTable p t) := Nat.decidableBallLT _ _

/-- Zeros fall out without a trace. -/
theorem shifts_zeros {k : ℕ} {s : BitVec n} (h : ∀ i < k, s.getLsbD i = false) : (shift p)^[k] s = s >>> k := by
  induction k generalizing s with
  | zero => simp
  | succ k ih =>
    have h0 : shift p s = s >>> 1 := by rw [shift, if_neg (by simp [h 0 (by omega)])]
    have h1 (i : ℕ) (hi : i < k) : (s >>> 1).getLsbD i = false := by
      rw [BitVec.getLsbD_ushiftRight]
      exact h _ (by omega)
    rw [Function.iterate_succ_apply, h0, ih h1, ← BitVec.shiftRight_add, Nat.add_comm]

/-- The bits of a register that stay after eight moves, and the byte that falls out. -/
theorem shifts_eight (s : BitVec n) : (shift p)^[8] s = (shift p)^[8] (BitVec.ofNat n (s.toNat % 256)) ^^^ s >>> 8 := by
  have low (i : ℕ) : (BitVec.ofNat n (s.toNat % 256)).getLsbD i = (decide (i < 8) && s.getLsbD i) := by
    rw [BitVec.getLsbD_ofNat, show 256 = 2 ^ 8 from rfl, Nat.testBit_mod_two_pow]
    by_cases hi : i < n
    · simp [hi, BitVec.getLsbD]
    · simp [hi, BitVec.getLsbD_of_ge s i (by omega)]
  have split : s = BitVec.ofNat n (s.toNat % 256) ^^^ (s >>> 8) <<< 8 := by
    apply BitVec.eq_of_getLsbD_eq
    intro i hi
    rw [BitVec.getLsbD_xor, low, BitVec.getLsbD_shiftLeft, BitVec.getLsbD_ushiftRight]
    by_cases h8 : i < 8
    · simp [h8]
    · simp [h8, hi, show 8 + (i - 8) = i by omega]
  have up : (shift p)^[8] ((s >>> 8) <<< 8) = s >>> 8 := by
    rw [shifts_zeros fun i hi => by simp [hi]]
    apply BitVec.eq_of_getLsbD_eq
    intro i hi
    rw [BitVec.getLsbD_ushiftRight, BitVec.getLsbD_shiftLeft, BitVec.getLsbD_ushiftRight]
    by_cases h8 : 8 + i < n
    · simp [h8]
    · simp [h8, BitVec.getLsbD_of_ge s (8 + i) (by omega)]
  calc (shift p)^[8] s = (shift p)^[8] (BitVec.ofNat n (s.toNat % 256) ^^^ (s >>> 8) <<< 8) := by rw [← split]
    _ = (shift p)^[8] (BitVec.ofNat n (s.toNat % 256)) ^^^ s >>> 8 := by rw [shifts_xor, up]

/-- One lookup feeds a byte. -/
theorem feed_byte {t : ℕ → BitVec n} (ht : IsTable p t) (hn : 8 ≤ n) (s : BitVec n) (b : UInt8) :
    feed p s (bits b.toBitVec) = t ((s ^^^ b.toBitVec.setWidth n).toNat % 256) ^^^ s >>> 8 := by
  have hb : (b.toBitVec.setWidth n) >>> 8 = 0#n := by
    apply BitVec.eq_of_getLsbD_eq
    intro i hi
    rw [BitVec.getLsbD_ushiftRight, BitVec.getLsbD_setWidth, BitVec.getLsbD_of_ge b.toBitVec _ (by omega)]
    simp
  rw [feed_eq s (by simpa using hn), length_bits, word_bits, shifts_eight, ht _ (Nat.mod_lt _ (by decide)),
    BitVec.ushiftRight_xor_distrib, hb, BitVec.xor_zero]

theorem feed_message {t : ℕ → BitVec n} (ht : IsTable p t) (hn : 8 ≤ n) (s : BitVec n) (buf : List UInt8) :
    feed p s (message buf) = buf.foldl (fun (s : BitVec n) (b : UInt8) => t ((s ^^^ b.toBitVec.setWidth n).toNat % 256) ^^^ s >>> 8) s := by
  induction buf generalizing s with
  | nil => rfl
  | cons b buf ih => rw [message, List.flatMap_cons, feed_append, feed_byte ht hn, List.foldl_cons, ← ih]; rfl

end Esp8266Sdk.Crc
