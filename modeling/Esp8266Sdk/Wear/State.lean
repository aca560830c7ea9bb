import Esp8266Sdk.Crc.Words
import Esp8266Sdk.Nor.Areas
import Esp8266Sdk.Wear.Model

/-! What the wear levelling stores: the two copies of its state and the position
records. The CRC tells the stored states apart: an erased copy has none, two
states with different move counts have different ones, and an erased record is
never taken for a written one. -/

namespace Esp8266Sdk.Wear

open Nor Prog Flash Crc
open Nvs (le32 word32 crc32_le length_le32 word32_le32)

/-! ### Words of a buffer -/

theorem length_words (ws : List UInt32) : (ws.flatMap le32).length = 4 * ws.length := by
  induction ws with
  | nil => rfl
  | cons w ws ih =>
    rw [List.flatMap_cons, List.length_append, length_le32, ih, List.length_cons]
    omega

theorem word32_append_left {bs cs : List UInt8} {i : ℕ} (h : i + 4 ≤ bs.length) : word32 (bs ++ cs) i = word32 bs i := by
  unfold word32
  rw [List.getD_append _ _ _ _ (by omega), List.getD_append _ _ _ _ (by omega), List.getD_append _ _ _ _ (by omega),
    List.getD_append _ _ _ _ (by omega)]

theorem word32_append_right {bs cs : List UInt8} (i : ℕ) : word32 (bs ++ cs) (bs.length + i) = word32 cs i := by
  unfold word32
  simp only [Nat.add_assoc]
  rw [List.getD_append_right _ _ _ _ (by omega), List.getD_append_right _ _ _ _ (by omega),
    List.getD_append_right _ _ _ _ (by omega), List.getD_append_right _ _ _ _ (by omega)]
  simp only [Nat.add_sub_cancel_left]

/-- Word `i` of a list of words. -/
theorem word32_words (ws : List UInt32) {i : ℕ} (h : i < ws.length) : word32 (ws.flatMap le32) (4 * i) = ws.getD i 0 := by
  induction ws generalizing i with
  | nil => exact absurd h (Nat.not_lt_zero i)
  | cons w ws ih =>
    rw [List.flatMap_cons]
    rcases i with _ | i
    · rw [Nat.mul_zero, word32_append_left (by simp), word32_le32]
      rfl
    · have e : 4 * (i + 1) = (le32 w).length + 4 * i := by
        rw [length_le32]
        omega
      rw [e, word32_append_right, ih (Nat.lt_of_succ_lt_succ h), List.getD_cons_succ]

/-! ### States -/

namespace WlState

@[simp] theorem length_encode (s : WlState) : s.encode.length = stateBytes := by
  rw [encode, length_words]
  simp [words, stateBytes]

/-- The words before the CRC. -/
theorem words_eq (s : WlState) : s.words = ({ s with crc := 0 } : WlState).words.take 15 ++ [s.crc] := by
  have hl : ([s.pos, s.maxPos, s.moveCount, s.accessCount, s.maxCount, s.blockSize, s.version, s.deviceId] ++
      s.reserved.toList).length = 15 := by simp
  rw [words, words, List.take_left' hl]

/-- A word of the reserved space. -/
theorem getD_reserved (s : WlState) {i : ℕ} (h : i < 7) : s.words.getD (8 + i) 0 = s.reserved[i] := by
  have h8 : [s.pos, s.maxPos, s.moveCount, s.accessCount, s.maxCount, s.blockSize, s.version, s.deviceId].length = 8 := rfl
  rw [words, List.append_assoc, List.getD_append_right _ _ _ _ (by omega), h8, Nat.add_sub_cancel_left,
    List.getD_append _ _ _ _ (by simpa using h), List.getD_eq_getElem _ _ (by simpa using h), Vector.getElem_toList]

theorem getD_crc (s : WlState) : s.words.getD 15 0 = s.crc := by
  have hl : ([s.pos, s.maxPos, s.moveCount, s.accessCount, s.maxCount, s.blockSize, s.version, s.deviceId] ++
      s.reserved.toList).length = 15 := by simp
  rw [words, List.getD_append_right _ _ _ _ hl.le, hl]
  rfl

theorem decode_encode (s : WlState) : decode s.encode = s := by
  have hl : s.words.length = 16 := by simp [words]
  have hw (i : ℕ) (h : i < 16) : word32 s.encode (4 * i) = s.words.getD i 0 := word32_words _ (hl ▸ h)
  have hr : (decode s.encode).reserved = s.reserved := by
    apply Vector.ext
    intro i hi
    rw [decode, Vector.getElem_ofFn]
    simp only
    rw [show 32 + 4 * i = 4 * (8 + i) by omega, hw _ (by omega), getD_reserved s hi]
  exact WlState.ext (hw 0 (by omega)) (hw 1 (by omega)) (hw 2 (by omega)) (hw 3 (by omega)) (hw 4 (by omega))
    (hw 5 (by omega)) (hw 6 (by omega)) (hw 7 (by omega)) hr ((hw 15 (by omega)).trans s.getD_crc)

/-- The bytes under the CRC. -/
theorem take_encode (s : WlState) (crc : UInt32) :
    ({ s with crc } : WlState).encode.take crcLenV2 = s.encode.take crcLenV2 := by
  have ht (s : WlState) : s.encode.take crcLenV2 = (({ s with crc := 0 } : WlState).words.take 15).flatMap le32 := by
    have hl : ((({ s with crc := 0 } : WlState).words.take 15).flatMap le32).length = crcLenV2 := by
      rw [length_words, List.length_take]
      simp [words, crcLenV2]
    rw [encode, words_eq, List.flatMap_append, List.take_left' hl]
  rw [ht, ht]

theorem crcOf_sealed (s : WlState) : s.sealed.crcOf crcLenV2 = s.sealed.crc := by
  rw [crcOf, sealed, take_encode]
  rfl

end WlState

/-- An erased copy has no CRC. -/
theorem crcOf_blank : (WlState.decode (blank stateBytes)).crcOf WlState.crcLenV2 ≠ (WlState.decode (blank stateBytes)).crc := by
  decide +kernel

/-- The state that a copy holds when the rotation of `n` pages has turned `turn` times. -/
def stored (n : ℕ) (deviceId : UInt32) (turn : ℕ) : WlState :=
  WlState.sealed ⟨0, .ofNat (1 + n), .ofNat turn, 0, updaterate, .ofNat sectorSize, currentVersion, deviceId, .replicate 7 0, 0⟩

/-- The CRC tells the turns apart. -/
theorem crc_stored_ne {n : ℕ} {deviceId : UInt32} {turn turn' : ℕ} (h : (.ofNat turn : UInt32) ≠ .ofNat turn') :
    (stored n deviceId turn).crc ≠ (stored n deviceId turn').crc := by
  have hb (turn : ℕ) : (stored n deviceId turn).crc = crc32_le 0xffffffff
      ([0, .ofNat (1 + n)].flatMap le32 ++ le32 (.ofNat turn) ++
        ([0, updaterate, .ofNat sectorSize, currentVersion, deviceId] ++ List.replicate 7 0).flatMap le32) := rfl
  rw [hb, hb]
  exact crc32_word_ne _ _ _ h

/-! ### Records -/

@[simp] theorem length_okBuff (deviceId : UInt32) (n : ℕ) : (okBuff deviceId n).length = wrSize := rfl

theorem okBuffSet_okBuff (deviceId : UInt32) (n : ℕ) : okBuffSet deviceId n (okBuff deviceId n) = true := by
  rw [okBuffSet, List.all_eq_true]
  intro i hi
  have hi : i < 4 := List.mem_range.1 hi
  have hw : okBuff deviceId n = ((List.range 4).map (okWord deviceId n)).flatMap le32 := by
    rw [List.flatMap_map]
    rfl
  have e : word32 (okBuff deviceId n) (4 * i) = okWord deviceId n i := by
    rw [hw, word32_words _ (by simpa using hi), List.getD_eq_getElem _ _ (by simpa using hi), List.getElem_map,
      List.getElem_range]
  rw [e, beq_self_eq_true]

/-- An erased record is not set: its words are equal, and the CRCs of different words are not. -/
theorem okBuffSet_blank (deviceId : UInt32) (n : ℕ) : okBuffSet deviceId n (blank wrSize) = false := by
  rw [Bool.eq_false_iff]
  intro h
  rw [okBuffSet, List.all_eq_true] at h
  have h0 : okWord deviceId n 0 = 0xffffffff := beq_iff_eq.1 (h 0 (by decide))
  have h1 : okWord deviceId n 1 = 0xffffffff := beq_iff_eq.1 (h 1 (by decide))
  have hne : deviceId + .ofNat (n * 4 + 0) ≠ deviceId + .ofNat (n * 4 + 1) := by
    intro e
    have e := congrArg UInt32.toNat ((UInt32.add_right_inj deviceId).1 e)
    rw [UInt32.toNat_ofNat', UInt32.toNat_ofNat'] at e
    omega
  have hc := crc32_word_ne 0xffffffff [] [] hne
  rw [List.nil_append, List.append_nil, List.nil_append, List.append_nil] at hc
  exact hc (h0.trans h1.symm)

end Esp8266Sdk.Wear
