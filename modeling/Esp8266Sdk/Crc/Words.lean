import Esp8266Sdk.Crc.Tables
import Esp8266Sdk.Nvs.Layout

/-! Stored words under the CRCs. A word of four bytes is a burst as long as the
CRC-32, so a buffer in which one word is replaced has another CRC. -/

namespace Esp8266Sdk.Crc

open Nvs (le32 crc32_le)

theorem message_append (bs cs : List UInt8) : message (bs ++ cs) = message bs ++ message cs := List.flatMap_append

/-- The bits of a byte of a word. -/
theorem bits_byte (w : UInt32) (k : ℕ) :
    bits (UInt8.ofNat (w.toNat / 2 ^ k)).toBitVec = (List.range 8).map fun i => w.toBitVec.getLsbD (k + i) := by
  apply List.map_congr_left
  intro i hi
  have hi : i < 8 := List.mem_range.1 hi
  change (BitVec.ofNat 8 (w.toNat / 2 ^ k)).getLsbD i = _
  rw [BitVec.getLsbD_ofNat, Nat.testBit_div_two_pow, decide_eq_true hi, Bool.true_and, Nat.add_comm]
  rfl

theorem message_le32 (w : UInt32) : message (le32 w) = bits w.toBitVec := by
  have h0 := bits_byte w 0
  rw [pow_zero, Nat.div_one] at h0
  have hm : message (le32 w) = bits (UInt8.ofNat w.toNat).toBitVec ++ (bits (UInt8.ofNat (w.toNat / 2 ^ 8)).toBitVec ++
      (bits (UInt8.ofNat (w.toNat / 2 ^ 16)).toBitVec ++ (bits (UInt8.ofNat (w.toNat / 2 ^ 24)).toBitVec ++ []))) := rfl
  rw [hm, h0, bits_byte, bits_byte, bits_byte]
  rfl

theorem bits_injective {m : ℕ} {a b : BitVec m} (h : bits a = bits b) : a = b := by
  have hw : (word (bits a) : BitVec m) = word (bits b) := by rw [h]
  rwa [word_bits, word_bits, BitVec.setWidth_eq, BitVec.setWidth_eq] at hw

/-- Another word at one place is a burst. -/
theorem burst_word (pre post : List UInt8) {a b : UInt32} (h : a ≠ b) :
    Burst 32 (pre ++ le32 a ++ post) (pre ++ le32 b ++ post) := by
  refine ⟨message pre, message (le32 a), message (le32 b), message post, ?_, ?_, ?_, ?_, ?_⟩
  · rw [message_append, message_append]
  · rw [message_append, message_append]
  · rw [message_le32, message_le32, length_bits, length_bits]
  · rw [message_le32, length_bits]
  · rw [message_le32, message_le32]
    exact fun e => h (UInt32.toBitVec_inj.1 (bits_injective e))

theorem crc32_word_ne (crc : UInt32) (pre post : List UInt8) {a b : UInt32} (h : a ≠ b) :
    crc32_le crc (pre ++ le32 a ++ post) ≠ crc32_le crc (pre ++ le32 b ++ post) := by
  intro e
  have e := congrArg UInt32.toBitVec e
  rw [crc32_le_eq, crc32_le_eq, BitVec.not_inj] at e
  exact (burst_word pre post h).feed_ne (by decide) _ e

end Esp8266Sdk.Crc
