import Esp8266Sdk.Crc.Words
import Esp8266Sdk.Nvs.Headers

/-! Damaged page headers. The CRC of a header lies behind the bytes it covers, and
the register that has taken both ends the same for every verifiable header: a
burst of at most 32 bits in them, the CRC itself included, is noticed. -/

namespace Esp8266Sdk.Nvs

open Nor Prog Crc

theorem le32_read (f : Flash) {a n i : ℕ} (h : i + 4 ≤ n) : le32 (word32 (f.read a n) i) = f.read (a + i) 4 := by
  have hb := word32_eq_iff.1 (rfl : word32 (f.read a n) i = _)
  apply List.ext_getElem (by simp)
  intro k hk _
  have hk : k < 4 := hk
  have e := hb k hk
  rw [Flash.getD_read, if_pos (by omega), List.getD_eq_getElem _ _ (by simpa using hk)] at e
  rw [Flash.getElem_read, ← e, Nat.add_assoc]

/-- The bytes a header's CRC covers. -/
theorem body_read (f : Flash) (p : ℕ) : le32 (headerAt f p).seqNumber ++ [(headerAt f p).version] ++
    le32 (headerAt f p).dirty ++ (headerAt f p).reserved.toList = f.read (base p + 4) 24 := by
  have hseq : le32 (headerAt f p).seqNumber = f.read (base p + 4) 4 := le32_read f (by omega)
  have hversion : [(headerAt f p).version] = f.read (base p + 4 + 4) 1 := by
    rw [headerAt, PageHeader.decode, Flash.getD_read, if_pos (by omega)]
    rfl
  have hdirty : le32 (headerAt f p).dirty = f.read (base p + 4 + 5) 4 := le32_read f (by omega)
  have hreserved : (headerAt f p).reserved.toList = f.read (base p + 4 + 9) 15 := by
    apply List.ext_getElem (by simp)
    intro k hk _
    have hk : k < 15 := by simpa using hk
    rw [Flash.getElem_read, Vector.getElem_toList]
    simp only [headerAt, PageHeader.decode, Vector.getElem_ofFn]
    rw [Flash.getD_read, if_pos (by omega)]
    congr 1
    omega
  rw [hseq, hversion, hdirty, hreserved, ← Flash.read_add, ← Flash.read_add, ← Flash.read_add]

/-- What the register ends with behind a right CRC. -/
def residue : BitVec 32 := (shift poly32)^[32] (BitVec.allOnes 32)

theorem crcOk_iff_residue (f : Flash) (p : ℕ) :
    CrcOk (headerAt f p) ↔ feed poly32 0 (message (f.read (base p + 4) 28)) = residue := by
  have hread : f.read (base p + 4) 28 = f.read (base p + 4) 24 ++ le32 (headerAt f p).crc32 := by
    have h : le32 (headerAt f p).crc32 = f.read (base p + 28) 4 := le32_read f (by omega)
    rw [h, show base p + 28 = base p + 4 + 24 by omega, ← Flash.read_add]
  have hinj : Function.Injective (shift poly32)^[32] := (shift_injective (by decide)).iterate 32
  rw [crcOk_iff, body_read, ← UInt32.toBitVec_inj, crc32_le_eq, hread, message_append, feed_append, message_le32,
    feed_eq _ (length_bits _).le, length_bits, word_bits, residue, hinj.eq_iff]
  change _ = ~~~ feed poly32 0 _ ↔ _
  generalize feed poly32 0 (message _) = s
  rw [BitVec.setWidth_eq]
  constructor
  · intro h
    rw [h, ← BitVec.xor_allOnes, ← BitVec.xor_assoc, BitVec.xor_self, BitVec.zero_xor]
  · intro h
    calc (headerAt f p).crc32.toBitVec = s ^^^ (s ^^^ (headerAt f p).crc32.toBitVec) := by
          rw [← BitVec.xor_assoc, BitVec.xor_self, BitVec.zero_xor]
      _ = ~~~ s := by rw [h, BitVec.xor_allOnes]

/-- A page in use whose header a burst has damaged behind the state word is no
longer verified, wherever the burst lies. -/
theorem verifyPage_burst {p : ℕ} (hp : p < 8) {w w' : NvsWorld} (hw : (verifyPage (pageAddr p)).run w = (.ok true, w))
    (hu : ∀ v ∈ [w, w'], stateAt v.flash p ≠ PageState.uninitialized.word)
    (hb : Burst 32 (w.flash.read (base p + 4) 28) (w'.flash.read (base p + 4) 28)) :
    (verifyPage (pageAddr p)).run w' = (.ok false, w') := by
  rw [(reads_verifyPage hp).run] at hw ⊢
  have hv : Verified w.flash p := by simpa using congrArg Prod.fst hw
  have hok : CrcOk (headerAt w.flash p) := (hv.resolve_left (hu w (by simp))).2
  have hbad : ¬ Verified w'.flash p := by
    rintro (h | ⟨-, h⟩)
    · exact hu w' (by simp) h
    · rw [crcOk_iff_residue] at hok h
      exact hb.feed_ne (by decide) 0 (hok.trans h.symm)
  rw [decide_eq_false hbad]

/-- A fresh page whose dirty word has been cleared. -/
theorem verifyPage_burst_dirty :
    let w := powerOn (Flash.program (fun _ => 0xff) (base 0) (freshHeader 1).encode)
    let w' := powerOn (w.flash.program (base 0 + 9) [0, 0, 0, 0])
    (verifyPage (pageAddr (0 : ℕ))).run w' = (.ok false, w') := by
  intro w w'
  have hw : (verifyPage (pageAddr (0 : ℕ))).run w = (.ok true, w) := by
    have hv : Verified w.flash 0 := by decide +kernel
    rw [(reads_verifyPage (by omega)).run, decide_eq_true hv]
  refine verifyPage_burst (by omega) hw (by decide +kernel) ?_
  let bs := message (w.flash.read (base 0 + 4) 28)
  refine ⟨bs.take 40, List.replicate 32 true, List.replicate 32 false, bs.drop 72, ?_⟩
  decide +kernel

end Esp8266Sdk.Nvs
