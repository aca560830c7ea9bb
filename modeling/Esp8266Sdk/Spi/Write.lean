import Esp8266Sdk.Spi.Chip

/-! `spi_flash_write`. A request inside the chip, of any address, size and source,
is cut at the pages of the chip, and where it is not of whole words it is padded
with the bytes stored around it; it programs exactly its bytes all the same. The
one exception is a request of whole words over more than 255 whole pages: the
counter of the pages is one byte wide and never reaches their number. -/

namespace Esp8266Sdk.Spi

open Nor DevM

variable {χ : Type} {rom : Rom χ} {mem : Flash} {buf : Buffer} {c : χ} {destAddr src size : ℕ}

/-- The request goes to the chip without a copy. -/
def Direct (destAddr src size : ℕ) : Prop := destAddr % 4 = 0 ∧ src % 4 = 0 ∧ size % 4 = 0 ∧ ¬ isFlash src

instance : Decidable (Direct destAddr src size) := inferInstanceAs (Decidable (_ ∧ _ ∧ _ ∧ _))

/-- The request has more whole pages behind its first one than a byte counts. -/
def Endless (destAddr src size : ℕ) : Prop := Direct destAddr src size ∧ 256 - destAddr % 256 + 65536 ≤ size

theorem direct_iff : Direct destAddr src size ↔ ¬ (notAlign destAddr ∨ notAlign src ∨ notAlign size ∨ isFlash src) := by
  simp only [Direct, notAlign_iff, not_or, not_not]

theorem checkWrProtect_ends (hs : rom.Sound) :
    Ends (spiFlashCheckWrProtect rom) c fun b c' => b = true ∧ rom.flash c' = rom.flash c :=
  .call ⟨rfl, hs.protection c⟩

/-- The word around the address, then the rest. -/
theorem writeUnaligned_ends (hs : rom.Sound) {fuel : ℕ} (hf : 255 < fuel) (ha : destAddr % 4 ≠ 0)
    (hc : destAddr + size ≤ rom.chipSize) :
    Ends (writeUnaligned rom fuel mem buf destAddr src size) c (Wrote rom c destAddr (mem.read src size)) := by
  have hlt := rom.chip_lt
  have hmod := rom.chip_mod
  rw [writeUnaligned, flashAlignBefore_eq (by omega) ha]
  simp only [flashAlignBytes]
  generalize hr : destAddr / 4 * 4 = r
  have hw := wordBytes_eq (destAddr - r) size
  generalize wordBytes (destAddr - r) size = w at hw
  have hws : w ≤ size ∧ w ≤ 4 - (destAddr - r) ∧ (w < size → (destAddr + w) % 4 = 0) := by omega
  have hsplit : mem.read src size = mem.read src w ++ mem.read (src + w) (size - w) := by
    rw [← Flash.read_add, Nat.add_sub_of_le hws.1]
  refine (spiFlashRead_ends hs buf.addr_ne (by omega)).seq ?_
  rintro ⟨ret, bs⟩ c₁ ⟨hfl, hok, href⟩
  simp only at hok href ⊢
  rw [hsplit]
  by_cases hret : ret = espOk
  · have hword := take_patched_word (rom.flash c₁) r (destAddr - r) buf.bytes (mem.read src w) (by simp; omega)
    have hbs : bs = (rom.flash c₁).read r 4 := hfl ▸ hok hret
    rw [if_neg (not_not.2 hret), hbs]
    set bytes := memcpy (memcpy buf.bytes 0 ((rom.flash c₁).read r 4)) (destAddr - r) (mem.read src w) with hbytes
    have hlen : bytes.length = 64 := by
      have h₁ : (memcpy buf.bytes 0 ((rom.flash c₁).read r 4)).length = 64 := by
        rw [length_memcpy (by simp [buf.size]), buf.size]
      rw [hbytes, length_memcpy (by simp [h₁]; omega), h₁]
    refine (spiFlashProgram_padded hs _ _ _ hf (by omega) (by decide) (by omega) (by omega) (by omega) hword).seq ?_
    intro ret c₂ h₂
    have h₂ := h₂.from_flash hfl
    rw [show r + (destAddr - r) = destAddr by omega] at h₂
    split_ifs with hr₂
    · exact .pure (h₂.stop hr₂ _)
    rw [u32_of_lt (by omega)]
    refine (writeChunks_ends hs hf buf.addr_ne (destAddr + w) (src + w) (size - w) bytes c₂ hlen
      (fun _ => hws.2.2 (by omega)) (by omega)).imp ?_
    intro ret' c₃ h₃
    obtain rfl : ret = espOk := not_not.1 hr₂
    exact h₂.append (by rwa [Flash.length_read])
  · rw [if_pos hret]
    refine .pure ⟨?_, fun e => absurd e hret, fun _ => href hret⟩
    rw [hfl]
    exact .stopped _ _ _

theorem spiFlashWrite_ends (hs : rom.Sound) {fuel : ℕ} (hf : 255 < fuel) (hsrc : src ≠ 0)
    (hc : destAddr + size ≤ rom.chipSize) (hp : ¬ Endless destAddr src size) :
    Ends (spiFlashWrite rom fuel mem buf destAddr src size) c (Wrote rom c destAddr (mem.read src size)) := by
  have hlt := rom.chip_lt
  rw [spiFlashWrite]
  by_cases h0 : size = 0
  · rw [if_pos h0, h0]
    exact .pure (.of_flash (Flash.program_nil _ _).symm)
  rw [if_neg h0, if_neg hsrc, u32_of_lt (by omega), if_neg (by omega)]
  refine (checkWrProtect_ends hs).seq ?_
  rintro _ c₁ ⟨rfl, hfl⟩
  rw [if_neg (by decide)]
  refine Ends.imp (Q := Wrote rom c₁ destAddr (mem.read src size)) ?_ fun _ _ h => h.from_flash hfl
  by_cases hd : Direct destAddr src size
  · have hp : size < 256 - destAddr % 256 + 65536 := by
      by_contra hn
      exact hp ⟨hd, by omega⟩
    rw [if_neg (direct_iff.1 hd)]
    exact spiFlashProgram_ends hs hf hd.1 hd.2.2.1 hp hc
  rw [if_pos (not_not.1 (mt direct_iff.2 hd))]
  by_cases ha : notAlign destAddr
  · rw [if_pos ha]
    exact writeUnaligned_ends hs hf ha hc
  · rw [if_neg ha]
    exact writeChunks_ends hs hf buf.addr_ne destAddr src size buf.bytes c₁ buf.size (fun _ => not_not.1 ha) hc

/-! ### Round trip -/

/-- A request to write, and the same bytes read back. -/
def writeRead (rom : Rom χ) (fuel : ℕ) (mem : Flash) (buf : Buffer) (destAddr src dest size : ℕ) :
    DevM χ (EspErr × EspErr × List UInt8) := do
  let ret ← spiFlashWrite rom fuel mem buf destAddr src size
  let r ← spiFlashRead rom destAddr dest size
  return (ret, r)

/-- How it ends. -/
structure RoundTrip (rom : Rom χ) (mem : Flash) (c : χ) (destAddr src size : ℕ) (r : EspErr × EspErr × List UInt8) (c' : χ) :
    Prop where
  outside : ∀ x, x < destAddr ∨ destAddr + size ≤ x → rom.flash c' x = rom.flash c x
  stored : r.1 = espOk → rom.flash c' = (rom.flash c).program destAddr (mem.read src size)
  got : r.2.1 = espOk → r.2.2 = (rom.flash c').read destAddr size
  ok : rom.Reliable → r.1 = espOk ∧ r.2.1 = espOk

/-- What a write does and a read answers, for every address, size and buffer. -/
theorem writeRead_roundTrip (hs : rom.Sound) {fuel dest : ℕ} (hf : 255 < fuel) (hsrc : src ≠ 0) (hd : dest ≠ 0)
    (hc : destAddr + size ≤ rom.chipSize) (hp : ¬ Endless destAddr src size) :
    Ends (writeRead rom fuel mem buf destAddr src dest size) c (RoundTrip rom mem c destAddr src size) := by
  refine (spiFlashWrite_ends hs hf hsrc hc hp).seq fun ret c₁ h₁ => ?_
  refine (spiFlashRead_ends hs hd hc).seq fun r c₂ h₂ => .pure ?_
  constructor
  · intro x hx
    rw [h₂.flash]
    exact h₁.between.outside (by rwa [Flash.length_read])
  · intro e
    rw [h₂.flash]
    exact h₁.ok e
  · intro e
    rw [h₂.flash]
    exact h₂.ok e
  · intro hrel
    exact ⟨by_contra fun e => h₁.refused e hrel, by_contra fun e => h₂.refused e hrel⟩

/-- A buffer with nothing in it. -/
def blankBuffer : Buffer := ⟨0x3ffe8000, List.replicate 64 0, by decide, by decide⟩

theorem writeRead_roundTrip_chip :
    Ends (writeRead (chip 1024 (by decide)) 256 (fun x => (x % 256).toUInt8) blankBuffer 0x100009 0x3fff0001 0x3fff1003 300)
      (fun _ => 0xff) (RoundTrip (chip 1024 (by decide)) (fun x => (x % 256).toUInt8) (fun _ => 0xff) 0x100009 0x3fff0001 300) :=
  writeRead_roundTrip chip_sound (by decide) (by decide) (by decide) (by decide) (fun h => absurd h.1 (by decide))

/-! ### Requests that never succeed -/

/-- A whole-page loop whose counter wraps around ends only where a page was refused. -/
theorem programPages_endless {target srcAddr pgmNum : ℕ} (h : 256 ≤ pgmNum) (fuel : ℕ) (i : UInt8) (pgmLen : ℕ) (c : χ)
    {r : EspErr × ℕ} {c' : χ} (hr : exec (programPages rom mem target srcAddr pgmNum fuel i pgmLen) c = some (r, c')) :
    r.1 ≠ espOk := by
  induction fuel generalizing i pgmLen c with
  | zero => exact absurd hr (by simp [programPages])
  | succ fuel ih =>
    have hi : i.toNat < pgmNum := i.toNat_lt.trans_le h
    rw [programPages, if_pos hi, exec_bind_eq_some] at hr
    obtain ⟨ret, c₁, -, hr⟩ := hr
    split_ifs at hr with hne
    · rw [exec_pure, Option.some.injEq] at hr
      rw [← (Prod.mk.inj hr).1]
      exact espErrFlashOpFail_ne
    · exact ih _ _ _ hr

theorem spiFlashWrite_endless (hlt : destAddr + size ≤ rom.chipSize) (hsrc : src ≠ 0) (h : Endless destAddr src size)
    {fuel : ℕ} {ret : EspErr} {c' : χ} (hr : exec (spiFlashWrite rom fuel mem buf destAddr src size) c = some (ret, c')) :
    ret ≠ espOk := by
  have hlt' := rom.chip_lt
  have hs := h.2
  rw [spiFlashWrite, if_neg (by omega), if_neg hsrc, u32_of_lt (by omega), if_neg (by omega), exec_bind_eq_some] at hr
  obtain ⟨b, c₁, hb, hr⟩ := hr
  obtain rfl : b = true := by
    rw [spiFlashCheckWrProtect, exec_call, Option.some.injEq] at hb
    exact (congrArg Prod.fst hb).symm
  rw [if_neg (by decide), if_neg (direct_iff.1 h.1), spiFlashProgram] at hr
  change exec (ite (size < 256 - destAddr % 256) _ _) _ = _ at hr
  rw [if_neg (by omega), exec_bind_eq_some] at hr
  obtain ⟨ret₂, c₂, -, hr⟩ := hr
  split_ifs at hr with h₂
  · rw [exec_pure, Option.some.injEq] at hr
    rw [← (Prod.mk.inj hr).1]
    exact espErrFlashOpFail_ne
  · rw [exec_bind_eq_some] at hr
    obtain ⟨⟨ret₃, pgmLen⟩, c₃, h₃, hr⟩ := hr
    have hne : ret₃ ≠ espOk := programPages_endless (by simp only [pageSize]; omega) _ _ _ _ h₃
    simp only at hr
    rw [if_pos hne, exec_pure, Option.some.injEq] at hr
    rw [← (Prod.mk.inj hr).1]
    exact hne

/-- On a chip that refuses nothing, exactly the requests of at most 255 whole pages succeed. -/
theorem spiFlashWrite_ok_iff (hs : rom.Sound) (hrel : rom.Reliable) (hsrc : src ≠ 0) (hc : destAddr + size ≤ rom.chipSize) :
    (∃ fuel c', exec (spiFlashWrite rom fuel mem buf destAddr src size) c = some (espOk, c')) ↔
      ¬ Endless destAddr src size := by
  constructor
  · rintro ⟨fuel, c', hr⟩ he
    exact spiFlashWrite_endless hc hsrc he hr rfl
  · intro he
    have hends : Ends (spiFlashWrite rom 256 mem buf destAddr src size) c (Wrote rom c destAddr (mem.read src size)) :=
      spiFlashWrite_ends hs (by decide) hsrc hc he
    obtain ⟨ret, c', hr, h⟩ := hends
    obtain rfl : ret = espOk := by
      by_contra hne
      exact h.refused hne hrel
    exact ⟨256, c', hr⟩

theorem spiFlashWrite_ok_iff_chip :
    (∃ fuel c', exec (spiFlashWrite (chip 1024 (by decide)) fuel (fun _ => 0) blankBuffer 0 0x3fff0000 65792)
      (fun _ => 0xff) = some (espOk, c')) ↔ ¬ Endless 0 0x3fff0000 65792 :=
  spiFlashWrite_ok_iff chip_sound chip_reliable (by decide) (by decide)

end Esp8266Sdk.Spi
