import Esp8266Sdk.Spi.Chip

/-! `spi_flash_erase_sector` and `spi_flash_erase_range`. A range inside the chip
is erased exactly. A range of no sectors, or one that reaches past the end of the
chip, is reported as a failure after everything from its start to the end of the
chip is erased. -/

namespace Esp8266Sdk.Spi

open Nor DevM

variable {χ : Type} {rom : Rom χ} {c : χ}

theorem erase_zero (f : Flash) (a : ℕ) : f.erase a 0 = f := by
  funext x
  exact Flash.erase_outside (by omega)

theorem erase_append (f : Flash) (a m n : ℕ) : (f.erase a m).erase (a + m) n = f.erase a (m + n) := by
  funext x
  rw [Flash.erase_apply, Flash.erase_apply, Flash.erase_apply]
  split_ifs <;> first | rfl | omega

/-- How a request to erase `n` bytes at `a` ends, which reaches past the end of the chip or not. -/
structure Erased (rom : Rom χ) (c : χ) (a n : ℕ) (inside : Prop) (ret : EspErr) (c' : χ) : Prop where
  done : inside → ret = espOk ∧ rom.flash c' = (rom.flash c).erase a n
  failed : ¬ inside → ret = espErrFlashOpFail ∧ rom.flash c' = (rom.flash c).erase a (rom.chipSize - a)

theorem sector_outside {sec : ℕ} (h : ¬ sec < rom.chipSize / sectorSize) : rom.chipSize - sec * sectorSize = 0 := by
  have hm := Nat.mul_le_mul_right sectorSize (Nat.not_lt.1 h)
  rw [Nat.div_mul_cancel rom.chip_dvd] at hm
  omega

theorem sector_inside {sec : ℕ} (h : sec < rom.chipSize / sectorSize) : sec * sectorSize + sectorSize ≤ rom.chipSize := by
  have hle : (sec + 1) * sectorSize ≤ rom.chipSize := (Nat.le_div_iff_mul_le (by decide)).1 h
  rwa [← Nat.succ_mul]

theorem spiFlashEraseSector_ends (hs : rom.Sound) (hrel : rom.Reliable) (sec : ℕ) :
    Ends (spiFlashEraseSector rom sec) c
      (Erased rom c (sec * sectorSize) sectorSize (sec < rom.chipSize / sectorSize)) := by
  have hlt := rom.chip_lt
  rw [spiFlashEraseSector]
  by_cases h : sec < rom.chipSize / sectorSize
  · have hin := sector_inside h
    have hu : u32 (sec * sectorSize) = sec * sectorSize := Nat.mod_eq_of_lt (by omega)
    rw [if_neg (Nat.not_le.2 h)]
    refine Ends.seq (Q := fun b c₁ => b = true ∧ rom.flash c₁ = rom.flash c) (.call ⟨rfl, hs.protection c⟩) ?_
    rintro _ c₁ ⟨rfl, hfl⟩
    have hok := hrel.erase (sec * sectorSize) (rom.spiWriteEnable c₁).2 (Nat.mul_mod_left _ _) hin
    have he := (hs.erase (sec * sectorSize) c₁ (Nat.mul_mod_left _ _) hin).2 (hrel.enable _) hok
    rw [if_neg (by decide), spiFlashEraseSectorRaw]
    refine .bind (.call (.bind (.call (.pure ⟨fun _ => ?_, fun hn => absurd h hn⟩))))
    rw [hrel.enable, hu, hok]
    exact ⟨rfl, by rw [he, hfl]⟩
  · rw [if_pos (Nat.not_lt.1 h)]
    refine .pure ⟨fun h' => absurd h' h, fun _ => ⟨rfl, ?_⟩⟩
    rw [sector_outside h, erase_zero]

/-- The loop over sectors erases up to its last sector, or to the end of the chip. -/
theorem eraseSectors_ends (hs : rom.Sound) (hrel : rom.Reliable) (num sec : ℕ) (c : χ) :
    Ends (eraseSectors rom num sec) c
      (Erased rom c (sec * sectorSize) ((num + 1) * sectorSize) (sec + num < rom.chipSize / sectorSize)) := by
  induction num generalizing sec c with
  | zero =>
    rw [eraseSectors, Nat.zero_add, Nat.one_mul]
    exact spiFlashEraseSector_ends hs hrel sec
  | succ num ih =>
    rw [eraseSectors]
    refine (spiFlashEraseSector_ends hs hrel sec).seq ?_
    intro ret c₁ h
    by_cases hlt : sec < rom.chipSize / sectorSize
    · obtain ⟨rfl, hfl⟩ := h.done hlt
      have hin := sector_inside hlt
      have hsum (n : ℕ) : (rom.flash c₁).erase ((sec + 1) * sectorSize) n =
          (rom.flash c).erase (sec * sectorSize) (sectorSize + n) := by rw [hfl, Nat.succ_mul, erase_append]
      rw [if_neg (by decide)]
      refine (ih (sec + 1) c₁).imp fun ret c₂ h₂ => ⟨fun hn => ?_, fun hn => ?_⟩
      · have h₂ := h₂.done (by omega)
        rwa [hsum, Nat.add_comm sectorSize, ← Nat.succ_mul] at h₂
      · have h₂ := h₂.failed (by omega)
        rwa [hsum, Nat.succ_mul, show sectorSize + (rom.chipSize - (sec * sectorSize + sectorSize)) =
          rom.chipSize - sec * sectorSize by omega] at h₂
    · have h := h.failed hlt
      rw [h.1, if_pos espErrFlashOpFail_ne]
      exact .pure ⟨fun hn => absurd hn (by omega), fun _ => ⟨rfl, h.2⟩⟩

/-- A request to erase whole sectors. -/
theorem spiFlashEraseRange_ends (hs : rom.Sound) (hrel : rom.Reliable) {start size : ℕ} (ha : start % sectorSize = 0)
    (hn : size % sectorSize = 0) (hsize : size < 2 ^ 32) :
    Ends (spiFlashEraseRange rom start size) c (Erased rom c start size (0 < size ∧ start + size ≤ rom.chipSize)) := by
  have hlt := rom.chip_lt
  have hdvd := Nat.div_mul_cancel rom.chip_dvd
  have hstart := Nat.div_mul_cancel (Nat.dvd_of_mod_eq_zero ha)
  have hlen := Nat.div_mul_cancel (Nat.dvd_of_mod_eq_zero hn)
  rw [spiFlashEraseRange, if_neg (by omega)]
  refine Ends.seq (Q := fun b c₁ => b = true ∧ rom.flash c₁ = rom.flash c) (.call ⟨rfl, hs.protection c⟩) ?_
  rintro _ c₁ ⟨rfl, hfl⟩
  rw [if_neg (by decide)]
  refine (eraseSectors_ends hs hrel _ _ c₁).imp ?_
  rintro ret c₂ ⟨hdone, hfailed⟩
  rw [hfl, hstart] at hdone hfailed
  simp only [sectorSize, u32] at *
  constructor
  · rintro ⟨h0, hin⟩
    have hnum : (size / 4096 + 2 ^ 32 - 1) % 2 ^ 32 = size / 4096 - 1 := by omega
    have h := hdone (by omega)
    rwa [hnum, Nat.sub_add_cancel (by omega), hlen] at h
  · intro hout
    exact hfailed (by omega)

theorem spiFlashEraseRange_ends_chip :
    Ends (spiFlashEraseRange (chip 1024 (by decide)) 0x100000 0) (fun _ => 0)
      (Erased (chip 1024 (by decide)) (fun _ => 0) 0x100000 0 (0 < 0 ∧ 0x100000 + 0 ≤ (chip 1024 (by decide)).chipSize)) :=
  spiFlashEraseRange_ends chip_sound chip_reliable (by decide) (by decide) (by decide)

end Esp8266Sdk.Spi
