import Esp8266Sdk.Nor.Requests
import Esp8266Sdk.Spi.Write
import Esp8266Sdk.Spi.Erase

/-! Flash programs on the driver. Every read, write and erasure of a program is a
call of the driver whose return code is discarded, as in `src/nvs.nim`. On a
chip that refuses nothing, a program whose requests lie inside the chip and are
not endless runs as it does on the flash. -/

namespace Esp8266Sdk.Spi

open Nor DevM

variable {χ σ ε α β : Type}

/-- What the calls of a program need besides their arguments: where its buffers
lie and the stack of `spi_flash_write`. -/
structure Host where
  readDest : ℕ → ℕ → ℕ
  writeSrc : ℕ → List UInt8 → ℕ
  buf : ℕ → Buffer
  readDest_ne : ∀ a n, readDest a n ≠ 0
  writeSrc_ne : ∀ a bs, writeSrc a bs ≠ 0

/-- A memory that holds these bytes at this address. -/
def memoryOf (src : ℕ) (bs : List UInt8) : Flash := fun x => bs.getD (x - src) 0

theorem memoryOf_read (src : ℕ) (bs : List UInt8) : (memoryOf src bs).read src bs.length = bs := by
  apply List.ext_getElem (by simp)
  intro i _ hi
  rw [Flash.getElem_read, memoryOf, Nat.add_sub_cancel_left, List.getD_eq_getElem _ _ hi]

variable (rom : Rom χ) (host : Host)

/-- A flash step as a call of the driver. Erasures are of whole sectors. -/
def step : Op → DevM χ EspErr
  | .write a bs => spiFlashWrite rom 256 (memoryOf (host.writeSrc a bs) bs) (host.buf a) a (host.writeSrc a bs) bs.length
  | .erase a _ => spiFlashEraseSector rom (a / sectorSize)

/-- A program with its RAM on the driver. -/
def onDriver : Prog σ ε α → σ → DevM χ (Except ε α × σ)
  | .ret a, s => return (.ok a, s)
  | .fail e, s => return (.error e, s)
  | .get k, s => onDriver (k s) s
  | .put s k, _ => onDriver k s
  | .read a n k, s => do
    let r ← spiFlashRead rom a (host.readDest a n) n
    onDriver (k r.2) s
  | .step op k, s => do
    let _ ← step rom host op
    onDriver k s

/-- The step lies inside the first `size` bytes, and its pages can be counted. -/
def InChip (size : ℕ) : Op → Prop
  | .write a bs => a + bs.length ≤ size ∧ bs.length ≤ 65536
  | .erase a n => a % sectorSize = 0 ∧ n = sectorSize ∧ a + sectorSize ≤ size

variable {rom host} {c : χ} {size : ℕ}

theorem step_ends (hs : rom.Sound) (hrel : rom.Reliable) (hsize : size ≤ rom.chipSize) {op : Op} (h : InChip size op) :
    Ends (step rom host op) c fun _ c' => rom.flash c' = op.apply (rom.flash c) := by
  cases op with
  | write a bs =>
    have hp : ¬ Endless a (host.writeSrc a bs) bs.length := fun he => by
      have := he.2
      have := h.2
      omega
    refine (spiFlashWrite_ends hs (by decide) (host.writeSrc_ne a bs) (h.1.trans hsize) hp).imp fun ret c' hw => ?_
    rw [memoryOf_read] at hw
    exact hw.ok (by_contra fun hn => hw.refused hn hrel)
  | erase a n =>
    obtain ⟨ha, rfl, hin⟩ := h
    have hdiv : a / sectorSize * sectorSize = a := Nat.div_mul_cancel (Nat.dvd_of_mod_eq_zero ha)
    have hlt : a / sectorSize < rom.chipSize / sectorSize := by
      have hle : (a + sectorSize) / sectorSize ≤ rom.chipSize / sectorSize := Nat.div_le_div_right (hin.trans hsize)
      rw [Nat.add_div_right _ (by decide)] at hle
      omega
    refine (spiFlashEraseSector_ends hs hrel _).imp fun ret c' he => ?_
    rw [(he.done hlt).2, hdiv]
    rfl

/-- A program on the driver runs as it does on the flash. -/
theorem onDriver_run (hs : rom.Sound) (hrel : rom.Reliable) (hsize : size ≤ rom.chipSize) (p : Prog σ ε α) (w : World σ)
    (c : χ) (hf : rom.flash c = w.flash) (h : p.Asks (fun a n => a + n ≤ size) (InChip size) w) :
    Ends (onDriver rom host p w.ram) c fun r c' =>
      r = ((p.run w).1, (p.run w).2.ram) ∧ rom.flash c' = (p.run w).2.flash := by
  induction p generalizing w c with
  | ret a => exact .pure ⟨rfl, hf⟩
  | fail e => exact .pure ⟨rfl, hf⟩
  | get k ih => exact ih w.ram w c hf h
  | put s k ih => exact ih { w with ram := s } c hf h
  | read a n k ih =>
    refine (spiFlashRead_ends hs (host.readDest_ne a n) (h.1.trans hsize)).seq fun r c₁ hr => ?_
    have hbs : r.2 = w.flash.read a n := hf ▸ hr.ok (by_contra fun hn => hr.refused hn hrel)
    rw [hbs]
    exact ih _ w c₁ (hr.flash.trans hf) h.2
  | step op k ih =>
    refine (step_ends hs hrel hsize h.1).seq fun _ c₁ hc => ?_
    exact ih { w with flash := op.apply w.flash } c₁ (by rw [hc, hf]) h.2

end Esp8266Sdk.Spi
