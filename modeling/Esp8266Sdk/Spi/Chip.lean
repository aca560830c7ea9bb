import Mathlib
import Esp8266Sdk.Spi.Spec

/-! A chip as it is sold. A page program that reaches the end of its page goes on
at the start of the same page; inside a page that is the programming of a flash. -/

namespace Esp8266Sdk.Spi

open Nor

/-- A page program: the byte at a place of the page is the one that reaches it, counting around the page. -/
def programPage (f : Flash) (a : ℕ) (bs : List UInt8) : Flash := fun x =>
  let i := (x % 256 + 256 - a % 256) % 256
  if x / 256 = a / 256 ∧ i < bs.length then f x &&& bs.getD i 0xff else f x

theorem chipSize_dvd (n : ℕ) : sectorSize ∣ sectorSize * n := Nat.dvd_mul_right _ _

theorem chipSize_lt {n : ℕ} (h : n < 2 ^ 20) : sectorSize * n < 2 ^ 32 := by
  simp only [sectorSize]
  omega

/-- A chip with `n` sectors. -/
def chip (n : ℕ) (h : n < 2 ^ 20) : Rom Flash where
  flash f := f
  chipSize := sectorSize * n
  chip_dvd := chipSize_dvd n
  chip_lt := chipSize_lt h
  spiPageProgram a bs f := (espOk, programPage f a bs)
  spiReadData a n f := ((espOk, f.read a n), f)
  spiWriteEnable f := (espOk, f)
  spiSectorErase a f := (espOk, f.erase a sectorSize)
  clearProtection f := f

theorem programPage_eq {f : Flash} {a : ℕ} {bs : List UInt8} (h : a % 256 + bs.length ≤ 256) :
    programPage f a bs = f.program a bs := by
  funext x
  rw [programPage, Flash.program_apply]
  by_cases hx : a ≤ x ∧ x < a + bs.length
  · have hi : (x % 256 + 256 - a % 256) % 256 = x - a := by omega
    rw [if_pos hx, hi, if_pos ⟨by omega, by omega⟩]
  · rw [if_neg hx, if_neg]
    rintro ⟨hp, hi⟩
    exact hx (by omega)

variable {n : ℕ} {h : n < 2 ^ 20}

theorem chip_sound : (chip n h).Sound where
  program a bs f _ _ hp _ := by
    have e : programPage f a bs = f.program a bs := programPage_eq hp
    refine ⟨?_, fun _ => e⟩
    change Between f (programPage f a bs) (f.program a bs)
    rw [e]
    exact .done _ _ _
  read _ _ _ _ _ _ := ⟨rfl, fun _ => rfl⟩
  enable _ := rfl
  erase a f _ _ := ⟨fun _ hx => Flash.erase_outside hx, fun _ _ => rfl⟩
  protection _ := rfl

theorem chip_reliable : (chip n h).Reliable where
  program _ _ _ _ _ _ _ := rfl
  read _ _ _ _ _ _ := rfl
  enable _ := rfl
  erase _ _ _ _ := rfl

end Esp8266Sdk.Spi
