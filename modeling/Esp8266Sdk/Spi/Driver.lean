import Esp8266Sdk.Nor.Device
import Esp8266Sdk.Nor.Torn
import Mathlib

/-! The flash driver (`src/vendor/components/spi_flash/src/spi_flash.c` over
`spi_flash_raw.c`). The chip is reached through functions of the boot ROM, which
are a parameter; whatever such a function returns other than zero is a refusal.
Addresses and sizes are `uint32`. The source of a write is a pointer into a
memory that the driver does not change. -/

namespace Esp8266Sdk.Spi

open Nor

abbrev EspErr := Int32

def espOk : EspErr := 0
def espErrFlashOpFail : EspErr := 0x10011

/-- Arithmetic on `uint32`. -/
def u32 (n : ℕ) : ℕ := n % 2 ^ 32

/-- The geometry of `g_rom_flashchip`. -/
def sectorSize : ℕ := 4096
def pageSize : ℕ := 256

/-- The functions of the boot ROM on a chip with states `χ`. -/
structure Rom (χ : Type) where
  /-- The bytes the chip stores. -/
  flash : χ → Flash
  chipSize : ℕ
  chip_dvd : sectorSize ∣ chipSize
  chip_lt : chipSize < 2 ^ 32
  spiPageProgram : ℕ → List UInt8 → χ → EspErr × χ
  spiReadData : ℕ → ℕ → χ → (EspErr × List UInt8) × χ
  spiWriteEnable : χ → EspErr × χ
  spiSectorErase : ℕ → χ → EspErr × χ
  /-- The accesses of `spi_flash_check_wr_protect` to the status registers. -/
  clearProtection : χ → χ

/-- A buffer on the stack, with what it holds when the function is entered. -/
structure Buffer where
  addr : ℕ
  bytes : List UInt8
  addr_ne : addr ≠ 0
  size : bytes.length = 64

/-! ### Alignment -/

def flashAlignBytes : ℕ := 4
def flashAlign (addr : ℕ) : ℕ := u32 (addr + (flashAlignBytes - 1)) / flashAlignBytes * flashAlignBytes
def flashAlignBefore (addr : ℕ) : ℕ := u32 (flashAlign addr + 2 ^ 32 - 4)
def notAlign (addr : ℕ) : Prop := addr % flashAlignBytes ≠ 0

instance (addr : ℕ) : Decidable (notAlign addr) := inferInstanceAs (Decidable (_ ≠ _))

/-- The address is in the mapped flash. -/
def isFlash (a : ℕ) : Prop := 0x40200000 ≤ a ∧ a < 0x40200000 + 0x100000

instance (a : ℕ) : Decidable (isFlash a) := inferInstanceAs (Decidable (_ ∧ _))

def spiReadBufMax : ℕ := 64

/-- The bytes one round of a loop moves. -/
def chunk (size : ℕ) : ℕ := if size ≥ spiReadBufMax then spiReadBufMax else size

theorem chunk_eq (size : ℕ) : chunk size = min size 64 := by
  unfold chunk spiReadBufMax
  split_ifs <;> omega

theorem chunk_lt {size : ℕ} (h : size ≠ 0) : size - chunk size < size := by
  rw [chunk_eq]
  omega

/-- The bytes of a request that starts at the offset `cOff` of a word which that word takes. -/
def wordBytes (cOff size : ℕ) : ℕ :=
  let wbytes := flashAlignBytes - cOff
  if wbytes > size then size else wbytes

theorem wordBytes_eq (cOff size : ℕ) : wordBytes cOff size = min (4 - cOff) size := by
  change (if 4 - cOff > size then size else 4 - cOff) = min (4 - cOff) size
  split_ifs <;> omega

/-- `memcpy` to the offset `off` of a buffer. -/
def memcpy (buf : List UInt8) (off : ℕ) (bs : List UInt8) : List UInt8 :=
  buf.take off ++ bs ++ buf.drop (off + bs.length)

variable {χ : Type} (rom : Rom χ)

/-! ### Raw accesses -/

def spiFlashWriteRaw (destAddr : ℕ) (bs : List UInt8) : DevM χ EspErr := .call (rom.spiPageProgram destAddr bs)

def spiFlashReadRaw (srcAddr size : ℕ) : DevM χ (EspErr × List UInt8) := .call (rom.spiReadData srcAddr size)

/-- The sector is erased even where the write enable was refused. -/
def spiFlashEraseSectorRaw (sec : ℕ) : DevM χ EspErr := do
  let enabled ← DevM.call rom.spiWriteEnable
  let erased ← DevM.call (rom.spiSectorErase (u32 (sec * sectorSize)))
  return if enabled ≠ espOk ∨ erased ≠ espOk then espErrFlashOpFail else espOk

def spiFlashCheckWrProtect : DevM χ Bool := .call fun c => (true, rom.clearProtection c)

/-! ### Writing -/

/-- The loop over whole pages of `spi_flash_program`, with at most `fuel` rounds. The counter is a `uint8`. -/
def programPages (mem : Flash) (target srcAddr pgmNum : ℕ) : ℕ → UInt8 → ℕ → DevM χ (EspErr × ℕ)
  | 0, _, _ => .spin
  | fuel + 1, i, pgmLen =>
    if i.toNat < pgmNum then do
      let ret ← spiFlashWriteRaw rom (u32 (target + pgmLen)) (mem.read (srcAddr + pgmLen / 4 * 4) pageSize)
      if ret ≠ espOk then return (espErrFlashOpFail, pgmLen)
      else programPages mem target srcAddr pgmNum fuel (i + 1) (u32 (pgmLen + pageSize))
    else return (espOk, pgmLen)

def spiFlashProgram (fuel : ℕ) (mem : Flash) (target srcAddr len : ℕ) : DevM χ EspErr :=
  let pgmLen := pageSize - target % pageSize
  if len < pgmLen then do
    let ret ← spiFlashWriteRaw rom target (mem.read srcAddr len)
    return if ret ≠ espOk then espErrFlashOpFail else espOk
  else do
    let ret ← spiFlashWriteRaw rom target (mem.read srcAddr pgmLen)
    if ret ≠ espOk then return espErrFlashOpFail
    else
      -- whole page program
      let pgmNum := (len - pgmLen) / pageSize
      let (ret, pgmLen) ← programPages rom mem target srcAddr pgmNum fuel 0 pgmLen
      if ret ≠ espOk then return ret
      else
        -- remain parts to program
        let ret ← spiFlashWriteRaw rom (u32 (target + pgmLen)) (mem.read (srcAddr + pgmLen / 4 * 4) (len - pgmLen))
        return if ret ≠ espOk then espErrFlashOpFail else espOk

/-! ### Reading -/

/-- `__spi_flash_read`. -/
def spiFlashRead' (srcAddr size : ℕ) : DevM χ (EspErr × List UInt8) := do
  let (ret, bs) ← spiFlashReadRaw rom srcAddr size
  return (if ret = 0 then espOk else espErrFlashOpFail, bs)

/-- The loop of `spi_flash_read`. The bytes read so far are `out`. -/
def readChunks (srcAddr size : ℕ) (out : List UInt8) : DevM χ (EspErr × List UInt8) :=
  if size = 0 then return (espOk, out)
  else do
    let len := chunk size
    let wlen := flashAlign len
    let (ret, buf) ← spiFlashRead' rom srcAddr wlen
    if ret ≠ espOk then return (ret, out)
    else readChunks (u32 (srcAddr + len)) (size - len) (out ++ buf.take len)
termination_by size
decreasing_by exact chunk_lt ‹_›

/-- The bytes written to `dest`, with the return code. -/
def spiFlashRead (srcAddr dest size : ℕ) : DevM χ (EspErr × List UInt8) :=
  if size = 0 then return (espOk, [])
  else if dest = 0 then return (espErrFlashOpFail, [])
  else if notAlign srcAddr ∨ notAlign dest ∨ notAlign size then
    if notAlign srcAddr then do
      let rAddr := flashAlignBefore srcAddr
      let cOff := srcAddr - rAddr
      let wbytes := wordBytes cOff size
      let (ret, buf) ← spiFlashRead' rom rAddr flashAlignBytes
      if ret ≠ espOk then return (ret, [])
      else readChunks rom (u32 (srcAddr + wbytes)) (size - wbytes) ((buf.drop cOff).take wbytes)
    else readChunks rom srcAddr size []
  else spiFlashRead' rom srcAddr size

/-! ### Unaligned writes -/

/-- The buffer with the last word of a piece that ends inside it. -/
def readLastWord (bufAddr destAddr len wlen : ℕ) (buf : List UInt8) : DevM χ (EspErr × List UInt8) :=
  if wlen ≠ len then do
    let lB := wlen - flashAlignBytes
    let (ret, bs) ← spiFlashRead rom (u32 (destAddr + lB)) (bufAddr + lB) flashAlignBytes
    return (ret, memcpy buf lB bs)
  else return (espOk, buf)

/-- The loop of `spi_flash_write`. -/
def writeChunks (fuel : ℕ) (mem : Flash) (bufAddr : ℕ) (destAddr tmp size : ℕ) (buf : List UInt8) : DevM χ EspErr :=
  if size = 0 then return espOk
  else do
    let len := chunk size
    let wlen := flashAlign len
    let (ret, buf) ← readLastWord rom bufAddr destAddr len wlen buf
    if ret ≠ espOk then return ret
    else
      let buf := memcpy buf 0 (mem.read tmp len)
      let ret ← spiFlashProgram rom fuel (fun x => buf.getD x 0) destAddr 0 wlen
      if ret ≠ espOk then return ret
      else writeChunks fuel mem bufAddr (u32 (destAddr + len)) (tmp + len) (size - len) buf
termination_by size
decreasing_by exact chunk_lt ‹_›

/-- `spi_flash_write` from an address inside a word: that word is read, patched and written, then the rest. -/
def writeUnaligned (fuel : ℕ) (mem : Flash) (buf : Buffer) (destAddr src size : ℕ) : DevM χ EspErr := do
  let rAddr := flashAlignBefore destAddr
  let cOff := destAddr - rAddr
  let wbytes := wordBytes cOff size
  let (ret, bs) ← spiFlashRead rom rAddr buf.addr flashAlignBytes
  if ret ≠ espOk then return ret
  else
    let bytes := memcpy (memcpy buf.bytes 0 bs) cOff (mem.read src wbytes)
    let ret ← spiFlashProgram rom fuel (fun x => bytes.getD x 0) rAddr 0 flashAlignBytes
    if ret ≠ espOk then return ret
    else writeChunks rom fuel mem buf.addr (u32 (destAddr + wbytes)) (src + wbytes) (size - wbytes) bytes

def spiFlashWrite (fuel : ℕ) (mem : Flash) (buf : Buffer) (destAddr src size : ℕ) : DevM χ EspErr :=
  if size = 0 then return espOk
  else if src = 0 then return espErrFlashOpFail
  else if u32 (destAddr + size) > rom.chipSize then return espErrFlashOpFail
  else do
    let writable ← spiFlashCheckWrProtect rom
    if writable = false then return espErrFlashOpFail
    else if notAlign destAddr ∨ notAlign src ∨ notAlign size ∨ isFlash src then
      if notAlign destAddr then writeUnaligned rom fuel mem buf destAddr src size
      else writeChunks rom fuel mem buf.addr destAddr src size buf.bytes
    else spiFlashProgram rom fuel mem destAddr src size

/-! ### Erasing -/

def spiFlashEraseSector (sec : ℕ) : DevM χ EspErr :=
  if sec ≥ rom.chipSize / sectorSize then return espErrFlashOpFail
  else do
    let writable ← spiFlashCheckWrProtect rom
    if writable = false then return espErrFlashOpFail
    else spiFlashEraseSectorRaw rom sec

/-- The loop of `spi_flash_erase_range` with `num` rounds left after this one. -/
def eraseSectors : ℕ → ℕ → DevM χ EspErr
  | 0, sec => spiFlashEraseSector rom sec
  | num + 1, sec => do
    let ret ← spiFlashEraseSector rom sec
    if ret ≠ espOk then return ret else eraseSectors num (sec + 1)

/-- The count is decremented before it is tested, so that no sectors asked for wrap around to `2 ^ 32` rounds. -/
def spiFlashEraseRange (startAddress size : ℕ) : DevM χ EspErr :=
  if startAddress % sectorSize ≠ 0 ∨ size % sectorSize ≠ 0 then return espErrFlashOpFail
  else do
    let writable ← spiFlashCheckWrProtect rom
    if writable = false then return espErrFlashOpFail
    else eraseSectors rom (u32 (size / sectorSize + 2 ^ 32 - 1)) (startAddress / sectorSize)

end Esp8266Sdk.Spi
