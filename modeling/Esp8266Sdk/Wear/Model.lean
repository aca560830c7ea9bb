import Mathlib
import Esp8266Sdk.Nor.Loop
import Esp8266Sdk.Nvs.Layout

/-! The wear levelling of the SDK (`components/wear_levelling/WL_Flash.cpp`), as
`wl_mount` sets it up over a partition. A flash address is an offset in the
partition. The driver refuses a request outside the partition, and every error
but the ones named below ends the function with its code. -/

namespace Esp8266Sdk.Wear

open Nor Prog
open Nvs (le32 word32 crc32_le)

abbrev EspErr := Int32

def espFail : EspErr := -1
def espErrInvalidArg : EspErr := 0x102
def espErrInvalidState : EspErr := 0x103
def espErrInvalidSize : EspErr := 0x104

/-- A value of type `size_t`. -/
def size32 (n : ℕ) : ℕ := n % 2 ^ 32

/-- A difference of type `size_t`. -/
def diff32 (a b : ℕ) : ℕ := size32 (a + 2 ^ 32 - size32 b)

/-! ### What `wl_mount` configures -/

/-- `SPI_FLASH_SEC_SIZE`, the size of a page too -/
def sectorSize : ℕ := 4096
/-- `WL_DEFAULT_TEMP_BUFF_SIZE` -/
def tempBuffSize : ℕ := 32
/-- `WL_DEFAULT_WRITE_SIZE` -/
def wrSize : ℕ := 16
/-- `WL_DEFAULT_UPDATERATE` -/
def updaterate : UInt32 := 16
/-- `WL_CURRENT_VERSION` -/
def currentVersion : UInt32 := 2
/-- `sizeof(wl_state_t)` and `sizeof(wl_config_t)` -/
def stateBytes : ℕ := 64
def configBytes : ℕ := 48

/-- What `config` computes. -/
structure Geometry where
  fullMemSize : ℕ
  stateSize : ℕ
  cfgSize : ℕ
  addrCfg : ℕ
  addrState1 : ℕ
  addrState2 : ℕ
  flashSize : ℕ

/-- `WL_Flash::config`. The size of the data is a `ptrdiff_t` when it is checked. -/
def config (fullMemSize : ℕ) : Except EspErr Geometry :=
  let need := size32 (stateBytes + fullMemSize / sectorSize * wrSize)
  let stateSize := if sectorSize < need then size32 (need + sectorSize - 1) / sectorSize * sectorSize else sectorSize
  let cfgSize := (configBytes + sectorSize - 1) / sectorSize * sectorSize
  let data := diff32 (diff32 fullMemSize (stateSize * 2)) cfgSize
  let flashSize := size32 (diff32 (data / sectorSize) 1 * sectorSize)
  if flashSize = 0 ∨ 2 ^ 31 ≤ flashSize then .error espErrInvalidArg
  else .ok {
    fullMemSize
    stateSize
    cfgSize
    addrCfg := diff32 fullMemSize cfgSize
    addrState1 := data
    addrState2 := diff32 (diff32 fullMemSize stateSize) cfgSize
    flashSize }

/-! ### The state -/

/-- `wl_state_t` -/
@[ext] structure WlState where
  pos : UInt32
  maxPos : UInt32
  moveCount : UInt32
  accessCount : UInt32
  maxCount : UInt32
  blockSize : UInt32
  version : UInt32
  deviceId : UInt32
  reserved : Vector UInt32 7
  crc : UInt32
  deriving DecidableEq

namespace WlState

def words (s : WlState) : List UInt32 :=
  [s.pos, s.maxPos, s.moveCount, s.accessCount, s.maxCount, s.blockSize, s.version, s.deviceId] ++ s.reserved.toList ++ [s.crc]

def encode (s : WlState) : List UInt8 := s.words.flatMap le32

def decode (bs : List UInt8) : WlState where
  pos := word32 bs 0
  maxPos := word32 bs 4
  moveCount := word32 bs 8
  accessCount := word32 bs 12
  maxCount := word32 bs 16
  blockSize := word32 bs 20
  version := word32 bs 24
  deviceId := word32 bs 28
  reserved := .ofFn fun i => word32 bs (32 + 4 * i)
  crc := word32 bs 60

/-- `WL_STATE_CRC_LEN_V1` and `WL_STATE_CRC_LEN_V2` -/
def crcLenV1 : ℕ := 28
def crcLenV2 : ℕ := 60

/-- The CRC of the first `len` bytes. -/
def crcOf (len : ℕ) (s : WlState) : UInt32 := crc32_le 0xffffffff (s.encode.take len)

/-- The state under its CRC. -/
def sealed (s : WlState) : WlState := { s with crc := crcOf crcLenV2 s }

end WlState

/-- The members of the object that change. -/
structure WlFlash where
  state : WlState
  initialized : Bool

abbrev WlM := Prog WlFlash EspErr

abbrev WlWorld := World WlFlash

def getState : WlM WlState := .get fun s => .ret s.state

def setState (st : WlState) : WlM Unit := .get fun s => .put { s with state := st } (.ret ())

/-! ### The partition -/

section Driver

variable (size : ℕ)

/-- `esp_partition_read` -/
def drvRead (a n : ℕ) : WlM (List UInt8) :=
  if a > size then .fail espErrInvalidArg
  else if size32 (a + n) > size then .fail espErrInvalidSize
  else .read a n .ret

/-- `esp_partition_write` -/
def drvWrite (a : ℕ) (bs : List UInt8) : WlM Unit :=
  if a > size then .fail espErrInvalidArg
  else if size32 (a + bs.length) > size then .fail espErrInvalidSize
  else .step (.write a bs) (.ret ())

/-- `esp_partition_erase_range` -/
def drvEraseRange (a n : ℕ) : WlM Unit :=
  if a > size then .fail espErrInvalidArg
  else if size32 (a + n) > size then .fail espErrInvalidSize
  else if n % sectorSize ≠ 0 then .fail espErrInvalidSize
  else if a % sectorSize ≠ 0 then .fail espErrInvalidArg
  else .step (.erase a n) (.ret ())

/-- `Partition::erase_sector` -/
def drvEraseSector (sector : ℕ) : WlM Unit := drvEraseRange size (size32 (sector * sectorSize)) sectorSize

end Driver

/-! ### Position records -/

/-- Word `i` of the record of position `n`. -/
def okWord (deviceId : UInt32) (n i : ℕ) : UInt32 := crc32_le 0xffffffff (le32 (deviceId + .ofNat (n * 4 + i)))

/-- `fillOkBuff` -/
def okBuff (deviceId : UInt32) (n : ℕ) : List UInt8 := (List.range 4).flatMap fun i => le32 (okWord deviceId n i)

/-- `OkBuffSet` -/
def okBuffSet (deviceId : UInt32) (n : ℕ) (buf : List UInt8) : Bool :=
  (List.range 4).all fun i => okWord deviceId n i == word32 buf (4 * i)

variable (g : Geometry)

/-- Where the record of position `i` is in the copy of the state at `addr`. -/
def recordAddr (addr i : ℕ) : ℕ := addr + stateBytes + i * wrSize

/-! ### Mounting -/

def recoverPos : WlM Unit := do
  let st ← getState
  let found ← search (List.range st.maxPos.toNat) fun i => do
    let buf ← drvRead g.fullMemSize (recordAddr g.addrState1 i) wrSize
    return if okBuffSet st.deviceId i buf then none else some i
  let position := found.getD (st.maxPos.toNat - 1)
  let pos : UInt32 := .ofNat position
  setState { st with pos := if pos = st.maxPos then pos - 1 else pos }

/-- The bytes of `wl_config_t`. The last twelve are padding. -/
def configImage : List UInt8 :=
  let body := [0, .ofNat g.fullMemSize, .ofNat sectorSize, .ofNat sectorSize, updaterate, .ofNat wrSize, currentVersion,
    .ofNat tempBuffSize].flatMap le32
  body ++ le32 (crc32_le 0xffffffff body) ++ List.replicate 12 0

/-- Erase a copy of the state and write it. -/
def writeCopy (addr : ℕ) (st : WlState) : WlM Unit := do
  drvEraseRange g.fullMemSize addr g.stateSize
  drvWrite g.fullMemSize addr st.encode

/-- Write both copies of a state. -/
def writeState (st : WlState) : WlM Unit := do
  setState st
  writeCopy g g.addrState1 st
  writeCopy g g.addrState2 st

/-- The state of `initSections`. -/
def freshState (random : UInt32) : WlState :=
  WlState.sealed {
    pos := 0
    maxPos := .ofNat (1 + g.flashSize / sectorSize)
    moveCount := 0
    accessCount := 0
    maxCount := if updaterate ≠ 0 then updaterate else .ofNat (g.flashSize / g.stateSize) * updaterate
    blockSize := .ofNat sectorSize
    version := currentVersion
    deviceId := random
    reserved := .replicate 7 0
    crc := 0 }

/-- `initSections`, where `esp_random` returns `random`. -/
def initSections (random : UInt32) : WlM Unit := do
  writeState g (freshState g random)
  drvEraseRange g.fullMemSize g.addrCfg g.cfgSize
  drvWrite g.fullMemSize g.addrCfg (configImage g)

/-- Write the records up to that of `pos` behind a copy of the state. -/
def fillRecords (addr : ℕ) (deviceId pos : UInt32) : WlM Unit :=
  (List.range (pos.toNat + 1)).foldlM
    (fun _ i => drvWrite g.fullMemSize (recordAddr addr i) (okBuff deviceId i)) ()

/-- `updateV1_V2`. An old state has its CRC in the place of `device_id`. -/
def updateV1V2 (random : UInt32) : WlM Unit := do
  let st ← getState
  let copy := WlState.decode (← drvRead g.fullMemSize g.addrState2 stateBytes)
  let crc1 := st.crcOf WlState.crcLenV1
  let crc2 := copy.crcOf WlState.crcLenV1
  if crc1 = st.deviceId ∧ crc2 = copy.deviceId ∧ st.deviceId = copy.deviceId ∧ st.version = 1 ∧ copy.version = 1 then do
    let found ← search (List.range st.maxPos.toNat) fun i => do
      let bits ← drvRead g.fullMemSize (recordAddr g.addrState1 i) 1
      return if bits.getD 0 0 = 0xff then some i else none
    let pos : UInt32 := .ofNat (found.getD (st.maxPos.toNat - 1))
    let pos := if pos = st.maxPos then pos - 1 else pos
    let st := WlState.sealed { st with version := 2, pos := 0, deviceId := random, reserved := .replicate 7 0 }
    setState st
    writeCopy g g.addrState1 st
    fillRecords g g.addrState1 random pos
    writeCopy g g.addrState2 st
    fillRecords g g.addrState2 random pos
    setState { st with pos }
  else .fail espFail

/-- `result = updateVersion(); if (result == ESP_FAIL) ...`: only this code is handled by
the caller, every other one is lost when `recoverPos` sets the result again. -/
def orElse (p q : WlM Unit) (e : EspErr) : WlM Unit := match p with
  | .ret a => .ret a
  | .fail e' => if e' = e then q else .ret ()
  | .get k => .get fun s => orElse (k s) q e
  | .put s k => .put s (orElse k q e)
  | .read a n k => .read a n fun bs => orElse (k bs) q e
  | .step op k => .step op (orElse k q e)

/-- Copy the records that `src` has set to `dst`. The loop counts bytes, not records. -/
def copyRecords (src dst : ℕ) (deviceId : UInt32) : WlM Unit :=
  (List.range (g.fullMemSize / sectorSize * wrSize)).foldlM (fun _ i => do
    let buf ← drvRead g.fullMemSize (recordAddr src i) wrSize
    if okBuffSet deviceId i buf then drvWrite g.fullMemSize (recordAddr dst i) buf else return ()) ()

/-- What `init` does about the two copies of the state, of which it has read `state` into the object. -/
def initCopies (random : UInt32) (state copy : WlState) : WlM Unit := do
  let ok1 := state.crcOf WlState.crcLenV2 = state.crc
  let ok2 := copy.crcOf WlState.crcLenV2 = copy.crc
  if ok1 ∧ ok2 then
    if state.version ≠ currentVersion then do
      initSections g random
      recoverPos g
    else do
      if state.crc ≠ copy.crc then do
        -- the second copy was not updated
        writeCopy g g.addrState2 state
        copyRecords g g.addrState1 g.addrState2 state.deviceId
      recoverPos g
  else if ¬ ok1 ∧ ¬ ok2 then do
    orElse (updateV1V2 g random) (initSections g random) espFail
    recoverPos g
  else do
    if ok1 then do
      -- the second copy is recovered from the first
      writeCopy g g.addrState2 state
      copyRecords g g.addrState1 g.addrState2 state.deviceId
      setState (.decode (← drvRead g.fullMemSize g.addrState2 stateBytes))
    else do
      -- the first copy is recovered from the second, but its records are checked under the broken state
      writeCopy g g.addrState1 copy
      copyRecords g g.addrState2 g.addrState1 state.deviceId
      let state := WlState.decode (← drvRead g.fullMemSize g.addrState1 stateBytes)
      setState { state with pos := state.maxPos - 1 }
    let state ← getState
    if state.version ≠ currentVersion then initSections g random

/-- `WL_Flash::init` after `config`. -/
def init (random : UInt32) : WlM Unit := do
  .get fun s => .put { s with initialized := false } (.ret ())
  let state := WlState.decode (← drvRead g.fullMemSize g.addrState1 stateBytes)
  setState state
  let copy := WlState.decode (← drvRead g.fullMemSize g.addrState2 stateBytes)
  initCopies g random state copy
  .get fun s => .put { s with initialized := true } (.ret ())

/-- What `wl_mount` does with the outcome of `config`. -/
def mountAs (random : UInt32) : Except EspErr Geometry → WlM Unit
  | .error e => .fail e
  | .ok g => init g random

/-- `wl_mount`: a new object, configured and initialised. -/
def mount (size : ℕ) (random : UInt32) : WlM Unit := mountAs random (config size)

/-! ### Access -/

/-- The part of `updateWL` that copies the page behind the dummy page into it and stores the record of its position. -/
def moveBlock (st : WlState) : WlM Unit := do
  let dataPos := if st.pos.toNat + 1 ≥ st.maxPos.toNat then 0 else st.pos.toNat + 1
  let dataAddr := dataPos * sectorSize
  let dummyAddr := st.pos.toNat * sectorSize
  drvEraseRange g.fullMemSize dummyAddr sectorSize
  (List.range (sectorSize / tempBuffSize)).foldlM (fun _ i => do
    let buf ← drvRead g.fullMemSize (dataAddr + i * tempBuffSize) tempBuffSize
    drvWrite g.fullMemSize (dummyAddr + i * tempBuffSize) buf) ()
  drvWrite g.fullMemSize (recordAddr g.addrState1 st.pos.toNat) (okBuff st.deviceId st.pos.toNat)
  drvWrite g.fullMemSize (recordAddr g.addrState2 st.pos.toNat) (okBuff st.deviceId st.pos.toNat)

/-- The state when the dummy page has gone through all pages. -/
def turned (st : WlState) : WlState :=
  WlState.sealed { st with pos := 0, moveCount := if st.moveCount + 1 ≥ st.maxPos - 1 then 0 else st.moveCount + 1 }

/-- `updateWL` -/
def updateWL : WlM Unit := do
  let st ← getState
  let st := { st with accessCount := st.accessCount + 1 }
  if st.accessCount < st.maxCount then setState st else do
    let st := { st with accessCount := 0 }
    setState st
    moveBlock g st
    let st := { st with pos := st.pos + 1 }
    if st.pos ≥ st.maxPos then writeState g (turned st) else setState st

def calcAddr (st : WlState) (addr : ℕ) : ℕ :=
  let result := size32 (diff32 g.flashSize (st.moveCount.toNat * sectorSize) + addr) % g.flashSize
  if result < st.pos.toNat * sectorSize then result else result + sectorSize

/-- The functions of the access interface check that the object is initialised. -/
def guarded {α : Type} (p : WlM α) : WlM α := .get fun s => if s.initialized then p else .fail espErrInvalidState

def eraseSector (sector : ℕ) : WlM Unit := guarded do
  updateWL g
  let st ← getState
  drvEraseSector g.fullMemSize (calcAddr g st (size32 (sector * sectorSize)) / sectorSize)

def eraseRange (startAddress size : ℕ) : WlM Unit := guarded do
  let eraseCount := size32 (size + sectorSize - 1) / sectorSize
  let startSector := startAddress / sectorSize
  (List.range eraseCount).foldlM (fun _ i => eraseSector g (startSector + i)) ()

/-- The pages behind which the last piece of a request lies. A request of no bytes has `0xfffff`. -/
def pieceCount (size : ℕ) : ℕ := diff32 size 1 / sectorSize

/-- `write`, from the memory `src` -/
def write (destAddr : ℕ) (src : ℕ → UInt8) (size : ℕ) : WlM Unit := guarded do
  let count := pieceCount size
  let piece (i n : ℕ) : WlM Unit := do
    let st ← getState
    drvWrite g.fullMemSize (calcAddr g st (size32 (destAddr + i * sectorSize))) (Flash.read src (i * sectorSize) n)
  (List.range count).foldlM (fun _ i => piece i sectorSize) ()
  piece count (diff32 size (count * sectorSize))

def read (srcAddr size : ℕ) : WlM (List UInt8) := guarded do
  let count := pieceCount size
  let piece (i n : ℕ) : WlM (List UInt8) := do
    let st ← getState
    drvRead g.fullMemSize (calcAddr g st (size32 (srcAddr + i * sectorSize))) n
  let out ← (List.range count).foldlM (fun out i => return out ++ (← piece i sectorSize)) []
  return out ++ (← piece count (diff32 size (count * sectorSize)))

/-- `flush`, which `wl_unmount` calls -/
def flush : WlM Unit := do
  let st ← getState
  setState { st with accessCount := st.maxCount - 1 }
  updateWL g

end Esp8266Sdk.Wear
