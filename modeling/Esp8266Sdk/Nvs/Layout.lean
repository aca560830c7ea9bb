import Esp8266Sdk.Nvs.Crc
import Mathlib.Data.List.GetD
import Mathlib.Data.List.OfFn
import Mathlib.Tactic.IntervalCases

/-! Constants and stored structures of the key-value store (`src/nvs.nim`): error
codes, partition geometry, page and entry states, item types, the 32-byte item
and the 32-byte page header, with their packed little-endian byte layouts. -/

namespace Esp8266Sdk.Nvs

/-! ### Error codes -/

abbrev EspErr := Int32

def espOk : EspErr := 0
def espErrNvsNotFound : EspErr := 0x1101
def espErrNvsInvalidHandle : EspErr := 0x1103
def espErrNvsInvalidName : EspErr := 0x1104
def espErrNvsInvalidLength : EspErr := 0x1105
def espErrNvsNoFreePages : EspErr := 0x110d
def espErrNvsTypeMismatch : EspErr := 0x1109
def espErrNvsPageFull : EspErr := 0x110f

/-! ### Partition geometry -/

def nvsPartitionOffset : ℕ := 0x100000
def nvsPartitionSize : ℕ := 0x8000
def pageSize : ℕ := 4096
def numPages : ℕ := nvsPartitionSize / pageSize
def entrySize : ℕ := 32
def entriesPerPage : ℕ := 126
def entryTableOffset : ℕ := 32
def entryDataOffset : ℕ := 64

def alignDown (n a : ℕ) : ℕ := n / a * a

/-! ### States and types -/

inductive PageState where
  | uninitialized | active | full | freeing | corrupt
  deriving DecidableEq, Repr

/-- The state word. Each state clears one more bit of the one before. -/
def PageState.word : PageState → UInt32
  | .uninitialized => 0xffffffff
  | .active => 0xfffffffe
  | .full => 0xfffffffc
  | .freeing => 0xfffffff8
  | .corrupt => 0xfffffff0

inductive EntryState where
  | empty | written | erased | invalid
  deriving DecidableEq, Repr

def EntryState.bits : EntryState → UInt8
  | .empty => 3
  | .written => 2
  | .erased => 0
  | .invalid => 1

/-- The cast of a two-bit value to an entry state. -/
def EntryState.ofBits (b : UInt8) : EntryState :=
  if b = 3 then .empty else if b = 2 then .written else if b = 0 then .erased else .invalid

inductive ItemType where
  | u8 | i8 | u16 | i16 | u32 | i32 | u64 | i64 | sz | blob | blobData | blobIdx | any
  deriving DecidableEq, Repr

def ItemType.code : ItemType → UInt8
  | .u8 => 0x01
  | .i8 => 0x11
  | .u16 => 0x02
  | .i16 => 0x12
  | .u32 => 0x04
  | .i32 => 0x14
  | .u64 => 0x08
  | .i64 => 0x18
  | .sz => 0x21
  | .blob => 0x41
  | .blobData => 0x42
  | .blobIdx => 0x48
  | .any => 0xff

/-! ### Little-endian words -/

def le32 (w : UInt32) : List UInt8 :=
  [.ofNat w.toNat, .ofNat (w.toNat / 0x100), .ofNat (w.toNat / 0x10000), .ofNat (w.toNat / 0x1000000)]

/-- The word stored at offset `i` of a buffer. -/
def word32 (bs : List UInt8) (i : ℕ) : UInt32 :=
  .ofNat ((bs.getD i 0).toNat + 0x100 * (bs.getD (i + 1) 0).toNat + 0x10000 * (bs.getD (i + 2) 0).toNat +
    0x1000000 * (bs.getD (i + 3) 0).toNat)

@[simp] theorem length_le32 (w : UInt32) : (le32 w).length = 4 := rfl

theorem word32_le32 (w : UInt32) : word32 (le32 w) 0 = w := by
  apply UInt32.toNat.inj
  have := w.toNat_lt
  simp [word32, le32]
  omega

/-- A stored word is `w` exactly if its four bytes are those of `w`. -/
theorem word32_eq_iff {bs : List UInt8} {i : ℕ} {w : UInt32} :
    word32 bs i = w ↔ ∀ k < 4, bs.getD (i + k) 0 = (le32 w).getD k 0 := by
  constructor
  · rintro rfl k hk
    have h0 := (bs.getD i 0).toNat_lt
    have h1 := (bs.getD (i + 1) 0).toNat_lt
    have h2 := (bs.getD (i + 2) 0).toNat_lt
    have h3 := (bs.getD (i + 3) 0).toNat_lt
    apply UInt8.toNat.inj
    rw [word32]
    interval_cases k <;> (try rw [Nat.add_zero]) <;>
      generalize bs.getD i 0 = b0 at h0 ⊢ <;> generalize bs.getD (i + 1) 0 = b1 at h1 ⊢ <;>
      generalize bs.getD (i + 2) 0 = b2 at h2 ⊢ <;> generalize bs.getD (i + 3) 0 = b3 at h3 ⊢ <;>
      simp [le32] <;> omega
  · intro h
    have e0 := h 0 (by omega)
    have e1 := h 1 (by omega)
    have e2 := h 2 (by omega)
    have e3 := h 3 (by omega)
    rw [Nat.add_zero] at e0
    rw [← word32_le32 w]
    simp only [word32, e0, e1, e2, e3, Nat.zero_add]

/-! ### Items -/

structure Item where
  nsIndex : UInt8
  datatype : UInt8
  span : UInt8
  chunkIndex : UInt8
  crc32 : UInt32
  key : Vector UInt8 16
  data : Vector UInt8 8
  deriving DecidableEq

namespace Item

/-- The packed object. -/
def encode (it : Item) : List UInt8 :=
  [it.nsIndex, it.datatype, it.span, it.chunkIndex] ++ le32 it.crc32 ++ it.key.toList ++ it.data.toList

def decode (bs : List UInt8) : Item where
  nsIndex := bs.getD 0 0
  datatype := bs.getD 1 0
  span := bs.getD 2 0
  chunkIndex := bs.getD 3 0
  crc32 := word32 bs 4
  key := .ofFn fun i => bs.getD (8 + i) 0
  data := .ofFn fun i => bs.getD (24 + i) 0

@[simp] theorem length_encode (it : Item) : it.encode.length = 32 := by simp [encode]

/-- The zeroed object `Item()`. -/
def zero : Item := ⟨0, 0, 0, 0, 0, .replicate 16 0, .replicate 8 0⟩

/-- The stored key: the characters before the first NUL. -/
def keyString (it : Item) : List UInt8 := it.key.toList.takeWhile (· != 0)

end Item

/-- `calculateCrc32` of an item covers everything but the CRC field. -/
def calculateCrc32 (item : Item) : UInt32 :=
  let res := crc32_le 0xffffffff [item.nsIndex, item.datatype, item.span, item.chunkIndex]
  let res := crc32_le res item.key.toList
  crc32_le res item.data.toList

/-! ### Page headers -/

structure PageHeader where
  state : UInt32
  seqNumber : UInt32
  version : UInt8
  dirty : UInt32
  reserved : Vector UInt8 15
  crc32 : UInt32
  deriving DecidableEq

namespace PageHeader

def encode (h : PageHeader) : List UInt8 :=
  le32 h.state ++ le32 h.seqNumber ++ [h.version] ++ le32 h.dirty ++ h.reserved.toList ++ le32 h.crc32

def decode (bs : List UInt8) : PageHeader where
  state := word32 bs 0
  seqNumber := word32 bs 4
  version := bs.getD 8 0
  dirty := word32 bs 9
  reserved := .ofFn fun i => bs.getD (13 + i) 0
  crc32 := word32 bs 28

@[simp] theorem length_encode (h : PageHeader) : h.encode.length = 32 := by simp [encode]

end PageHeader

/-- `calculateCrc32` of a header: the 24 bytes from `seqNumber` on. -/
def calculateHeaderCrc32 (header : PageHeader) : UInt32 :=
  crc32_le 0xffffffff ((header.encode.drop 4).take 24)

end Esp8266Sdk.Nvs
