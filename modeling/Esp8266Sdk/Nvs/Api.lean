import Esp8266Sdk.Nvs.Store

/-! The public calls of `src/nvs.nim`. C strings are byte lists without NUL,
scalars are bit vectors, and an out pointer is the bytes stored through it. The
`mode` argument of `nvs_open` is not read by the source and is left out. -/

namespace Esp8266Sdk.Nvs

open Nor

/-- A C string, without its terminator. -/
structure CString where
  bytes : List UInt8
  nul_free : 0 ∉ bytes
  deriving DecidableEq

/-- What a call gives back. -/
structure Reply where
  err : EspErr
  /-- The bytes stored through `out_value`. -/
  out : Option (List UInt8)
  /-- The value stored through `length`. -/
  length : Option UInt32
  /-- The value stored through `handle`. -/
  handle : Option UInt32
  deriving DecidableEq

/-- A reply that stores nothing. -/
def Reply.code (err : EspErr) : Reply := ⟨err, none, none, none⟩

/-- The namespace index of a handle. -/
def nsIndexOf (handle : UInt32) : UInt8 := if handle = 0x1234 then 0 else handle.toUInt8

variable (env : Env) (depth : ℕ)

def nvsFlashInit : NvsM Reply := do
  let (pageIdx, _) ← findActivePage
  if pageIdx = -1 then return .code (← initializePage 0 1) else return .code espOk

def nvsFlashDeinit : NvsM Reply := return .code espOk

/-- The name that maps to the registry itself. -/
def phyName : List UInt8 := [0x70, 0x68, 0x79]

def nvsOpen (name : CString) : NvsM Reply := do
  if name.bytes = phyName then return ⟨espOk, none, none, some 0x1234⟩
  else
    let r ← findItem env 0 ItemType.u8.code name.bytes 0xff
    if r.err = espOk then return ⟨espOk, none, none, some r.item.data[0].toUInt32⟩
    else
      let newId : UInt8 := 10
      if (← writeItem env depth 0 ItemType.u8.code name.bytes (some [newId]) 1 0xff) = espOk then
        return ⟨espOk, none, none, some newId.toUInt32⟩
      else return .code 0x1101

/-! ### Scalars -/

/-- The `n` little-endian bytes of a scalar. -/
def leBytes (n : ℕ) {m : ℕ} (v : BitVec m) : List UInt8 := (List.range n).map fun i => .ofNat (v.toNat / 256 ^ i)

/-- The common body of the scalar getters. -/
def nvsGetScalar (datatype : ItemType) (size : ℕ) (handle : UInt32) (key : CString) : NvsM Reply := do
  let r ← findItem env (nsIndexOf handle) datatype.code key.bytes 0xff
  if r.err = espOk then return ⟨espOk, some (r.item.data.toList.take size), none, none⟩
  else return .code r.err

/-- The common body of all setters. -/
def nvsSetValue (datatype : ItemType) (handle : UInt32) (key : CString) (data : Option (List UInt8)) (length : UInt32) :
    NvsM Reply := do
  eraseOldItem (nsIndexOf handle) datatype.code key.bytes
  return .code (← writeItem env depth (nsIndexOf handle) datatype.code key.bytes data length 0xff)

def nvsGetU8 := nvsGetScalar env .u8 1
def nvsSetU8 (handle : UInt32) (key : CString) (value : BitVec 8) :=
  nvsSetValue env depth .u8 handle key (some (leBytes 1 value)) 1
def nvsGetI8 := nvsGetU8 env
def nvsSetI8 (handle : UInt32) (key : CString) (value : BitVec 8) := nvsSetU8 env depth handle key value
def nvsGetU16 := nvsGetScalar env .u16 2
def nvsSetU16 (handle : UInt32) (key : CString) (value : BitVec 16) :=
  nvsSetValue env depth .u16 handle key (some (leBytes 2 value)) 2
def nvsGetI16 := nvsGetU16 env
def nvsSetI16 (handle : UInt32) (key : CString) (value : BitVec 16) := nvsSetU16 env depth handle key value
def nvsGetU32 := nvsGetScalar env .u32 4
def nvsSetU32 (handle : UInt32) (key : CString) (value : BitVec 32) :=
  nvsSetValue env depth .u32 handle key (some (leBytes 4 value)) 4
def nvsGetI32 := nvsGetU32 env
def nvsSetI32 (handle : UInt32) (key : CString) (value : BitVec 32) := nvsSetU32 env depth handle key value
def nvsGetU64 := nvsGetScalar env .u64 8
def nvsSetU64 (handle : UInt32) (key : CString) (value : BitVec 64) :=
  nvsSetValue env depth .u64 handle key (some (leBytes 8 value)) 8
def nvsGetI64 := nvsGetU64 env
def nvsSetI64 (handle : UInt32) (key : CString) (value : BitVec 64) := nvsSetU64 env depth handle key value

inductive Scalar where
  | u8 | i8 | u16 | i16 | u32 | i32 | u64 | i64
  deriving DecidableEq, Repr

namespace Scalar

def size : Scalar → ℕ
  | .u8 | .i8 => 1
  | .u16 | .i16 => 2
  | .u32 | .i32 => 4
  | .u64 | .i64 => 8

/-- The type an accessor stores under: signed values are stored as unsigned. -/
def itemType : Scalar → ItemType
  | .u8 | .i8 => .u8
  | .u16 | .i16 => .u16
  | .u32 | .i32 => .u32
  | .u64 | .i64 => .u64

def get : Scalar → UInt32 → CString → NvsM Reply
  | .u8 => nvsGetU8 env
  | .i8 => nvsGetI8 env
  | .u16 => nvsGetU16 env
  | .i16 => nvsGetI16 env
  | .u32 => nvsGetU32 env
  | .i32 => nvsGetI32 env
  | .u64 => nvsGetU64 env
  | .i64 => nvsGetI64 env

def set : (k : Scalar) → UInt32 → CString → BitVec (8 * k.size) → NvsM Reply
  | .u8 => nvsSetU8 env depth
  | .i8 => nvsSetI8 env depth
  | .u16 => nvsSetU16 env depth
  | .i16 => nvsSetI16 env depth
  | .u32 => nvsSetU32 env depth
  | .i32 => nvsSetI32 env depth
  | .u64 => nvsSetU64 env depth
  | .i64 => nvsSetI64 env depth

theorem get_eq (k : Scalar) : k.get env = nvsGetScalar env k.itemType k.size := by cases k <;> rfl

theorem set_eq (k : Scalar) (handle : UInt32) (key : CString) (value : BitVec (8 * k.size)) :
    k.set env depth handle key value =
      nvsSetValue env depth k.itemType handle key (some (leBytes k.size value)) (.ofNat k.size) := by
  cases k <;> rfl

end Scalar

/-! ### Strings and blobs -/

/-- The bytes an item of this span can hold. -/
def totalCap (item : Item) : UInt32 := 8 + (item.span.toUInt32 - 1) * 32

/-- The search for the terminator through `ptr array[1024, char]`; the outer
`none` is an index outside the array, the inner one a buffer without NUL. -/
def findTerminator : List UInt8 → ℕ → Option (Option ℕ)
  | [], _ => some none
  | c :: p, i => if 1024 ≤ i then none else if c = 0 then some (some (i + 1)) else findTerminator p (i + 1)

/-- The bytes of an item that `nvs_get_str` and `nvs_get_blob` copy out. -/
def copyOut (r : Found) (copyLen : UInt32) : NvsM (List UInt8) := do
  let itemAddr := r.pageAddr + entryDataOffset + r.entryIdx * entrySize
  let rest ← if copyLen > 8 then spiFlashRead (itemAddr + 32) (copyLen - 8).toNat else pure []
  return r.item.data.toList.take (min 8 copyLen).toNat ++ rest

/-- `nvs_get_str`; `capacity` is `none` for a null `out_value`, else `length[]`. -/
def nvsGetStr (handle : UInt32) (key : CString) (capacity : Option UInt32) : NvsM Reply := do
  let r ← findItem env (nsIndexOf handle) ItemType.sz.code key.bytes 0xff
  if r.err ≠ espOk then return .code r.err
  else match capacity with
    | none => return ⟨espOk, none, some (totalCap r.item), none⟩
    | some length =>
      let copyLen := min (totalCap r.item) length
      let out ← copyOut r copyLen
      -- `copyLen.int`
      if copyLen.toNat < 2 ^ 31 then
        let actualLen ← checked (findTerminator out 0)
        return ⟨espOk, some out, some ((actualLen.map UInt32.ofNat).getD copyLen), none⟩
      else Prog.fail .range

def nvsSetStr (handle : UInt32) (key : CString) (value : CString) : NvsM Reply :=
  nvsSetValue env depth .sz handle key (some (value.bytes ++ [0])) (.ofNat (value.bytes.length + 1))

/-- `nvs_get_blob`; `capacity` as in `nvsGetStr`. -/
def nvsGetBlob (handle : UInt32) (key : CString) (capacity : Option UInt32) : NvsM Reply := do
  let r ← findItem env (nsIndexOf handle) ItemType.blob.code key.bytes 0xff
  if r.err ≠ espOk then return .code r.err
  else match capacity with
    | none => return ⟨espOk, none, some (totalCap r.item), none⟩
    | some length =>
      let copyLen := min (totalCap r.item) length
      let out ← copyOut r copyLen
      return ⟨espOk, some out, some copyLen, none⟩

/-- `nvs_set_blob`; `value` is `none` for a null pointer. -/
def nvsSetBlob (handle : UInt32) (key : CString) (value : Option (List UInt8)) (length : UInt32) : NvsM Reply :=
  nvsSetValue env depth .blob handle key value length

/-! ### Erasing -/

def nvsFlashErase : NvsM Reply := do
  (List.range numPages).foldlM (fun _ i => spiFlashEraseSector (nvsPartitionOffset / pageSize + i)) ()
  return .code espOk

def nvsClose (_handle : UInt32) : NvsM Reply := return .code espOk

def nvsCommit (_handle : UInt32) : NvsM Reply := return .code espOk

def nvsEraseKey (handle : UInt32) (key : CString) : NvsM Reply := do
  eraseOldItem (nsIndexOf handle) ItemType.any.code key.bytes
  return .code espOk

/-- One entry of the loop of `nvs_erase_all`. -/
def eraseAllEntry (nsIndex : UInt8) (pageAddr : ℕ) (s : EntryTable × Bool) (entryIdx : ℕ) : NvsM (EntryTable × Bool) :=
  if getEntryState s.1 entryIdx = .written then do
    let item ← readItem (pageAddr + entryDataOffset + entryIdx * entrySize)
    if item.nsIndex = nsIndex then return (← checked (setEntryState s.1 entryIdx .erased), true)
    else return s
  else return s

/-- One page of `nvs_erase_all`. Unlike `erasePage` it leaves the dirty flag and the cache alone. -/
def eraseAllPage (nsIndex : UInt8) (pageIdx : ℕ) : NvsM Unit := do
  let entryTable ← readTable (pageAddr pageIdx)
  let (entryTable, modded) ←
    (List.range entriesPerPage).foldlM (eraseAllEntry nsIndex (pageAddr pageIdx)) (entryTable, false)
  if modded then writeTableWords (pageAddr pageIdx) entryTable 0 7

def nvsEraseAll (handle : UInt32) : NvsM Reply := do
  (List.range numPages).foldlM (fun _ pageIdx => eraseAllPage (nsIndexOf handle) pageIdx) ()
  return .code espOk

/-! ### Calls -/

/-- A getter with its buffer, without its handle and key. -/
inductive Getter where
  | scalar (k : Scalar)
  | str (capacity : Option UInt32)
  | blob (capacity : Option UInt32)
  deriving DecidableEq

namespace Getter

/-- The stored type asked for. -/
def itemType : Getter → ItemType
  | .scalar k => k.itemType
  | .str _ => .sz
  | .blob _ => .blob

def prog : Getter → UInt32 → CString → NvsM Reply
  | .scalar k, handle, key => k.get env handle key
  | .str capacity, handle, key => nvsGetStr env handle key capacity
  | .blob capacity, handle, key => nvsGetBlob env handle key capacity

end Getter

/-- A setter with its value, without its handle and key. -/
inductive Setter where
  | scalar (k : Scalar) (value : BitVec (8 * k.size))
  | str (value : CString)
  | blob (value : Option (List UInt8)) (length : UInt32)
  deriving DecidableEq

namespace Setter

/-- The type stored. -/
def itemType : Setter → ItemType
  | .scalar k _ => k.itemType
  | .str _ => .sz
  | .blob _ _ => .blob

/-- The bytes behind the pointer given to `writeItem`. -/
def data : Setter → Option (List UInt8)
  | .scalar k value => some (leBytes k.size value)
  | .str value => some (value.bytes ++ [0])
  | .blob value _ => value

/-- The length given to `writeItem`. -/
def length : Setter → UInt32
  | .scalar k _ => .ofNat k.size
  | .str value => .ofNat (value.bytes.length + 1)
  | .blob _ length => length

def prog : Setter → UInt32 → CString → NvsM Reply
  | .scalar k value, handle, key => k.set env depth handle key value
  | .str value, handle, key => nvsSetStr env depth handle key value
  | .blob value length, handle, key => nvsSetBlob env depth handle key value length

theorem prog_eq (s : Setter) (handle : UInt32) (key : CString) :
    s.prog env depth handle key = nvsSetValue env depth s.itemType handle key s.data s.length := by
  cases s with
  | scalar k value => exact Scalar.set_eq env depth k handle key value
  | str value => rfl
  | blob value length => rfl

end Setter

/-- A public call with its arguments. -/
inductive Call where
  | flashInit
  | flashDeinit
  | flashErase
  | open (name : CString)
  | close (handle : UInt32)
  | commit (handle : UInt32)
  | get (g : Getter) (handle : UInt32) (key : CString)
  | set (s : Setter) (handle : UInt32) (key : CString)
  | eraseKey (handle : UInt32) (key : CString)
  | eraseAll (handle : UInt32)
  deriving DecidableEq

def Call.prog : Call → NvsM Reply
  | .flashInit => nvsFlashInit
  | .flashDeinit => nvsFlashDeinit
  | .flashErase => nvsFlashErase
  | .open name => nvsOpen env depth name
  | .close handle => nvsClose handle
  | .commit handle => nvsCommit handle
  | .get g handle key => g.prog env handle key
  | .set s handle key => s.prog env depth handle key
  | .eraseKey handle key => nvsEraseKey handle key
  | .eraseAll handle => nvsEraseAll handle

/-- The number of value bytes a call sets. -/
def Call.valueSize : Call → ℕ
  | .set (.scalar k _) _ _ => k.size
  | .set (.str value) _ _ => value.bytes.length
  | .set (.blob _ length) _ _ => length.toNat
  | _ => 0

/-- The length given to `writeItem` counts the terminator of a string. -/
theorem Setter.length_le {s : Setter} {handle : UInt32} {key : CString} (h : (Call.set s handle key).valueSize ≤ 4000) :
    s.length.toNat ≤ 4001 := by
  cases s with
  | scalar k value => cases k <;> simp [Setter.length, Scalar.size]
  | str value =>
    simp only [Call.valueSize] at h
    rw [Setter.length, UInt32.toNat_ofNat']
    omega
  | blob value length =>
    simp only [Call.valueSize] at h
    exact h.trans (by omega)

end Esp8266Sdk.Nvs
