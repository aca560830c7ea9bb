import Esp8266Sdk.Nor.Loop
import Esp8266Sdk.Nvs.EntryTable

/-! The store routines of `src/nvs.nim` below the public calls: the RAM cache,
page initialisation and marking, lookup, erasure, writing and compaction. Every
call site of the source discards the status of a flash operation, so flash
programs here do not see one. `writeItem` and `compactPage` call each other
without a measure; a stack depth bounds the recursion. -/

namespace Esp8266Sdk.Nvs

open Nor

/-- Runtime checks that end a call without a return. -/
inductive Defect where
  /-- An array index outside its bounds. -/
  | index
  /-- A length outside the range of `int`. -/
  | range
  /-- Recursion deeper than the stack. -/
  | stack
  deriving DecidableEq, Repr

structure CacheEntry where
  hash : UInt16
  address : ℕ
  deriving DecidableEq

abbrev Cache := Vector CacheEntry 64

/-- The zeroed `cacheTable`. -/
def Cache.empty : Cache := .replicate 64 ⟨0, 0⟩

/-- What the code runs in. -/
structure Env where
  /-- `false` for the variant whose `getFromCache` always returns 0. -/
  cached : Bool
  /-- The stack bytes behind an item, which `$cast[cstring]` reads on into when
  the item holds no NUL from its key on. -/
  stackTail : List UInt8

/-- The program as built. -/
def Env.built (stackTail : List UInt8) : Env := ⟨true, stackTail⟩

abbrev NvsM := Prog Cache Defect

abbrev NvsWorld := World Cache

def spiFlashRead (srcAddr size : ℕ) : NvsM (List UInt8) := .read srcAddr size .ret

def spiFlashWrite (destAddr : ℕ) (src : List UInt8) : NvsM Unit := .step (.write destAddr src) (.ret ())

def spiFlashEraseSector (sector : ℕ) : NvsM Unit := .step (.erase (sector * pageSize) pageSize) (.ret ())

def getCache : NvsM Cache := .get .ret

def modifyCache (g : Cache → Cache) : NvsM Unit := .get fun c => .put (g c) (.ret ())

/-- An access whose index may be outside. -/
def checked {α : Type} : Option α → NvsM α
  | some a => pure a
  | none => .fail .index

/-! ### The cache -/

def calculateKeyHash (nsIndex : UInt8) (key : List UInt8) : UInt16 :=
  if key.length = 0 then 0 else
  let h := crc32_le 0xffffffff [nsIndex]
  let h := crc32_le h key
  (h >>> 16).toUInt16

theorem hash_mod_lt (h : UInt16) : h.toNat % 64 < 64 := Nat.mod_lt _ (by decide)

def updateCache (nsIndex : UInt8) (key : List UInt8) (address : ℕ) (cache : Cache) : Cache :=
  let h := calculateKeyHash nsIndex key
  cache.set (h.toNat % 64) ⟨h, address⟩ (hash_mod_lt h)

def invalidateCache (nsIndex : UInt8) (key : List UInt8) (cache : Cache) : Cache :=
  let h := calculateKeyHash nsIndex key
  have := hash_mod_lt h
  if cache[h.toNat % 64].hash = h then cache.set (h.toNat % 64) ⟨h, 0⟩ else cache

def getFromCache (env : Env) (nsIndex : UInt8) (key : List UInt8) (cache : Cache) : ℕ :=
  let h := calculateKeyHash nsIndex key
  have := hash_mod_lt h
  if env.cached then
    if cache[h.toNat % 64].hash = h then cache[h.toNat % 64].address else 0
  else 0

/-! ### Pages -/

/-- The address of a page. The index is an `int` converted to `uint32`. -/
def pageAddr (pageIdx : ℤ) : ℕ := ((nvsPartitionOffset + pageIdx * pageSize) % 2 ^ 32).toNat

def readHeader (pageAddr : ℕ) : NvsM PageHeader := return .decode (← spiFlashRead pageAddr 32)

def readTable (pageAddr : ℕ) : NvsM EntryTable := return .ofBytes (← spiFlashRead (pageAddr + entryTableOffset) 32)

def readItem (itemAddr : ℕ) : NvsM Item := return .decode (← spiFlashRead itemAddr 32)

def verifyPage (pageAddr : ℕ) : NvsM Bool := do
  let header ← readHeader pageAddr
  if header.state = PageState.uninitialized.word then return true
  else if header.state = PageState.corrupt.word then return false
  else return header.crc32 == calculateHeaderCrc32 header

/-- What `findActivePage` knows after some pages. -/
structure Active where
  maxSeq : UInt32
  activeIdx : ℤ
  firstUninit : ℤ

/-- One pass of the loop of `findActivePage`. -/
def Active.see (s : Active) (i : ℕ) (header : PageHeader) : Active :=
  if header.state = PageState.active.word then
    if header.seqNumber ≥ s.maxSeq then { s with maxSeq := header.seqNumber, activeIdx := i } else s
  else if header.state = PageState.uninitialized.word ∧ s.firstUninit = -1 then { s with firstUninit := i }
  else s

def Active.result (s : Active) : ℤ × UInt32 :=
  if s.activeIdx ≠ -1 then (s.activeIdx, s.maxSeq) else (s.firstUninit, s.maxSeq)

def findActivePage : NvsM (ℤ × UInt32) := do
  let s ← (List.range numPages).foldlM (fun (s : Active) (i : ℕ) => return s.see i (← readHeader (pageAddr i))) ⟨0, -1, -1⟩
  return s.result

/-- The header `initializePage` writes. -/
def freshHeader (seqNumber : UInt32) : PageHeader :=
  let header : PageHeader := ⟨PageState.active.word, seqNumber, 0xfe, 0xffffffff, .replicate 15 0xff, 0⟩
  { header with crc32 := calculateHeaderCrc32 header }

def initializePage (pageIdx : ℤ) (seqNumber : UInt32) : NvsM EspErr := do
  spiFlashEraseSector (pageAddr pageIdx / pageSize)
  spiFlashWrite (pageAddr pageIdx) (freshHeader seqNumber).encode
  spiFlashWrite (pageAddr pageIdx + entryTableOffset) (List.replicate 32 0xff)
  return espOk

def markPageFull (pageIdx : ℤ) : NvsM EspErr := do
  let _ ← readHeader (pageAddr pageIdx)
  spiFlashWrite (pageAddr pageIdx) (le32 PageState.full.word)
  return espOk

/-- Offset 9 is the `dirty` field. -/
def markPageDirty (pageAddr : ℕ) : NvsM Unit := spiFlashWrite (pageAddr + 9) (le32 0)

/-- Write back the table words `lo..hi`. -/
def writeTableWords (pageAddr : ℕ) (table : EntryTable) (lo hi : ℕ) : NvsM Unit :=
  (List.range (hi + 1 - lo)).foldlM (fun _ k => do
    let wordData ← checked (tableWord table (lo + k))
    spiFlashWrite (pageAddr + entryTableOffset + (lo + k) * 4) wordData) ()

/-! ### Lookup -/

structure Found where
  err : EspErr
  item : Item
  pageAddr : ℕ
  entryIdx : ℕ

/-- The item is stored under this namespace and key. -/
def Item.named (item : Item) (nsIndex : UInt8) (key : List UInt8) : Prop :=
  item.nsIndex = nsIndex ∧ item.keyString = key

instance (item : Item) (nsIndex : UInt8) (key : List UInt8) : Decidable (item.named nsIndex key) :=
  inferInstanceAs (Decidable (_ ∧ _))

/-- The type asked for accepts the item. -/
def Item.typed (item : Item) (datatype : UInt8) : Prop :=
  datatype = ItemType.any.code ∨ item.datatype = datatype

instance (item : Item) (datatype : UInt8) : Decidable (item.typed datatype) := inferInstanceAs (Decidable (_ ∨ _))

/-- The chunk asked for accepts the item. -/
def Item.chunked (item : Item) (chunkIndex : UInt8) : Prop :=
  chunkIndex = 0xfe ∨ item.chunkIndex = chunkIndex

instance (item : Item) (chunkIndex : UInt8) : Decidable (item.chunked chunkIndex) := inferInstanceAs (Decidable (_ ∨ _))

/-- Subtraction on `uint32`. -/
def sub32 (a b : ℕ) : ℕ := (a + (2 ^ 32 - b)) % 2 ^ 32

/-- The cached path of `findItem`. -/
def findCached (nsIndex datatype : UInt8) (key : List UInt8) (chunkIndex : UInt8) (cachedAddr : ℕ) :
    NvsM (Option Found) :=
  if cachedAddr = 0 then pure none else do
    let item ← readItem cachedAddr
    if item.named nsIndex key ∧ item.typed datatype ∧ item.chunked chunkIndex then
      return some ⟨espOk, item, alignDown (sub32 cachedAddr entryDataOffset) pageSize,
        sub32 cachedAddr entryDataOffset % pageSize / entrySize⟩
    else return none

/-- One entry of the scan of `findItem`. -/
def scanEntry (nsIndex datatype : UInt8) (key : List UInt8) (chunkIndex : UInt8) (pageAddr : ℕ)
    (entryTable : EntryTable) (entryIdx : ℕ) : NvsM (Option Found) :=
  if getEntryState entryTable entryIdx = .written then do
    let item ← readItem (pageAddr + entryDataOffset + entryIdx * entrySize)
    if item.named nsIndex key ∧ item.chunked chunkIndex then
      if item.typed datatype then return some ⟨espOk, item, pageAddr, entryIdx⟩
      else return some ⟨espErrNvsTypeMismatch, item, pageAddr, entryIdx⟩
    else return none
  else return none

/-- One page of the scan of `findItem`. -/
def scanPage (nsIndex datatype : UInt8) (key : List UInt8) (chunkIndex : UInt8) (pageIdx : ℕ) :
    NvsM (Option Found) := do
  let header ← readHeader (pageAddr pageIdx)
  if header.state = PageState.uninitialized.word ∨ header.state = PageState.corrupt.word then return none
  else
    let entryTable ← readTable (pageAddr pageIdx)
    Prog.search (List.range entriesPerPage) (scanEntry nsIndex datatype key chunkIndex (pageAddr pageIdx) entryTable)

def findItem (env : Env) (nsIndex datatype : UInt8) (key : List UInt8) (chunkIndex : UInt8) : NvsM Found := do
  let cachedAddr := getFromCache env nsIndex key (← getCache)
  match ← findCached nsIndex datatype key chunkIndex cachedAddr with
  | some r => return r
  | none =>
    match ← Prog.search (List.range numPages) (scanPage nsIndex datatype key chunkIndex) with
    | none => return ⟨espErrNvsNotFound, .zero, 0, 0⟩
    | some r =>
      -- only the return with `ESP_OK` caches the address
      if r.err = espOk then
        modifyCache (updateCache nsIndex key (r.pageAddr + entryDataOffset + r.entryIdx * entrySize))
      return r

/-! ### Erasure -/

/-- One entry of the loop of `eraseOldItem`. -/
def eraseEntry (nsIndex datatype : UInt8) (key : List UInt8) (pageAddr : ℕ) (s : EntryTable × Bool) (entryIdx : ℕ) :
    NvsM (EntryTable × Bool) :=
  if getEntryState s.1 entryIdx = .written then do
    let item ← readItem (pageAddr + entryDataOffset + entryIdx * entrySize)
    if item.named nsIndex key ∧ item.typed datatype then
      return (← checked (setEntryStates s.1 entryIdx item.span.toNat .erased), true)
    else return s
  else return s

/-- One page of `eraseOldItem`. -/
def erasePage (nsIndex datatype : UInt8) (key : List UInt8) (pageIdx : ℕ) : NvsM Unit := do
  let entryTable ← readTable (pageAddr pageIdx)
  let (entryTable, modified) ←
    (List.range entriesPerPage).foldlM (eraseEntry nsIndex datatype key (pageAddr pageIdx)) (entryTable, false)
  if modified then
    markPageDirty (pageAddr pageIdx)
    modifyCache (invalidateCache nsIndex key)
    writeTableWords (pageAddr pageIdx) entryTable 0 7

def eraseOldItem (nsIndex datatype : UInt8) (key : List UInt8) : NvsM Unit :=
  (List.range numPages).foldlM (fun _ pageIdx => erasePage nsIndex datatype key pageIdx) ()

/-! ### Writing -/

/-- The number of entries of a value. The block count is narrowed to `uint8`. -/
def itemSpan (length : UInt32) : UInt8 :=
  if length ≤ 8 then 1 else 1 + ((length - 8 + 31) / 32).toUInt8

/-- The key field: at most 15 characters, then NUL. -/
def keyField (key : List UInt8) : Vector UInt8 16 :=
  .ofFn fun i => if i < min key.length 15 then key.getD i 0 else 0

/-- The inline data: the first 8 bytes of the value. -/
def dataField (data : Option (List UInt8)) (length : UInt32) : Vector UInt8 8 :=
  .ofFn fun i => match data with
    | some bs => if i < min 8 length.toNat then bs.getD i 0 else 0
    | none => 0

/-- The item of a value. -/
def newItem (nsIndex datatype : UInt8) (key : List UInt8) (data : Option (List UInt8)) (length : UInt32)
    (chunkIndex : UInt8) : Item :=
  let item : Item := ⟨nsIndex, datatype, itemSpan length, chunkIndex, 0, keyField key, dataField data length⟩
  { item with crc32 := calculateCrc32 item }

/-- The bytes behind the inline data, where the source writes any. -/
def payload (data : Option (List UInt8)) (length : UInt32) : Option (List UInt8) :=
  match data with
  | some bs => if itemSpan length > 1 then some ((bs.drop 8).take (length - 8).toNat) else none
  | none => none

/-- `writeItem` from line 307 on: the item, its payload and its table words. -/
def storeItem (pageAddr : ℕ) (entryTable : EntryTable) (targetEntryIdx : ℕ) (nsIndex datatype : UInt8)
    (key : List UInt8) (data : Option (List UInt8)) (length : UInt32) (chunkIndex : UInt8) : NvsM EspErr := do
  let span := (itemSpan length).toNat
  let itemAddr := pageAddr + entryDataOffset + targetEntryIdx * entrySize
  spiFlashWrite itemAddr (newItem nsIndex datatype key data length chunkIndex).encode
  match payload data length with
  | some remainingData => spiFlashWrite (itemAddr + 32) remainingData
  | none => pure ()
  let entryTable ← checked (setEntryStates entryTable targetEntryIdx span .written)
  writeTableWords pageAddr entryTable (targetEntryIdx / 4) ((targetEntryIdx + span - 1) / 4)
  modifyCache (updateCache nsIndex key itemAddr)
  return espOk

/-- `writeItem` up to line 284: the page to write to, initialised if it was not. -/
def selectPage : NvsM (ℤ × UInt32 × EntryTable) := do
  let (pageIdx, maxSeq) ← findActivePage
  let pageIdx ← if pageIdx = -1 then do let _ ← initializePage 0 (maxSeq + 1); pure 0 else pure pageIdx
  let header ← readHeader (pageAddr pageIdx)
  if header.state = PageState.uninitialized.word then
    let _ ← initializePage pageIdx (maxSeq + 1)
    let _ ← readHeader (pageAddr pageIdx)
  return (pageIdx, maxSeq, ← readTable (pageAddr pageIdx))

abbrev WriteItem := UInt8 → UInt8 → List UInt8 → Option (List UInt8) → UInt32 → UInt8 → NvsM EspErr

abbrev CompactPage := ℤ → ℤ → UInt32 → NvsM EspErr

/-- `writeItem`, lines 288 to 300: leave a page without room for the next one. -/
def switchPage (compactPage : CompactPage) (pageIdx : ℤ) (maxSeq : UInt32) : NvsM ℤ := do
  let _ ← markPageFull pageIdx
  let nextIdx := (pageIdx + 1) % numPages
  let nextHeader ← readHeader (pageAddr nextIdx)
  if nextHeader.state = PageState.uninitialized.word then
    let _ ← initializePage nextIdx (maxSeq + 1)
    return nextIdx
  else
    let _ ← compactPage nextIdx ((nextIdx + 1) % numPages) (maxSeq + 1)
    return (← findActivePage).1

/-- The body of `writeItem`. -/
def writeItemWith (compactPage : CompactPage) : WriteItem := fun nsIndex datatype key data length chunkIndex => do
  let span := (itemSpan length).toNat
  let (pageIdx, maxSeq, entryTable) ← selectPage
  match findConsecutiveEntries entryTable span with
  | some targetEntryIdx => storeItem (pageAddr pageIdx) entryTable targetEntryIdx nsIndex datatype key data length chunkIndex
  | none =>
    let pageIdx ← switchPage compactPage pageIdx maxSeq
    let entryTable ← readTable (pageAddr pageIdx)
    match findConsecutiveEntries entryTable span with
    | some targetEntryIdx => storeItem (pageAddr pageIdx) entryTable targetEntryIdx nsIndex datatype key data length chunkIndex
    | none => return espErrNvsNoFreePages

/-! ### Compaction -/

/-- `$cast[cstring](addr item.key[0])`: the bytes from the key on, up to the first NUL. -/
def keyCString (env : Env) (item : Item) : List UInt8 :=
  (item.key.toList ++ item.data.toList ++ env.stackTail).takeWhile (· != 0)

/-- The length `compactPage` gives an item of more than one entry. -/
def movedLength (span : UInt8) : UInt32 := 8 + (span.toUInt32 - 1) * 32

/-- One entry of the loop of `compactPage`. -/
def moveEntry (env : Env) (writeItem : WriteItem) (srcAddr : ℕ) (entryTable : EntryTable) (i : ℕ) : NvsM Unit :=
  if getEntryState entryTable i = .written then do
    let itemAddr := srcAddr + entryDataOffset + i * entrySize
    let item ← readItem itemAddr
    if item.span = 1 then
      let _ ← writeItem item.nsIndex item.datatype (keyCString env item) (some item.data.toList) 8 item.chunkIndex
    else if (movedLength item.span).toNat < 2 ^ 31 then
      let rest ← spiFlashRead (itemAddr + 32) ((movedLength item.span).toNat - 8)
      let _ ← writeItem item.nsIndex item.datatype (keyCString env item) (some (item.data.toList ++ rest))
        (movedLength item.span) item.chunkIndex
    -- `newSeq` takes an `int`
    else Prog.fail .range
  else pure ()

/-- The body of `compactPage`. -/
def compactPageWith (env : Env) (writeItem : WriteItem) : CompactPage := fun srcIdx destIdx nextSeq => do
  let entryTable ← readTable (pageAddr srcIdx)
  let header ← readHeader (pageAddr srcIdx)
  if header.dirty = 0xffffffff then
    let _ ← initializePage destIdx nextSeq
  else
    let _ ← initializePage destIdx nextSeq
    (List.range entriesPerPage).foldlM (fun _ i => moveEntry env writeItem (pageAddr srcIdx) entryTable i) ()
  spiFlashWrite (pageAddr srcIdx) (le32 PageState.uninitialized.word)
  return espOk

/-- `writeItem` with room for `depth` nested calls on the stack. -/
def writeItem (env : Env) : ℕ → WriteItem
  | 0 => fun _ _ _ _ _ _ => .fail .stack
  | depth + 1 => writeItemWith (compactPageWith env (writeItem env depth))

def compactPage (env : Env) (depth : ℕ) : CompactPage := compactPageWith env (writeItem env depth)

-- the elaborator must not run these on a symbolic flash
attribute [irreducible] findItem eraseOldItem storeItem selectPage switchPage writeItemWith compactPageWith

end Esp8266Sdk.Nvs
