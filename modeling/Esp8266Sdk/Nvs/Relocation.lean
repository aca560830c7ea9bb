import Esp8266Sdk.Nvs.PutSpec

/-! What `compactPage` makes of an item. It decodes the item, rebuilds key and value
from it and has `writeItem` encode them again; the slots written then hold the
same bytes as before. -/

namespace Esp8266Sdk.Nvs

open Nor Prog

variable {nsIndex datatype chunkIndex : UInt8} {data : Option (List UInt8)} {length : UInt32}

/-! ### The bytes of an item -/

/-- Byte `x` of the slots of an item: the packed item, the rest of the value, and what an erase leaves. -/
def slotByte (item : Item) (rest : Option (List UInt8)) (x : ℕ) : UInt8 :=
  if x < 32 then item.encode.getD x 0xff else (rest.getD []).getD (x - 32) 0xff

theorem slotsFlash_blank {f : Flash} {p t n : ℕ} {item : Item} {rest : Option (List UInt8)}
    (hblank : ∀ x < 32 * n, f (slotAddr p t + x) = 0xff) {x : ℕ} (hx : x < 32 * n) :
    slotsFlash f p t item rest (slotAddr p t + x) = slotByte item rest x := by
  have hb := hblank x hx
  rw [slotsFlash, slotByte]
  split_ifs with h32
  · rw [Flash.program_outside (by omega)]
    exact Flash.program_blank (by rw [Item.length_encode]; exact h32) hb
  · have hout : f.program (slotAddr p t) item.encode (slotAddr p t + x) = 0xff := by
      rw [Flash.program_outside (by rw [Item.length_encode]; omega), hb]
    rcases Nat.lt_or_ge (x - 32) (rest.getD []).length with hlt | hge
    · have hpos : slotAddr p t + x = slotAddr p t + 32 + (x - 32) := by omega
      rw [hpos] at hout ⊢
      exact Flash.program_blank hlt hout
    · rw [Flash.program_outside (by omega), hout, List.getD_eq_default _ _ hge]

/-- The bytes that `storeItem` leaves in erased slots, also where it stops at a table word. -/
theorem storeItem_bytes {w : NvsWorld} {p t : ℕ} {table : EntryTable} {key : List UInt8} (hp : p < 8)
    (hs : 1 ≤ (itemSpan length).toNat) (ht : t + (itemSpan length).toNat ≤ 126)
    (hblank : ∀ x < 32 * (itemSpan length).toNat, w.flash (slotAddr p t + x) = 0xff) {x : ℕ}
    (hx : x < 32 * (itemSpan length).toNat) :
    ((storeItem (pageAddr p) table t nsIndex datatype key data length chunkIndex).run w).2.flash (slotAddr p t + x) =
      slotByte (newItem nsIndex datatype key data length chunkIndex) (payload data length) x := by
  have hstored : ∀ T m, t / 4 + m ≤ 8 ∨ m = 0 →
      storedFlash w.flash p t (newItem nsIndex datatype key data length chunkIndex) (payload data length) T m
        (slotAddr p t + x) = slotByte (newItem nsIndex datatype key data length chunkIndex) (payload data length) x := by
    rintro T m (hm | rfl)
    · rw [storedFlash, tableFlash_outside _ T hm (.inr (by rw [slotAddr]; omega)), slotsFlash_blank hblank hx]
    · exact slotsFlash_blank hblank hx
  exact run_snd (G := fun _ _ => True) (I := fun w' => w'.flash (slotAddr p t + x) = _)
    (wp_storeItem hp hs ht trivial (fun _ _ => trivial) (fun _ _ _ _ _ => trivial)
      (fun T _ h => hstored T _ (by omega)) fun T _ h => hstored T _ (by omega))

/-! ### The rebuilt value -/

/-- The value that `compactPage` passes on for the item at entry `t`, and its length. -/
def movedValue (f : Flash) (p t : ℕ) : List UInt8 × UInt32 :=
  let item := itemAt f p t
  if item.span = 1 then (item.data.toList, 8)
  else (item.data.toList ++ f.read (slotAddr p t + 32) ((movedLength item.span).toNat - 8), movedLength item.span)

theorem moveEntry_run (env : Env) (writeItem : WriteItem) {w : NvsWorld} {p t : ℕ} (hp : p < 8) {table : EntryTable}
    (hw : getEntryState table t = .written) {item : Item} (hitem : itemAt w.flash p t = item) (hs : 1 ≤ item.span.toNat) :
    (moveEntry env writeItem (pageAddr p) table t).run w = (do
      let _ ← writeItem item.nsIndex item.datatype (keyCString env item) (some (movedValue w.flash p t).1)
        (movedValue w.flash p t).2 item.chunkIndex
      return () : NvsM Unit).run w := by
  rw [moveEntry, if_pos hw, (reads_readItem hp t).run_bind, movedValue, hitem, pageAddr_natCast hp, slotAddr_def]
  by_cases h1 : item.span = 1
  · simp only [h1, if_true]
  · have hlt : (movedLength item.span).toNat < 2 ^ 31 := by
      have h256 := item.span.toNat_lt
      rw [movedLength_toNat hs]
      omega
    simp only [h1, hlt, if_true, if_false]
    rfl

/-- The key read as a C string is the key that was stored. -/
theorem keyCString_newItem (env : Env) {key : CString} (hkey : key.bytes.length ≤ 15) :
    keyCString env (newItem nsIndex datatype key.bytes data length chunkIndex) = key.bytes := by
  have hall : ∀ c ∈ key.bytes, (c != 0) = true := by
    intro c hc
    have hne : c ≠ 0 := fun e => key.nul_free (e ▸ hc)
    simpa using hne
  have hfield : (newItem nsIndex datatype key.bytes data length chunkIndex).key = keyField key.bytes := rfl
  rw [keyCString, hfield, keyField_eq, List.take_of_length_le hkey, List.append_assoc, List.append_assoc,
    List.takeWhile_append_of_pos hall, show 16 - min key.bytes.length 15 = (15 - key.bytes.length) + 1 by omega,
    List.replicate_succ, List.cons_append, List.takeWhile_cons_of_neg (by decide), List.append_nil]

theorem dataField_self (v : Vector UInt8 8) (rest : List UInt8) {len : UInt32} (hlen : 8 ≤ len.toNat) :
    dataField (some (v.toList ++ rest)) len = v := by
  apply Vector.ext
  intro i hi
  have hmin : i < min 8 len.toNat := by omega
  rw [dataField, Vector.getElem_ofFn]
  simp only [hmin, if_true]
  rw [List.getD_append _ _ _ _ (by simpa), List.getD_eq_getElem _ _ (by simpa), Vector.getElem_toList]

/-- The item depends on the value only through its span and its first eight bytes. -/
theorem newItem_congr {key : List UInt8} {data' : Option (List UInt8)} {length' : UInt32}
    (hspan : itemSpan length' = itemSpan length) (hdata : dataField data' length' = dataField data length) :
    newItem nsIndex datatype key data' length' chunkIndex = newItem nsIndex datatype key data length chunkIndex := by
  rw [newItem, newItem, hspan, hdata]

/-- The rebuilt value of an item of more than one entry carries all bytes behind the first slot. -/
theorem payload_moved {f : Flash} {a : ℕ} {v : Vector UInt8 8} {span : UInt8} (hs : 1 ≤ span.toNat) (h1 : span ≠ 1) :
    payload (some (v.toList ++ f.read a ((movedLength span).toNat - 8))) (movedLength span) =
      some (f.read a ((movedLength span).toNat - 8)) := by
  have hml := movedLength_toNat hs
  have hgt : itemSpan (movedLength span) > 1 := by
    have hne : span.toNat ≠ 1 := fun e => h1 (UInt8.toNat_inj.1 e)
    have hspan := itemSpan_movedLength hs h1
    rw [gt_iff_lt, UInt8.lt_iff_toNat_lt, hspan]
    simp only [UInt8.reduceToNat]
    omega
  have hsub : (movedLength span - 8).toNat = (movedLength span).toNat - 8 :=
    UInt32.toNat_sub_of_le _ _ (UInt32.le_iff_toNat_le.2 (by simp only [UInt32.reduceToNat]; omega))
  have hdrop : (v.toList ++ f.read a ((movedLength span).toNat - 8)).drop 8 = f.read a ((movedLength span).toNat - 8) :=
    List.drop_left' (by simp)
  rw [payload]
  simp only [hgt, if_true]
  rw [hdrop, List.take_of_length_le (by rw [Flash.length_read, hsub])]

/-- Where the slots hold an item, the rebuilt value encodes to the same bytes. -/
theorem slotByte_moved {f : Flash} {p t : ℕ} {key : List UInt8} (hs : 1 ≤ (itemSpan length).toNat)
    (hbytes : ∀ x < 32 * (itemSpan length).toNat, f (slotAddr p t + x) =
      slotByte (newItem nsIndex datatype key data length chunkIndex) (payload data length) x)
    (hitem : itemAt f p t = newItem nsIndex datatype key data length chunkIndex) :
    itemSpan (movedValue f p t).2 = itemSpan length ∧ ∀ x < 32 * (itemSpan length).toNat,
      slotByte (newItem nsIndex datatype key (some (movedValue f p t).1) (movedValue f p t).2 chunkIndex)
        (payload (some (movedValue f p t).1) (movedValue f p t).2) x = f (slotAddr p t + x) := by
  have hspan : (itemAt f p t).span = itemSpan length := by rw [hitem]; rfl
  have hdata : (itemAt f p t).data = dataField data length := by rw [hitem]; rfl
  rw [movedValue, hspan, hdata]
  by_cases h1 : itemSpan length = 1
  · rw [if_pos h1, h1]
    have heq : newItem nsIndex datatype key (some ((dataField data length).toList ++ [])) 8 chunkIndex =
        newItem nsIndex datatype key data length chunkIndex :=
      newItem_congr (by rw [h1]; rfl) (dataField_self _ _ le_rfl)
    rw [List.append_nil] at heq
    refine ⟨rfl, fun x hx => ?_⟩
    have hx32 : x < 32 := hx
    rw [hbytes x (by rw [h1]; exact hx), slotByte, slotByte, if_pos hx32, if_pos hx32, heq]
  · have hml := movedLength_toNat hs
    have hrespan : itemSpan (movedLength (itemSpan length)) = itemSpan length :=
      UInt8.toNat_inj.1 (itemSpan_movedLength hs h1)
    rw [if_neg h1]
    refine ⟨hrespan, fun x hx => ?_⟩
    have heq : newItem nsIndex datatype key
        (some ((dataField data length).toList ++ f.read (slotAddr p t + 32) ((movedLength (itemSpan length)).toNat - 8)))
        (movedLength (itemSpan length)) chunkIndex = newItem nsIndex datatype key data length chunkIndex :=
      newItem_congr hrespan (dataField_self _ _ (by omega))
    rw [heq, slotByte, payload_moved hs h1]
    split_ifs with hx32
    · rw [hbytes x hx, slotByte, if_pos hx32]
    · rw [Option.getD_some, Flash.getD_read, if_pos (by omega)]
      congr 1
      omega

/-- The item in slots that hold its bytes. -/
theorem itemAt_of_slotByte {f : Flash} {p t : ℕ} {item : Item} {rest : Option (List UInt8)}
    (h : ∀ x < 32, f (slotAddr p t + x) = slotByte item rest x) : itemAt f p t = item := by
  have hread : f.read (slotAddr p t) 32 = item.encode := by
    apply List.ext_getElem (by simp)
    intro x hx hx'
    have hx32 : x < 32 := by simpa using hx
    rw [Flash.getElem_read, h x hx32, slotByte, if_pos hx32, List.getD_eq_getElem _ _ hx']
  rw [itemAt, hread, Item.decode_encode]

theorem movedValue_length {f : Flash} {p t : ℕ} {item : Item} (h : itemAt f p t = item) :
    (movedValue f p t).2 = if item.span = 1 then 8 else movedLength item.span := by
  rw [movedValue, h]
  exact apply_ite Prod.snd _ _ _

/-! ### The move -/

/-- Of slots that still hold the bytes `writeItem` left in them, `compactPage` makes
an argument list for `writeItem` that has it leave the same bytes in the slots it
takes, wherever these are erased: the item's header, span, checksum and payload. -/
theorem relocation_exact (env : Env) {key : CString} (hkey : key.bytes.length ≤ 15)
    (hs : 1 ≤ (itemSpan length).toNat) {p t : ℕ} (hp : p < 8) (ht : t + (itemSpan length).toNat ≤ 126) {w₀ w : NvsWorld}
    {table : EntryTable} (hblank : ∀ x < 32 * (itemSpan length).toNat, w₀.flash (slotAddr p t + x) = 0xff)
    (hkept : ∀ x < 32 * (itemSpan length).toNat, w.flash (slotAddr p t + x) =
      ((storeItem (pageAddr p) table t nsIndex datatype key.bytes data length chunkIndex).run w₀).2.flash
        (slotAddr p t + x)) :
    ∃ data' length', length' = (if itemSpan length = 1 then 8 else movedLength (itemSpan length)) ∧
      (∀ (writeItem : WriteItem) (table' : EntryTable), getEntryState table' t = .written →
        (moveEntry env writeItem (pageAddr p) table' t).run w = (do
          let _ ← writeItem nsIndex datatype key.bytes data' length' chunkIndex
          return () : NvsM Unit).run w) ∧
      ∀ (w₂ : NvsWorld) (table₂ : EntryTable) (q u : ℕ), q < 8 → u + (itemSpan length).toNat ≤ 126 →
        (∀ x < 32 * (itemSpan length).toNat, w₂.flash (slotAddr q u + x) = 0xff) →
        ∀ x < 32 * (itemSpan length).toNat,
          ((storeItem (pageAddr q) table₂ u nsIndex datatype key.bytes data' length' chunkIndex).run w₂).2.flash
            (slotAddr q u + x) = w.flash (slotAddr p t + x) := by
  have hbytes : ∀ x < 32 * (itemSpan length).toNat, w.flash (slotAddr p t + x) =
      slotByte (newItem nsIndex datatype key.bytes data length chunkIndex) (payload data length) x :=
    fun x hx => (hkept x hx).trans (storeItem_bytes hp hs ht hblank hx)
  have hitem : itemAt w.flash p t = newItem nsIndex datatype key.bytes data length chunkIndex :=
    itemAt_of_slotByte fun x hx => hbytes x (by omega)
  obtain ⟨hspan, hmoved⟩ := slotByte_moved hs hbytes hitem
  refine ⟨some (movedValue w.flash p t).1, (movedValue w.flash p t).2, movedValue_length hitem, fun writeItem table' hw => ?_, fun w₂ table₂ q u hq hu herased x hx => ?_⟩
  · rw [moveEntry_run env writeItem hp hw hitem hs, keyCString_newItem env hkey]
    rfl
  · rw [← hspan] at hu herased hx hs
    rw [storeItem_bytes hq hs hu herased hx]
    exact hmoved x (by rwa [hspan] at hx)

/-- A blob of 40 bytes at the first entry of a page, in its two slots. -/
theorem relocation_exact_factory :
    let w := ((storeItem (pageAddr (0 : ℕ)) (.replicate 32 0xff) 0 1 ItemType.blob.code keyA.bytes
      (some (List.replicate 40 7)) 40 0xff).run factory).2
    ∃ data' length', length' = 40 ∧
      (∀ (writeItem : WriteItem) (table' : EntryTable), getEntryState table' 0 = .written →
        (moveEntry (.built []) writeItem (pageAddr (0 : ℕ)) table' 0).run w = (do
          let _ ← writeItem 1 ItemType.blob.code keyA.bytes data' length' 0xff
          return () : NvsM Unit).run w) ∧
      ∀ (w₂ : NvsWorld) (table₂ : EntryTable) (q u : ℕ), q < 8 → u + 2 ≤ 126 →
        (∀ x < 64, w₂.flash (slotAddr q u + x) = 0xff) →
        ∀ x < 64, ((storeItem (pageAddr q) table₂ u 1 ItemType.blob.code keyA.bytes data' length' 0xff).run
          w₂).2.flash (slotAddr q u + x) = w.flash (slotAddr 0 0 + x) :=
  @relocation_exact 1 ItemType.blob.code 0xff (some (List.replicate 40 7)) 40 (.built []) keyA (by decide) (by decide) 0 0
    (by decide) (by decide) factory _ (.replicate 32 0xff) (fun _ _ => rfl) fun _ _ => rfl

end Esp8266Sdk.Nvs
