import Esp8266Sdk.Spi.Host
import Esp8266Sdk.Nvs.RamUse
import Esp8266Sdk.Nvs.GetSpec

/-! The store on the flash driver. The requests of every public call lie inside the
chip, whatever is on flash, as long as its buffers are of a size that the RAM of
the device could hold: the addresses in the cache are those of item slots, and
the length in front of a moved item is at most 255 blocks. So every run of the
store on the driver is a run of the store on the flash. -/

namespace Esp8266Sdk.Nvs

open Nor Prog Spi

/-- The first megabytes of a chip, as long as the partition ends in the middle of them. -/
def chipPart : ℕ := 0x200000

/-- The program asks only for bytes of that part, and it keeps the cache to slots. -/
abbrev OnChip {α : Type} (p : NvsM α) : Prop := Modest (fun a n => a + n ≤ chipPart) (InChip chipPart) SlotCache p

namespace OnChip

variable {α : Type} {nsIndex datatype chunkIndex : UInt8} {key : List UInt8}

theorem read {a n : ℕ} (h : a + n ≤ chipPart) (g : List UInt8 → α) : OnChip (do return g (← spiFlashRead a n)) := by
  refine Modest.read ?_ fun bs => Modest.pure (g bs)
  exact h

theorem write {a : ℕ} {bs : List UInt8} (h : a + bs.length ≤ chipPart) (hl : bs.length ≤ 65536) :
    OnChip (spiFlashWrite a bs) := .step ⟨h, hl⟩ (.pure ())

theorem checked (o : Option α) : OnChip (checked o) := by
  cases o with
  | none => exact .fail _
  | some a => exact .pure a

theorem base_le {p : ℕ} (hp : p < 8) : base p + 4096 ≤ 0x108000 := by
  simp only [base]
  omega

theorem slotAddr_le {p i : ℕ} (hp : p < 8) (hi : i < 126) : slotAddr p i + 32 ≤ 0x108000 := by
  have h := base_le hp
  simp only [slotAddr]
  omega

theorem readHeader {p : ℕ} (hp : p < 8) : OnChip (readHeader (pageAddr p)) := by
  have h := base_le hp
  rw [pageAddr_natCast hp]
  exact read (by simp only [chipPart]; omega) _

theorem readTable {p : ℕ} (hp : p < 8) : OnChip (readTable (pageAddr p)) := by
  have h := base_le hp
  rw [pageAddr_natCast hp]
  exact read (by simp only [chipPart, entryTableOffset]; omega) _

theorem readItem {p i : ℕ} (hp : p < 8) (hi : i < 126) : OnChip (readItem (pageAddr p + entryDataOffset + i * entrySize)) := by
  have h := slotAddr_le hp hi
  rw [pageAddr_natCast hp, slotAddr_def]
  exact read (by simp only [chipPart]; omega) _

theorem initializePage {p : ℕ} (hp : p < 8) (seqNumber : UInt32) : OnChip (initializePage p seqNumber) := by
  have h := base_le hp
  rw [Nvs.initializePage, pageAddr_natCast hp]
  have hdiv : base p / pageSize * pageSize = base p := by
    simp only [base, pageSize]
    omega
  refine .bind ?_ fun _ _ => .bind (write ?_ ?_) fun _ _ => .bind (write ?_ ?_) fun _ _ => .pure _
  · refine .step ⟨?_, rfl, ?_⟩ (.pure ())
    · exact Nat.mul_mod_left _ _
    · rw [hdiv]
      simp only [chipPart, sectorSize]
      omega
  · simp only [PageHeader.length_encode, chipPart]
    omega
  · simp [PageHeader.length_encode]
  · simp only [List.length_replicate, chipPart, entryTableOffset]
    omega
  · simp

theorem markPageFull {p : ℕ} (hp : p < 8) : OnChip (markPageFull p) := by
  have h := base_le hp
  refine .bind (readHeader hp) fun _ _ => .bind (write ?_ ?_) fun _ _ => .pure _
  · rw [pageAddr_natCast hp, length_le32]
    simp only [chipPart]
    omega
  · simp [length_le32]

theorem writeTableWords {p : ℕ} (hp : p < 8) (table : EntryTable) (lo hi : ℕ) :
    OnChip (writeTableWords (pageAddr p) table lo hi) := by
  have h := base_le hp
  refine .foldlM (fun _ k _ => ?_) _
  by_cases hw : lo + k < 8
  · rw [tableWord_of_lt table hw]
    refine .bind (.pure _) fun bs hbs => ?_
    obtain ⟨w, w', -, hr⟩ := hbs
    obtain rfl : (table.toList.drop (4 * (lo + k))).take 4 = bs := Except.ok.inj (Prod.mk.inj hr).1
    have hl : ((table.toList.drop (4 * (lo + k))).take 4).length ≤ 4 := List.length_take_le _ _
    rw [pageAddr_natCast hp]
    exact write (by simp only [chipPart, entryTableOffset]; omega) (by omega)
  · rw [tableWord, if_neg hw]
    exact .bind (.fail _) fun _ hr => by
      obtain ⟨w, w', -, hr⟩ := hr
      cases hr

/-! ### Lookup -/

theorem findCached {cache : Cache} (hc : SlotCache cache) (env : Env) :
    OnChip (findCached nsIndex datatype key chunkIndex (getFromCache env nsIndex key cache)) := by
  rw [Nvs.findCached]
  split
  · exact .pure _
  · rename_i h0
    have hslot : ∃ p < 8, ∃ i < 126, getFromCache env nsIndex key cache = slotAddr p i := by
      rcases getFromCache_cases env nsIndex key cache with h | ⟨-, k, hk, -, -, h⟩
      · exact absurd h h0
      · obtain ⟨p, hp, i, hi, he⟩ := hc k hk (h ▸ h0)
        exact ⟨p, hp, i, hi, h.trans he⟩
    obtain ⟨p, hp, i, hi, he⟩ := hslot
    have hle := slotAddr_le hp hi
    rw [he]
    refine .bind (read (by simp only [chipPart]; omega) _) fun item _ => ?_
    split
    · exact .pure _
    · exact .pure _

theorem scanPage {p : ℕ} (hp : p < 8) : OnChip (scanPage nsIndex datatype key chunkIndex p) := by
  rw [Nvs.scanPage]
  refine .bind (readHeader hp) fun header _ => ?_
  split
  · exact .pure _
  refine .bind (readTable hp) fun table _ => .search fun i hi => ?_
  rw [scanEntry]
  split
  · refine .bind (readItem hp (List.mem_range.1 hi)) fun item _ => ?_
    split
    · split
      · exact .pure _
      · exact .pure _
    · exact .pure _
  · exact .pure _

/-- The scan answers with an entry of a page. -/
theorem slot_of_scan {w w' : NvsWorld} {r : Found}
    (hr : (Prog.search (List.range numPages) (Nvs.scanPage nsIndex datatype key chunkIndex)).run w = (.ok (some r), w')) :
    ∃ p < 8, ∃ i < 126, r.pageAddr = base p ∧ r.entryIdx = i := by
  rw [(reads_scan nsIndex datatype key chunkIndex).run] at hr
  obtain ⟨p, i, ⟨hm, -⟩, rfl⟩ := scan_eq_some_iff.1 (Except.ok.inj (Prod.mk.inj hr).1)
  exact ⟨p, hm.1, i, hm.2.1, rfl, rfl⟩

theorem findItem (env : Env) : OnChip (findItem env nsIndex datatype key chunkIndex) := by
  rw [Nvs.findItem]
  refine .bind (.get fun s hs => .pure s) fun cache hcache => ?_
  have hcache : SlotCache cache := by
    obtain ⟨w, w', hI, hr⟩ := hcache
    obtain rfl : w.ram = cache := Except.ok.inj (Prod.mk.inj hr).1
    exact hI
  refine .bind (findCached hcache env) fun o _ => ?_
  cases o with
  | some r => exact .pure _
  | none =>
    refine .bind (.search fun p hp => scanPage (List.mem_range.1 hp)) fun o ho => ?_
    cases o with
    | none => exact .pure _
    | some r =>
      obtain ⟨w, w', -, hr⟩ := ho
      obtain ⟨p, hp, i, hi, hpage, hentry⟩ := slot_of_scan hr
      simp only
      split
      · refine .bind (.modify (fun s hs => ?_) (.pure ())) fun _ _ => .pure _
        rw [hpage, hentry, slotAddr_def]
        exact slotInvariant_slotCache.update _ _ hp hi hs
      · exact .pure _

/-! ### Erasure -/

theorem eraseEntry {p i : ℕ} (hp : p < 8) (hi : i < 126) (x : EntryTable × Bool) :
    OnChip (eraseEntry nsIndex datatype key (pageAddr p) x i) := by
  rw [Nvs.eraseEntry]
  split
  · refine .bind (readItem hp hi) fun item _ => ?_
    split
    · exact .bind (checked _) fun _ _ => .pure _
    · exact .pure _
  · exact .pure _

theorem eraseOldItem : OnChip (eraseOldItem nsIndex datatype key) := by
  rw [Nvs.eraseOldItem]
  refine .foldlM (fun _ p hp => ?_) _
  have hp : p < 8 := List.mem_range.1 hp
  refine .bind (readTable hp) fun table _ => .bind (.foldlM (fun x i hi => eraseEntry hp (List.mem_range.1 hi) x) _) fun x _ => ?_
  simp only
  split
  · refine .bind (write ?_ ?_) fun _ _ => .bind (.modify (fun s hs => slotInvariant_slotCache.invalidate _ _ hs) (.pure ()))
      fun _ _ => writeTableWords hp _ _ _
    · have h := base_le hp
      rw [pageAddr_natCast hp, length_le32]
      simp only [chipPart]
      omega
    · simp [length_le32]
  · exact .pure _

theorem eraseAll (handle : UInt32) : OnChip (nvsEraseAll handle) := by
  refine .bind (.foldlM (fun _ p hp => ?_) _) fun _ _ => .pure _
  have hp : p < 8 := List.mem_range.1 hp
  refine .bind (readTable hp) fun table _ => .bind (.foldlM (fun x i hi => ?_) _) fun x _ => ?_
  · rw [eraseAllEntry]
    split
    · refine .bind (readItem hp (List.mem_range.1 hi)) fun item _ => ?_
      split
      · exact .bind (checked _) fun _ _ => .pure _
      · exact .pure _
    · exact .pure _
  · simp only
    split
    · exact writeTableWords hp _ _ _
    · exact .pure _

/-! ### Writing -/

/-- The bytes of a value behind its inline data. -/
theorem payload_le {data : Option (List UInt8)} {length : UInt32} {rest : List UInt8} (h : payload data length = some rest) :
    rest.length ≤ length.toNat := by
  cases data with
  | none => cases h
  | some bs =>
    simp only [payload] at h
    split_ifs at h with hspan
    rw [← Option.some.inj h]
    have h8 : 8 ≤ length := by
      by_contra hlt
      rw [itemSpan, if_pos (UInt32.le_of_lt (UInt32.not_le.1 hlt))] at hspan
      exact absurd hspan (by decide)
    have hsub := UInt32.toNat_sub_of_le _ _ h8
    exact (List.length_take_le _ _).trans (by omega)

theorem storeItem {p t : ℕ} (hp : p < 8) (ht : t < 126) (table : EntryTable) (data : Option (List UInt8)) {length : UInt32}
    (hl : length.toNat ≤ 65536) :
    OnChip (storeItem (pageAddr p) table t nsIndex datatype key data length chunkIndex) := by
  have hle := slotAddr_le hp ht
  rw [Nvs.storeItem]
  refine .bind (write ?_ ?_) fun _ _ => ?_
  · rw [pageAddr_natCast hp, slotAddr_def, Item.length_encode]
    simp only [chipPart]
    omega
  · simp [Item.length_encode]
  have hrest : ∀ _ : Unit, OnChip (do
      let entryTable ← Nvs.checked (setEntryStates table t (itemSpan length).toNat .written)
      Nvs.writeTableWords (pageAddr p) entryTable (t / 4) ((t + (itemSpan length).toNat - 1) / 4)
      modifyCache (updateCache nsIndex key (pageAddr p + entryDataOffset + t * entrySize))
      return espOk) := by
    intro _
    refine .bind (checked _) fun table _ => .bind (writeTableWords hp _ _ _) fun _ _ =>
      .bind (.modify (fun s hs => ?_) (.pure ())) fun _ _ => .pure _
    rw [pageAddr_natCast hp, slotAddr_def]
    exact slotInvariant_slotCache.update _ _ hp ht hs
  cases hpay : payload data length with
  | none => exact hrest ()
  | some rest =>
    have hrl := payload_le hpay
    refine .bind (write ?_ (hrl.trans hl)) fun u _ => hrest u
    rw [pageAddr_natCast hp, slotAddr_def]
    simp only [chipPart]
    omega

theorem findActivePage : OnChip findActivePage :=
  .bind (.foldlM (fun _ _ hi => .bind (readHeader (List.mem_range.1 hi)) fun _ _ => .pure _) _) fun _ _ => .pure _

/-- The page of a scan for the active one, and what `writeItem` does with it. -/
theorem page_of_findActivePage {w w' : NvsWorld} {x : ℤ × UInt32} (h : Nvs.findActivePage.run w = (.ok x, w')) :
    x.1 = -1 ∨ ∃ p < 8, x.1 = (p : ℕ) := by
  rw [reads_findActivePage.run] at h
  obtain rfl : activePage w.flash = x := Except.ok.inj (Prod.mk.inj h).1
  rcases activePage_cases w.flash with ⟨r, hr, he, -⟩ | ⟨-, r, hr, he, -⟩ | ⟨-, -, he⟩
  · exact .inr ⟨r, hr, he⟩
  · exact .inr ⟨r, hr, he⟩
  · exact .inl he

theorem selectPage : OnChip selectPage := by
  rw [Nvs.selectPage]
  refine .bind findActivePage fun x hx => ?_
  have hrest : ∀ p : ℕ, p < 8 → OnChip (do
      let header ← Nvs.readHeader (pageAddr p)
      if header.state = PageState.uninitialized.word then
        let _ ← Nvs.initializePage p (x.2 + 1)
        let _ ← Nvs.readHeader (pageAddr p)
        return ((p : ℤ), x.2, ← Nvs.readTable (pageAddr p))
      else return ((p : ℤ), x.2, ← Nvs.readTable (pageAddr p))) := by
    intro p hp
    refine .bind (readHeader hp) fun header _ => ?_
    split
    · exact .bind (initializePage hp _) fun _ _ => .bind (readHeader hp) fun _ _ => .bind (readTable hp) fun _ _ => .pure _
    · exact .bind (readTable hp) fun _ _ => .pure _
  have hpage : x.1 = -1 ∨ ∃ p < 8, x.1 = (p : ℕ) := by
    obtain ⟨w, w', -, hr⟩ := hx
    exact page_of_findActivePage hr
  simp only
  split
  · exact .bind (initializePage (p := 0) (by omega) _) fun _ _ => .bind (.pure _) fun z hz => by
      obtain ⟨w, w', -, hr⟩ := hz
      obtain rfl : (0 : ℤ) = z := Except.ok.inj (Prod.mk.inj hr).1
      exact hrest 0 (by omega)
  · rename_i hne
    obtain ⟨p, hp, he⟩ := hpage.resolve_left hne
    refine .bind (.pure _) fun z hz => ?_
    obtain ⟨w, w', -, hr⟩ := hz
    obtain rfl : x.1 = z := Except.ok.inj (Prod.mk.inj hr).1
    rw [he]
    exact hrest p hp

variable {env : Env}

theorem switchPage {compactPage : CompactPage} (hc : ∀ src < 8, ∀ dest < 8, ∀ nextSeq, OnChip (compactPage (src : ℕ) (dest : ℕ) nextSeq))
    {p : ℕ} (hp : p < 8) (maxSeq : UInt32) : OnChip (switchPage compactPage p maxSeq) := by
  rw [Nvs.switchPage]
  simp only [next_natCast]
  refine .bind (markPageFull hp) fun _ _ => .bind (readHeader (nextPage_lt p)) fun header _ => ?_
  split
  · exact .bind (initializePage (nextPage_lt p) _) fun _ _ => .pure _
  · exact .bind (hc _ (nextPage_lt p) _ (nextPage_lt _) _) fun _ _ => .bind findActivePage fun _ _ => .pure _

theorem writeItemWith {depth : ℕ} (hc : ∀ src < 8, ∀ dest < 8, ∀ nextSeq, OnChip (compactPage env depth (src : ℕ) (dest : ℕ) nextSeq))
    (data : Option (List UInt8)) {length : UInt32} (hl : length.toNat ≤ 65536) :
    OnChip (writeItemWith (compactPage env depth) nsIndex datatype key data length chunkIndex) := by
  rw [Nvs.writeItemWith]
  refine .bind selectPage fun x hx => ?_
  obtain ⟨pageIdx, maxSeq, table⟩ := x
  obtain ⟨w, w', -, hx⟩ := hx
  obtain ⟨p, hp, rfl, -⟩ := page_of_selectPage hx
  simp only
  split
  · rename_i t ht
    obtain ⟨hs, ht⟩ := room_of_some ht
    exact storeItem hp (by omega) _ _ hl
  · refine .bind (switchPage hc hp _) fun s hs => ?_
    obtain ⟨v, v', -, hs⟩ := hs
    obtain ⟨q, hq, rfl⟩ := page_of_switchPage hp ⟨v, v', hs⟩
    refine .bind (readTable hq) fun table _ => ?_
    split
    · rename_i t ht
      obtain ⟨hs, ht⟩ := room_of_some ht
      exact storeItem hq (by omega) _ _ hl
    · exact .pure _

theorem compactPageWith {writeItem : WriteItem}
    (hw : ∀ nsIndex datatype key data (length : UInt32) chunkIndex, length.toNat ≤ 65536 →
      OnChip (writeItem nsIndex datatype key data length chunkIndex))
    {src dest : ℕ} (hsrc : src < 8) (hdest : dest < 8) (nextSeq : UInt32) :
    OnChip (compactPageWith env writeItem src dest nextSeq) := by
  rw [Nvs.compactPageWith]
  have hpage := base_le hsrc
  have hmove : ∀ (table : EntryTable), ∀ i < 126, OnChip (moveEntry env writeItem (pageAddr src) table i) := by
    intro table i hi
    have hle := slotAddr_le hsrc hi
    rw [moveEntry]
    split
    · refine .bind (readItem hsrc hi) fun item _ => ?_
      split
      · exact .bind (hw _ _ _ _ _ _ (by decide)) fun _ _ => .pure _
      split
      · rename_i hspan
        have hpos := span_pos_of_movedLength hspan
        have hlen := movedLength_toNat hpos
        have hlt := item.span.toNat_lt
        rw [pageAddr_natCast hsrc, slotAddr_def]
        exact .bind (read (by simp only [chipPart]; omega) id) fun _ _ => .bind (hw _ _ _ _ _ _ (by omega)) fun _ _ => .pure _
      · exact .fail _
    · exact .pure _
  have hstate : OnChip (do spiFlashWrite (pageAddr src) (le32 PageState.uninitialized.word); return espOk) := by
    refine .bind (write ?_ ?_) fun _ _ => .pure _
    · rw [pageAddr_natCast hsrc, length_le32]
      simp only [chipPart]
      omega
    · simp [length_le32]
  refine .bind (readTable hsrc) fun table _ => .bind (readHeader hsrc) fun header _ => ?_
  split
  · exact .bind (initializePage hdest _) fun _ _ => hstate
  · exact .bind (initializePage hdest _) fun _ _ => .bind (.foldlM (fun _ i hi => hmove table i (List.mem_range.1 hi)) _)
      fun _ _ => hstate

/-- By induction on the stack depth. -/
theorem writeItem (env : Env) (depth : ℕ) (nsIndex datatype : UInt8) (key : List UInt8) (data : Option (List UInt8))
    (length : UInt32) (chunkIndex : UInt8) (hl : length.toNat ≤ 65536) :
    OnChip (writeItem env depth nsIndex datatype key data length chunkIndex) := by
  induction depth generalizing nsIndex datatype key data length chunkIndex with
  | zero => exact .fail _
  | succ depth ih => exact writeItemWith (fun src hsrc dest hdest nextSeq => compactPageWith ih hsrc hdest nextSeq) data hl

/-! ### Calls -/

/-- The slot of an item that was found. -/
theorem slot_of_findItem {w w' : NvsWorld} (hI : SlotCache w.ram) {r : Found}
    (hr : (Nvs.findItem env nsIndex datatype key chunkIndex).run w = (.ok r, w')) (hok : r.err = espOk) :
    ∃ p < 8, ∃ i < 126, r.pageAddr + entryDataOffset + r.entryIdx * entrySize = slotAddr p i := by
  rw [run_findItem] at hr
  obtain rfl : (lookup env w nsIndex datatype key chunkIndex).1 = r := Except.ok.inj (Prod.mk.inj hr).1
  revert hok
  rw [lookup]
  cases hcached : cachedAt w.flash nsIndex datatype key chunkIndex (getFromCache env nsIndex key w.ram) with
  | some r =>
    intro _
    rcases getFromCache_cases env nsIndex key w.ram with h | ⟨-, k, hk, -, -, h⟩
    · rw [h, cachedAt_zero] at hcached
      cases hcached
    · have h0 : (w.ram[k]).address ≠ 0 := by
        intro h0
        rw [h, h0, cachedAt_zero] at hcached
        cases hcached
      obtain ⟨p, hp, i, hi, he⟩ := hI k hk h0
      rw [h, he, cachedAt_slot _ _ _ _ _ hp hi] at hcached
      split_ifs at hcached
      obtain rfl := Option.some.inj hcached
      exact ⟨p, hp, i, hi, rfl⟩
  | none =>
    cases hscan : scan w.flash nsIndex datatype key chunkIndex with
    | none => exact fun h => absurd (show notFound.err = espOk from h) (by decide)
    | some r =>
      intro _
      obtain ⟨p, i, ⟨hm, -⟩, rfl⟩ := scan_eq_some_iff.1 hscan
      exact ⟨p, hm.1, i, hm.2.1, rfl⟩

theorem copyOut {r : Found} {p i : ℕ} (hp : p < 8) (hi : i < 126)
    (hr : r.pageAddr + entryDataOffset + r.entryIdx * entrySize = slotAddr p i) {copyLen : UInt32}
    (hl : copyLen.toNat ≤ 65536) : OnChip (copyOut r copyLen) := by
  have hle := slotAddr_le hp hi
  rw [Nvs.copyOut, hr]
  simp only
  split
  · rename_i h8
    have hsub := UInt32.toNat_sub_of_le _ _ (UInt32.le_of_lt h8)
    exact .bind (read (by simp only [chipPart]; omega) id) fun _ _ => .pure _
  · exact .bind (.pure _) fun _ _ => .pure _

end OnChip

/-- The buffer of the call, if it has one, is no larger than 64 KiB. -/
def Call.Small : Call → Prop
  | .get (.str (some length)) _ _ => length.toNat ≤ 65536
  | .get (.blob (some length)) _ _ => length.toNat ≤ 65536
  | .set s _ _ => s.length.toNat ≤ 65536
  | _ => True

theorem copyLen_le (a b : UInt32) : (if a ≤ b then a else b).toNat ≤ b.toNat := by
  split_ifs with h
  · exact h
  · exact Nat.le_refl _

theorem onChip_getter (env : Env) (g : Getter) (handle : UInt32) (key : CString) (h : (Call.get g handle key).Small) :
    OnChip (g.prog env handle key) := by
  cases g with
  | scalar k =>
    rw [Getter.prog, Scalar.get_eq, nvsGetScalar]
    refine .bind (OnChip.findItem env) fun r _ => ?_
    split
    · exact .pure _
    · exact .pure _
  | str capacity =>
    rw [Getter.prog, nvsGetStr]
    refine .bind (OnChip.findItem env) fun r hr => ?_
    split
    · exact .pure _
    rename_i hok
    cases capacity with
    | none => exact .pure _
    | some length =>
      obtain ⟨w, w', hI, hr⟩ := hr
      obtain ⟨p, hp, i, hi, he⟩ := OnChip.slot_of_findItem hI hr (not_not.1 hok)
      refine .bind (OnChip.copyOut hp hi he ((copyLen_le _ _).trans h)) fun out _ => ?_
      split
      · exact .bind (OnChip.checked _) fun _ _ => .pure _
      · exact .fail _
  | blob capacity =>
    rw [Getter.prog, nvsGetBlob]
    refine .bind (OnChip.findItem env) fun r hr => ?_
    split
    · exact .pure _
    rename_i hok
    cases capacity with
    | none => exact .pure _
    | some length =>
      obtain ⟨w, w', hI, hr⟩ := hr
      obtain ⟨p, hp, i, hi, he⟩ := OnChip.slot_of_findItem hI hr (not_not.1 hok)
      exact .bind (OnChip.copyOut hp hi he ((copyLen_le _ _).trans h)) fun out _ => .pure _

/-- The requests of every call. -/
theorem onChip_call (env : Env) (depth : ℕ) {c : Call} (h : c.Small) : OnChip (c.prog env depth) := by
  cases c with
  | flashInit =>
    rw [Call.prog, nvsFlashInit]
    refine .bind OnChip.findActivePage fun x _ => ?_
    obtain ⟨pageIdx, seqNumber⟩ := x
    simp only
    split
    · exact .bind (OnChip.initializePage (p := 0) (by omega) _) fun _ _ => .pure _
    · exact .pure _
  | flashDeinit => exact .pure _
  | flashErase =>
    refine .bind (.foldlM (fun _ i hi => ?_) _) fun _ _ => .pure _
    have hi : i < 8 := List.mem_range.1 hi
    refine .step ⟨Nat.mul_mod_left _ _, rfl, ?_⟩ (.pure ())
    simp only [nvsPartitionOffset, pageSize, sectorSize, chipPart]
    omega
  | «open» name =>
    rw [Call.prog, nvsOpen]
    split
    · exact .pure _
    refine .bind (OnChip.findItem env) fun r _ => ?_
    split
    · exact .pure _
    refine .bind (OnChip.writeItem env depth _ _ _ _ _ _ (by decide)) fun e _ => ?_
    split
    · exact .pure _
    · exact .pure _
  | close handle => exact .pure _
  | commit handle => exact .pure _
  | get g handle key => exact onChip_getter env g handle key h
  | set s handle key =>
    rw [Call.prog, Setter.prog_eq, nvsSetValue]
    exact .bind OnChip.eraseOldItem fun _ _ => .bind (OnChip.writeItem env depth _ _ _ _ _ _ h) fun _ _ => .pure _
  | eraseKey handle key => exact .bind OnChip.eraseOldItem fun _ _ => .pure _
  | eraseAll handle => exact OnChip.eraseAll handle

/-! ### Runs -/

/-- What a device does with its store: a call with its stack depth, or a restart. -/
inductive Use where
  | call (depth : ℕ) (c : Call)
  | restart

/-- The calls have small buffers. -/
def Use.Small : Use → Prop
  | .call _ c => c.Small
  | .restart => True

/-- The world after a call. A call that does not return ends in a restart. -/
def settle {α : Type} : Except Defect α × NvsWorld → NvsWorld
  | (.ok _, w) => w
  | (.error _, w) => powerOn w.flash

/-- The results of the calls and the world they leave. -/
def uses (env : Env) : List Use → NvsWorld → List (Except Defect Reply) × NvsWorld
  | [], w => ([], w)
  | .restart :: l, w => uses env l (powerOn w.flash)
  | .call depth c :: l, w =>
    let r := (c.prog env depth).run w
    let rest := uses env l (settle r)
    (r.1 :: rest.1, rest.2)

/-- The cache after a call on the driver. -/
def settleCache {α : Type} : Except Defect α × Cache → Cache
  | (.ok _, cache) => cache
  | (.error _, _) => .empty

/-- The same on the driver, which holds the flash. -/
def usesOnDriver {χ : Type} (rom : Rom χ) (host : Host) (env : Env) :
    List Use → Cache → DevM χ (List (Except Defect Reply) × Cache)
  | [], cache => return ([], cache)
  | .restart :: l, _ => usesOnDriver rom host env l .empty
  | .call depth c :: l, cache => do
    let r ← onDriver rom host (c.prog env depth) cache
    let rest ← usesOnDriver rom host env l (settleCache r)
    return (r.1 :: rest.1, rest.2)

theorem settle_spec {α : Type} (r : Except Defect α × NvsWorld) :
    (settle r).ram = settleCache (r.1, r.2.ram) ∧ (settle r).flash = r.2.flash := by
  obtain ⟨e | a, w⟩ := r <;> exact ⟨rfl, rfl⟩

theorem slotCache_settle {α : Type} {r : Except Defect α × NvsWorld} (h : SlotCache r.2.ram) : SlotCache (settle r).ram := by
  obtain ⟨e | a, w⟩ := r
  · exact slotCache_empty
  · exact h

/-- By induction on the uses: the driver under the store gives the answers of the
store, and the chip holds its flash. -/
theorem usesOnDriver_run {χ : Type} {rom : Rom χ} (hs : rom.Sound) (hrel : rom.Reliable) (hsize : chipPart ≤ rom.chipSize)
    (host : Host) (env : Env) (l : List Use) (w : NvsWorld) (c : χ) (hl : ∀ u ∈ l, u.Small) (hram : SlotCache w.ram)
    (hf : rom.flash c = w.flash) :
    DevM.Ends (usesOnDriver rom host env l w.ram) c fun r c' =>
      r = ((uses env l w).1, (uses env l w).2.ram) ∧ rom.flash c' = (uses env l w).2.flash := by
  induction l generalizing w c with
  | nil => exact .pure ⟨rfl, hf⟩
  | cons u l ih =>
    have hrest : ∀ u ∈ l, u.Small := fun v hv => hl v (List.mem_cons_of_mem _ hv)
    cases u with
    | restart => exact ih (powerOn w.flash) c hrest slotCache_empty hf
    | call depth call =>
      obtain ⟨hask, hkeep⟩ := onChip_call env depth (hl _ List.mem_cons_self) w hram
      refine (onDriver_run hs hrel hsize _ w c hf hask).seq fun r c₁ hr => ?_
      obtain ⟨hr, hf₁⟩ := hr
      obtain ⟨hcache, hflash⟩ := settle_spec ((call.prog env depth).run w)
      rw [hr, ← hcache]
      refine (ih (settle ((call.prog env depth).run w)) c₁ hrest (slotCache_settle hkeep) (hf₁.trans hflash.symm)).seq ?_
      rintro r₂ c₂ ⟨rfl, hf₂⟩
      exact .pure ⟨rfl, hf₂⟩

/-- Buffers of the program at fixed places, one of them not at a word. -/
def someHost : Host where
  readDest _ _ := 0x3fff0001
  writeSrc _ _ := 0x3fff1000
  buf _ := blankBuffer
  readDest_ne _ _ := by decide
  writeSrc_ne _ _ := by decide

/-- A value is stored, the device restarts, and the value is read. -/
theorem usesOnDriver_run_chip :
    let l : List Use := [.call 1 (.set (.scalar .u32 7) 10 keyA), .restart, .call 1 (.get (.scalar .u32) 10 keyA)]
    DevM.Ends (usesOnDriver (chip 1024 (by decide)) someHost (.built []) l factory.ram) factory.flash fun r c' =>
      r = ((uses (.built []) l factory).1, (uses (.built []) l factory).2.ram) ∧ c' = (uses (.built []) l factory).2.flash := by
  intro l
  refine usesOnDriver_run chip_sound chip_reliable (by decide) someHost (.built []) l factory _ ?_ slotCache_empty rfl
  intro u hu
  simp only [l, List.mem_cons, List.not_mem_nil, or_false] at hu
  obtain rfl | rfl | rfl := hu
  · exact show (4 : UInt32).toNat ≤ 65536 by decide
  · trivial
  · trivial

end Esp8266Sdk.Nvs
