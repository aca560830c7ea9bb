import Esp8266Sdk.Nor.Ram
import Esp8266Sdk.Nvs.CacheSpec
import Esp8266Sdk.Nvs.Containment

/-! The cache in the RAM. Writing and erasing only write to it, and the addresses
they put there are those of item slots of the partition, whatever is on flash. -/

namespace Esp8266Sdk.Nvs

open Nor Prog

/-- A property of caches that storing the address of a slot and invalidating keep. -/
structure SlotInvariant (I : Cache → Prop) : Prop where
  update : ∀ {cache} (nsIndex key) {p i}, p < 8 → i < 126 → I cache → I (updateCache nsIndex key (slotAddr p i) cache)
  invalidate : ∀ {cache} (nsIndex key), I cache → I (invalidateCache nsIndex key cache)

theorem slotInvariant_true : SlotInvariant fun _ => True where
  update := by intros; trivial
  invalidate := by intros; trivial

/-- Every address in the cache is zero or that of a slot. -/
def SlotCache (cache : Cache) : Prop := ∀ k, ∀ hk : k < 64, cache[k].address ≠ 0 →
  ∃ p < 8, ∃ i < 126, cache[k].address = slotAddr p i

theorem slotInvariant_slotCache : SlotInvariant SlotCache where
  update := by
    intro cache nsIndex key p i hp hi h k hk h0
    rw [getElem_updateCache] at h0 ⊢
    split_ifs at h0 ⊢
    · exact ⟨p, hp, i, hi, rfl⟩
    · exact h k hk h0
  invalidate := by
    intro cache nsIndex key h k hk h0
    rw [getElem_invalidateCache] at h0 ⊢
    split_ifs at h0 ⊢
    · exact absurd rfl h0
    · exact h k hk h0

theorem slotCache_empty : SlotCache .empty := by
  intro k hk h0
  rw [Cache.empty, Vector.getElem_replicate] at h0
  exact absurd rfl h0

variable {I : Cache → Prop} {nsIndex datatype chunkIndex : UInt8} {key : List UInt8}

theorem writeOnly_read {α : Type} (a n : ℕ) (g : List UInt8 → α) :
    WriteOnly I (do return g (← spiFlashRead a n) : NvsM α) :=
  .reads (g := fun f => g (f.read a n)) fun _ _ _ _ => Iff.rfl

theorem writeOnly_checked {α : Type} (o : Option α) : WriteOnly I (checked o) := by
  cases o with
  | none => exact .fail _
  | some a => exact .pure a

theorem writeOnly_write (a : ℕ) (bs : List UInt8) : WriteOnly I (spiFlashWrite a bs) := .step _ (.pure ())

theorem writeOnly_initializePage (pageIdx : ℤ) (seqNumber : UInt32) : WriteOnly I (initializePage pageIdx seqNumber) :=
  .bind (.step _ (.pure ())) fun _ _ => .bind (writeOnly_write _ _) fun _ _ => .bind (writeOnly_write _ _) fun _ _ => .pure _

theorem writeOnly_writeTableWords (pageAddr : ℕ) (table : EntryTable) (lo hi : ℕ) :
    WriteOnly I (writeTableWords pageAddr table lo hi) :=
  .foldlM (fun _ _ => .bind (writeOnly_checked _) fun _ _ => writeOnly_write _ _) _ _

theorem writeOnly_eraseOldItem (hI : SlotInvariant I) (nsIndex datatype : UInt8) (key : List UInt8) :
    WriteOnly I (eraseOldItem nsIndex datatype key) := by
  rw [eraseOldItem]
  have hentry : ∀ a x i, WriteOnly I (eraseEntry nsIndex datatype key a x i) := by
    intro a x i
    rw [eraseEntry]
    split
    · refine .bind (writeOnly_read ..) fun item _ => ?_
      split
      · exact .bind (writeOnly_checked _) fun _ _ => .pure _
      · exact .pure _
    · exact .pure _
  refine .foldlM (fun _ p => .bind (writeOnly_read ..) fun table _ => .bind (.foldlM (hentry _) _ _) fun x _ => ?_) _ _
  simp only
  split
  · exact .bind (writeOnly_write _ _) fun _ _ => .bind (.modify (fun _ h => hI.invalidate _ _ h) (.pure ())) fun _ _ =>
      writeOnly_writeTableWords ..
  · exact .pure _

theorem writeOnly_eraseAll (handle : UInt32) : WriteOnly I (nvsEraseAll handle) := by
  have hentry : ∀ a x i, WriteOnly I (eraseAllEntry (nsIndexOf handle) a x i) := by
    intro a x i
    rw [eraseAllEntry]
    split
    · refine .bind (writeOnly_read ..) fun item _ => ?_
      split
      · exact .bind (writeOnly_checked _) fun _ _ => .pure _
      · exact .pure _
    · exact .pure _
  refine .bind (.foldlM (fun _ p => .bind (writeOnly_read ..) fun table _ => .bind (.foldlM (hentry _) _ _) fun x _ => ?_) _ _)
    fun _ _ => .pure _
  simp only
  split
  · exact writeOnly_writeTableWords ..
  · exact .pure _

/-! ### Writing -/

theorem writeOnly_storeItem (hI : SlotInvariant I) {p t : ℕ} (hp : p < 8) (ht : t < 126) (table : EntryTable)
    (data : Option (List UInt8)) (length : UInt32) :
    WriteOnly I (storeItem (pageAddr p) table t nsIndex datatype key data length chunkIndex) := by
  rw [storeItem]
  refine .bind (writeOnly_write _ _) fun _ _ => ?_
  have hrest : ∀ _ : Unit, WriteOnly I (do
      let entryTable ← checked (setEntryStates table t (itemSpan length).toNat .written)
      writeTableWords (pageAddr p) entryTable (t / 4) ((t + (itemSpan length).toNat - 1) / 4)
      modifyCache (updateCache nsIndex key (pageAddr p + entryDataOffset + t * entrySize))
      return espOk) := by
    intro _
    rw [pageAddr_natCast hp, slotAddr_def]
    exact .bind (writeOnly_checked _) fun _ _ => .bind (writeOnly_writeTableWords ..) fun _ _ =>
      .bind (.modify (fun _ h => hI.update _ _ hp ht h) (.pure ())) fun _ _ => .pure _
  cases payload data length with
  | none => exact hrest ()
  | some remainingData => exact .bind (writeOnly_write _ _) fun u _ => hrest u

theorem writeOnly_selectPage : WriteOnly I selectPage := by
  rw [selectPage]
  refine .bind (.reads reads_findActivePage) fun x _ => ?_
  have hrest : ∀ pageIdx : ℤ, WriteOnly I (do
      let header ← readHeader (pageAddr pageIdx)
      if header.state = PageState.uninitialized.word then
        let _ ← initializePage pageIdx (x.2 + 1)
        let _ ← readHeader (pageAddr pageIdx)
        return (pageIdx, x.2, ← readTable (pageAddr pageIdx))
      else return (pageIdx, x.2, ← readTable (pageAddr pageIdx))) := by
    intro pageIdx
    refine .bind (writeOnly_read ..) fun header _ => ?_
    split
    · exact .bind (writeOnly_initializePage ..) fun _ _ => .bind (writeOnly_read ..) fun _ _ =>
        .bind (writeOnly_read ..) fun _ _ => .pure _
    · exact .bind (writeOnly_read ..) fun _ _ => .pure _
  simp only
  split
  · exact .bind (writeOnly_initializePage ..) fun _ _ => .bind (.pure _) fun _ _ => hrest _
  · exact .bind (.pure _) fun _ _ => hrest _

theorem writeOnly_switchPage {compactPage : CompactPage}
    (hc : ∀ src dest nextSeq, WriteOnly I (compactPage src dest nextSeq)) (pageIdx : ℤ) (maxSeq : UInt32) :
    WriteOnly I (switchPage compactPage pageIdx maxSeq) := by
  rw [switchPage]
  have hfull : WriteOnly I (markPageFull pageIdx) :=
    .bind (writeOnly_read ..) fun _ _ => .bind (writeOnly_write _ _) fun _ _ => .pure _
  refine .bind hfull fun _ _ => .bind (writeOnly_read ..) fun header _ => ?_
  split
  · exact .bind (writeOnly_initializePage ..) fun _ _ => .pure _
  · exact .bind (hc ..) fun _ _ => .bind (.reads reads_findActivePage) fun _ _ => .pure _

/-- Behind a page that was full there is a page of the partition, whatever is on flash. -/
theorem page_of_switchPage {env : Env} {depth p : ℕ} (hp : p < 8) {maxSeq : UInt32} {s : ℤ}
    (h : Returns (switchPage (compactPage env depth) p maxSeq) s) : ∃ q < 8, s = (q : ℕ) := by
  obtain ⟨w, w', hr⟩ := h
  have hwp : wp (fun _ _ => True) (fun (s : ℤ) _ => ∃ q < 8, s = (q : ℕ)) (fun _ _ => True)
      (switchPage (compactPage env depth) p maxSeq) w := by
    rw [wp_switchPage _ hp]
    refine ⟨trivial, ?_⟩
    split_ifs
    · exact ⟨trivial, trivial, trivial, nextPage p, nextPage_lt p, rfl⟩
    · apply wp_post (anyFlash_rule.compactPage env depth (nextPage_lt _) (nextPage_lt _) trivial)
      rintro _ w' ⟨-, q, hq, hqa⟩
      rcases activePage_cases w'.flash with ⟨r, hr, he, -⟩ | ⟨hn, -⟩ | ⟨hn, -⟩
      · exact ⟨r, hr, he⟩
      · exact absurd hqa (hn q hq)
      · exact absurd hqa (hn q hq)
  exact wp_ok hwp hr

theorem writeOnly_writeItemWith (hI : SlotInvariant I) {env : Env} {depth : ℕ}
    (hc : ∀ src dest nextSeq, WriteOnly I (compactPage env depth src dest nextSeq)) (data : Option (List UInt8))
    (length : UInt32) :
    WriteOnly I (writeItemWith (compactPage env depth) nsIndex datatype key data length chunkIndex) := by
  rw [writeItemWith]
  refine .bind writeOnly_selectPage fun x hx => ?_
  obtain ⟨pageIdx, maxSeq, table⟩ := x
  obtain ⟨w, w', hx⟩ := hx
  obtain ⟨p, hp, rfl, -⟩ := page_of_selectPage hx
  simp only
  split
  · rename_i t ht
    obtain ⟨hs, ht⟩ := room_of_some ht
    exact writeOnly_storeItem hI hp (by omega) ..
  · refine .bind (writeOnly_switchPage hc _ _) fun s hs => .bind (writeOnly_read ..) fun table _ => ?_
    obtain ⟨q, hq, rfl⟩ := page_of_switchPage hp hs
    split
    · rename_i t ht
      obtain ⟨hs, ht⟩ := room_of_some ht
      exact writeOnly_storeItem hI hq (by omega) ..
    · exact .pure _

theorem writeOnly_compactPageWith (env : Env) {writeItem : WriteItem}
    (hw : ∀ nsIndex datatype key data length chunkIndex, WriteOnly I (writeItem nsIndex datatype key data length chunkIndex))
    (src dest : ℤ) (nextSeq : UInt32) : WriteOnly I (compactPageWith env writeItem src dest nextSeq) := by
  rw [compactPageWith]
  have hmove : ∀ (table : EntryTable) (i : ℕ), WriteOnly I (moveEntry env writeItem (pageAddr src) table i) := by
    intro table i
    rw [moveEntry]
    split
    · refine .bind (writeOnly_read ..) fun item _ => ?_
      split
      · exact .bind (hw ..) fun _ _ => .pure _
      split
      · exact .bind (writeOnly_read _ _ id) fun _ _ => .bind (hw ..) fun _ _ => .pure _
      · exact .fail _
    · exact .pure _
  refine .bind (writeOnly_read ..) fun table _ => .bind (writeOnly_read ..) fun header _ => ?_
  split
  · exact .bind (writeOnly_initializePage ..) fun _ _ => .bind (writeOnly_write _ _) fun _ _ => .pure _
  · exact .bind (writeOnly_initializePage ..) fun _ _ => .bind (.foldlM (fun _ => hmove table) _ _) fun _ _ =>
      .bind (writeOnly_write _ _) fun _ _ => .pure _

/-- By induction on the stack depth. -/
theorem writeOnly_writeItem (hI : SlotInvariant I) (env : Env) (depth : ℕ) (nsIndex datatype : UInt8) (key : List UInt8)
    (data : Option (List UInt8)) (length : UInt32) (chunkIndex : UInt8) :
    WriteOnly I (writeItem env depth nsIndex datatype key data length chunkIndex) := by
  induction depth generalizing nsIndex datatype key data length chunkIndex with
  | zero => exact .fail _
  | succ depth ih => exact writeOnly_writeItemWith hI (writeOnly_compactPageWith env ih) data length

end Esp8266Sdk.Nvs
