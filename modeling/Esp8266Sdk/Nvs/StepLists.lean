import Esp8266Sdk.Nor.Trace
import Esp8266Sdk.Nvs.Plain

/-! The flash steps of a set, one after the other: those of `eraseOldItem`, those
that make a page ready, and those that store the item. -/

namespace Esp8266Sdk.Nvs

open Nor Prog

variable {w : NvsWorld} {p : ℕ} {nsIndex datatype : UInt8} {key : List UInt8}

/-! ### Pages -/

/-- The steps of `initializePage`. -/
def initOps (p : ℕ) (seqNumber : UInt32) : List Op :=
  [.erase (base p) 4096, .write (base p) (freshHeader seqNumber).encode, .write (base p + 32) (List.replicate 32 0xff)]

theorem emits_initializePage (hp : p < 8) (seqNumber : UInt32) :
    Emits (initializePage p seqNumber) w (initOps p seqNumber) (.ok espOk, ⟨initFlash w.flash p seqNumber, w.ram⟩) := by
  have hs : base p / pageSize * pageSize = base p := by simp only [base, pageSize]; omega
  have hflash : (initFlash w.flash p seqNumber).program (base p + 32) (List.replicate 32 0xff) =
      initFlash w.flash p seqNumber := program_blankTable _ _
  rw [initializePage, pageAddr_natCast hp, spiFlashEraseSector, hs]
  refine (Emits.step _ w).bind ((Emits.step _ _).bind ((Emits.step _ _).bind ?_))
  rw [← hflash]
  exact Emits.pure _ _

theorem emits_markPageFull (hp : p < 8) :
    Emits (markPageFull p) w [.write (base p) (le32 PageState.full.word)] (.ok espOk, ⟨fullFlash w.flash p, w.ram⟩) := by
  rw [markPageFull, pageAddr_natCast hp]
  refine Emits.reads_bind (pageAddr_natCast hp ▸ reads_readHeader hp) ?_
  exact (Emits.step _ w).bind (Emits.pure _ _)

/-- The steps of `selectPage`. -/
def selectOps (f : Flash) : List Op :=
  if stateAt f (selPage f) = PageState.active.word then [] else initOps (selPage f) ((activePage f).2 + 1)

theorem emits_selectPage (w : NvsWorld) : Emits selectPage w (selectOps w.flash)
    (.ok (selPage w.flash, (activePage w.flash).2, tableAt (selFlash w.flash) (selPage w.flash)),
      ⟨selFlash w.flash, w.ram⟩) := by
  have hactive : PageState.active.word ≠ PageState.uninitialized.word := by decide
  have hsel : ∀ p : ℕ, (activePage w.flash).1 = p → selPage w.flash = p := by
    intro p he
    rw [selPage, he, Int.toNat_natCast]
  rw [selectPage]
  refine Emits.reads_bind reads_findActivePage ?_
  rcases activePage_cases w.flash with ⟨p, hp, he, ha⟩ | ⟨-, p, hp, he, hu, -⟩ | ⟨hn, -, he⟩
  · have hne : (p : ℤ) ≠ -1 := by omega
    have hst : (headerAt w.flash p).state = PageState.active.word := ha
    simp only [he, hne, if_false, selectOps, selFlash, hsel p he, ha, if_true]
    refine (Emits.pure _ w).bind (Emits.reads_bind (reads_readHeader hp) ?_)
    simp only [hst, hactive, if_false]
    exact (Emits.pure _ w).bind (Emits.reads_bind (reads_readTable hp) (Emits.pure _ _))
  · have hne : (p : ℤ) ≠ -1 := by omega
    have hst : (headerAt w.flash p).state = PageState.uninitialized.word := hu
    have hna : stateAt w.flash p ≠ PageState.active.word := by
      rw [hu]
      exact hactive.symm
    have hops : selectOps w.flash = initOps p ((activePage w.flash).2 + 1) := by rw [selectOps, hsel p he, if_neg hna]
    rw [hops, selFlash, hsel p he, if_neg hna, ← List.append_nil (initOps _ _)]
    simp only [he, hne, if_false]
    refine (Emits.pure _ w).bind (Emits.reads_bind (reads_readHeader hp) ?_)
    simp only [hst, if_true]
    refine (emits_initializePage hp _).bind (Emits.reads_bind (reads_readHeader hp) ?_)
    exact Emits.reads_bind (reads_readTable hp) (Emits.pure _ _)
  · have hsel0 : selPage w.flash = 0 := by rw [selPage, he]; rfl
    have hna := hn 0 (by omega)
    have hst : ∀ s, (headerAt (initFlash w.flash 0 s) 0).state = PageState.active.word :=
      fun s => stateAt_initFlash _ _ _
    have hops : selectOps w.flash = initOps 0 ((activePage w.flash).2 + 1) := by rw [selectOps, hsel0, if_neg hna]
    rw [hops, selFlash, hsel0, if_neg hna, ← List.append_nil (initOps _ _)]
    simp only [he, if_true]
    refine (emits_initializePage (p := 0) (by omega) _).bind (Emits.reads_bind (reads_readHeader (p := 0) (by omega)) ?_)
    simp only [hst, hactive, if_false]
    exact (Emits.pure _ _).bind (Emits.reads_bind (reads_readTable (p := 0) (by omega)) (Emits.pure _ _))

/-- The steps of `switchPage` to a page that is not in use. -/
def switchOps (p : ℕ) (seqNumber : UInt32) : List Op :=
  .write (base p) (le32 PageState.full.word) :: initOps (nextPage p) seqNumber

theorem emits_switchPage (compactPage : CompactPage) (hp : p < 8) (maxSeq : UInt32)
    (hnext : stateAt w.flash (nextPage p) = PageState.uninitialized.word) :
    Emits (switchPage compactPage p maxSeq) w (switchOps p (maxSeq + 1))
      (.ok (nextPage p : ℤ), ⟨initFlash (fullFlash w.flash p) (nextPage p) (maxSeq + 1), w.ram⟩) := by
  have hst : (headerAt (fullFlash w.flash p) (nextPage p)).state = PageState.uninitialized.word :=
    (stateAt_fullFlash_other w.flash nextPage_ne).trans hnext
  rw [switchPage, switchOps, ← List.singleton_append]
  refine (emits_markPageFull hp).bind ?_
  simp only [next_natCast]
  refine Emits.reads_bind (reads_readHeader (nextPage_lt p)) ?_
  simp only [hst, if_true]
  rw [← List.append_nil (initOps _ _)]
  exact (emits_initializePage (nextPage_lt p) _).bind (Emits.pure _ _)

/-! ### Tables -/

/-- The steps that write back `n` words from `lo` on. -/
def wordOps (p : ℕ) (table : EntryTable) (lo n : ℕ) : List Op := (List.range n).map fun k => wordStep p table (lo + k)

@[simp] theorem length_wordOps (p : ℕ) (table : EntryTable) (lo n : ℕ) : (wordOps p table lo n).length = n := by
  simp [wordOps]

theorem applyOps_wordOps (f : Flash) (p : ℕ) (table : EntryTable) (lo n : ℕ) :
    applyOps f (wordOps p table lo n) = tableFlash f p table lo n := by
  rw [applyOps, wordOps, List.foldl_map, tableFlash]

theorem wordOps_take (p : ℕ) (table : EntryTable) (lo n k : ℕ) :
    (wordOps p table lo n).take k = wordOps p table lo (min k n) := by
  rw [wordOps, wordOps, ← List.map_take, List.take_range]

/-- One pass of `writeTableWords`. -/
theorem emits_tableWord {table : EntryTable} {lo k : ℕ} (h : lo + k < 8) :
    Emits (do
      let wordData ← checked (tableWord table (lo + k))
      spiFlashWrite (base p + entryTableOffset + (lo + k) * 4) wordData : NvsM Unit)
        ⟨tableFlash w.flash p table lo k, w.ram⟩ [wordStep p table (lo + k)]
        (.ok (), ⟨tableFlash w.flash p table lo (k + 1), w.ram⟩) := by
  rw [tableWord_of_lt _ h, tableFlash_succ]
  exact (Emits.pure _ _).bind (Emits.step _ _)

theorem flatMap_wordOps (p : ℕ) (table : EntryTable) (lo n : ℕ) :
    (List.range n).flatMap (fun k => [wordStep p table (lo + k)]) = wordOps p table lo n :=
  List.map_eq_flatMap.symm

theorem emits_writeTableWords (hp : p < 8) (table : EntryTable) {lo hi : ℕ} (hhi : hi < 8) :
    Emits (writeTableWords (pageAddr p) table lo hi) w (wordOps p table lo (hi + 1 - lo))
      (.ok (), ⟨tableFlash w.flash p table lo (hi + 1 - lo), w.ram⟩) := by
  rw [writeTableWords, pageAddr_natCast hp, ← flatMap_wordOps]
  exact Emits.range (fun k => ⟨tableFlash w.flash p table lo k, w.ram⟩) _ fun k hk => emits_tableWord (by omega)

/-- Behind word 7 there is no further one to write. -/
theorem emits_writeTableWords_fail (hp : p < 8) (table : EntryTable) {lo hi : ℕ} (hlo : lo < 8) (hhi : 8 ≤ hi) :
    Emits (writeTableWords (pageAddr p) table lo hi) w (wordOps p table lo (8 - lo))
      (.error .index, ⟨tableFlash w.flash p table lo (8 - lo), w.ram⟩) := by
  rw [writeTableWords, pageAddr_natCast hp, ← flatMap_wordOps]
  refine Emits.range_error (m := 8 - lo) (fun k => ⟨tableFlash w.flash p table lo k, w.ram⟩) _ (by omega)
    (fun k hk => emits_tableWord (by omega)) ?_
  rw [tableWord, if_neg (by omega)]
  exact (Emits.fail _ _).bind_error

/-! ### Erasing -/

/-- The steps of `erasePage` where it changes the table. -/
def eraseOps (p : ℕ) (table : EntryTable) : List Op := dirtyStep p :: wordOps p table 0 8

theorem emits_erasePage_same (hp : p < 8) {table : EntryTable}
    (he : eraseTable w.flash p nsIndex datatype key = some (table, false)) :
    Emits (erasePage nsIndex datatype key p) w [] (.ok (), w) := by
  rw [erasePage]
  refine Emits.reads_bind (reads_readTable hp) (Emits.checks_bind (checks_eraseLoop hp nsIndex datatype key _) he ?_)
  exact Emits.pure _ _

theorem emits_erasePage (hp : p < 8) {table : EntryTable}
    (he : eraseTable w.flash p nsIndex datatype key = some (table, true)) :
    Emits (erasePage nsIndex datatype key p) w (eraseOps p table)
      (.ok (), ⟨eraseFlash w.flash p table, invalidateCache nsIndex key w.ram⟩) := by
  have hstep : Op.write (pageAddr p + 9) (le32 0) = dirtyStep p := by rw [pageAddr_natCast hp, dirtyStep]
  rw [erasePage]
  refine Emits.reads_bind (reads_readTable hp) (Emits.checks_bind (checks_eraseLoop hp nsIndex datatype key _) he ?_)
  simp only [if_true, markPageDirty]
  have hwords : Emits (writeTableWords (pageAddr p) table 0 7)
      ⟨(dirtyStep p).apply w.flash, invalidateCache nsIndex key w.ram⟩ (wordOps p table 0 8)
      (.ok (), ⟨eraseFlash w.flash p table, invalidateCache nsIndex key w.ram⟩) :=
    emits_writeTableWords hp table (by omega)
  have hdirty : Emits (spiFlashWrite (pageAddr p + 9) (le32 0)) w [dirtyStep p]
      (.ok (), ⟨(dirtyStep p).apply w.flash, w.ram⟩) := by
    rw [← hstep]
    exact Emits.step _ w
  have hcache : Emits (modifyCache (invalidateCache nsIndex key)) ⟨(dirtyStep p).apply w.flash, w.ram⟩ []
      (.ok (), ⟨(dirtyStep p).apply w.flash, invalidateCache nsIndex key w.ram⟩) := Emits.modify _ _
  exact hdirty.bind (hcache.bind hwords)

variable {f : Flash}

theorem emits_eraseOldItem_noHit (h : NoHit w.flash nsIndex datatype key) :
    Emits (eraseOldItem nsIndex datatype key) w [] (.ok (), w) := by
  have hsame : ∀ p < numPages, Emits (erasePage nsIndex datatype key p) w [] (.ok (), w) := by
    intro p hp
    obtain ⟨T, hT⟩ := eraseTable_noHit h hp
    exact emits_erasePage_same hp hT
  have hnil : ([] : List Op) = (List.range numPages).flatMap fun _ => [] := (List.flatMap_eq_nil_iff.2 fun _ _ => rfl).symm
  rw [eraseOldItem, hnil]
  exact Emits.range (fun _ => w) _ hsame

/-- There is one block of a name and type. -/
theorem Old.unique (hd : Distinct f) (hany : datatype ≠ ItemType.any.code) {p q i j : ℕ} (hp : p < 8) (hq : q < 8)
    (h : Old f nsIndex datatype key p i) (h' : Old f nsIndex datatype key q j) : p = q ∧ i = j := by
  obtain ⟨hi, ⟨hns, hkey⟩, htyp⟩ := h
  obtain ⟨hj, ⟨hns', hkey'⟩, htyp'⟩ := h'
  rw [Item.typed, or_iff_right hany] at htyp htyp'
  exact hd p hp q hq i j hi hj (hns.trans hns'.symm) (hkey.trans hkey'.symm) (htyp.trans htyp'.symm)

/-- Only the page of the old block is changed. -/
theorem emits_eraseOldItem (hf : Packed w.flash) (hd : Distinct w.flash) (hc : Clear w.flash nsIndex datatype key)
    (hany : datatype ≠ ItemType.any.code) {q i : ℕ} (hq : q < 8) (ho : Old w.flash nsIndex datatype key q i) :
    ∃ T, Marks w.flash q (Old w.flash nsIndex datatype key q) T ∧ Emits (eraseOldItem nsIndex datatype key) w (eraseOps q T)
      (.ok (), ⟨eraseFlash w.flash q T, invalidateCache nsIndex key w.ram⟩) := by
  have hsame : ∀ p < 8, p ≠ q → ∀ g : Flash, (∀ x, base p ≤ x → x < base p + 4096 → g x = w.flash x) →
      ∃ T, eraseTable g p nsIndex datatype key = some (T, false) := by
    intro p hp hpq g hg
    obtain ⟨T, m, he, -, hm⟩ := eraseTable_of_clear hp hf hc hg
    cases m with
    | false => exact ⟨T, he⟩
    | true =>
      obtain ⟨j, hj⟩ := hm.1 rfl
      exact absurd (Old.unique hd hany hp hq hj ho).1 hpq
  obtain ⟨T, m, he, hmarks, hm⟩ := eraseTable_of_clear hq hf hc fun _ _ _ => rfl
  obtain rfl : m = true := hm.2 ⟨i, ho⟩
  refine ⟨T, hmarks, ?_⟩
  rw [eraseOldItem]
  refine Emits.range_single (m := q) hq (fun p hp => ?_) (emits_erasePage hq he) fun p hp hp8 => ?_
  · obtain ⟨T', hT'⟩ := hsame p (by omega) (by omega) w.flash fun _ _ _ => rfl
    exact emits_erasePage_same (by omega) hT'
  · obtain ⟨T', hT'⟩ := hsame p hp8 (by omega) (eraseFlash w.flash q T) fun x h1 h2 =>
      (rewrites_eraseFlash w.flash q T).outside x (by simp only [base] at *; omega)
    exact emits_erasePage_same hp8 hT'

/-! ### Storing -/

/-- The steps of `storeItem` up to its `m`-th table word. -/
def storeOps (p t : ℕ) (item : Item) (rest : Option (List UInt8)) (table : EntryTable) (m : ℕ) : List Op :=
  .write (slotAddr p t) item.encode :: (rest.toList.map (.write (slotAddr p t + 32)) ++ wordOps p table (t / 4) m)

theorem emits_storeItem (w : NvsWorld) (nsIndex datatype chunkIndex : UInt8) (key : List UInt8)
    (data : Option (List UInt8)) {length : UInt32} {t : ℕ} {table T : EntryTable} (hp : p < 8)
    (ht : t < 4) (hT : setEntryStates table t (itemSpan length).toNat .written = some T) :
    ∃ r, Emits (storeItem (pageAddr p) table t nsIndex datatype key data length chunkIndex) w
      (storeOps p t (newItem nsIndex datatype key data length chunkIndex) (payload data length) T
        (min ((t + (itemSpan length).toNat - 1) / 4 + 1) 8)) r := by
  have hpage : pageAddr p + entryDataOffset + t * entrySize = slotAddr p t := by rw [pageAddr_natCast hp, slotAddr_def]
  have htable : ∀ v : NvsWorld, ∃ r, Emits (do
      let entryTable ← checked (setEntryStates table t (itemSpan length).toNat .written)
      writeTableWords (pageAddr p) entryTable (t / 4) ((t + (itemSpan length).toNat - 1) / 4)
      modifyCache (updateCache nsIndex key (slotAddr p t))
      pure espOk : NvsM EspErr) v
        (wordOps p T (t / 4) (min ((t + (itemSpan length).toNat - 1) / 4 + 1) 8)) r := by
    intro v
    rw [hT, show t / 4 = 0 by omega]
    rcases Nat.lt_or_ge ((t + (itemSpan length).toNat - 1) / 4) 8 with h8 | h8
    · rw [Nat.min_eq_left (by omega), ← List.append_nil (wordOps _ _ _ _)]
      exact ⟨_, (Emits.pure _ _).bind ((emits_writeTableWords hp T h8).bind ((Emits.modify _ _).bind (Emits.pure _ _)))⟩
    · rw [Nat.min_eq_right (by omega)]
      exact ⟨_, (Emits.pure _ _).bind (emits_writeTableWords_fail hp T (by omega) h8).bind_error⟩
  simp only [storeItem, hpage]
  cases hpay : payload data length with
  | none =>
    obtain ⟨r, hr⟩ := htable ⟨_, w.ram⟩
    exact ⟨r, (Emits.step _ w).bind ((Emits.pure _ _).bind hr)⟩
  | some rest =>
    obtain ⟨r, hr⟩ := htable ⟨_, w.ram⟩
    exact ⟨r, (Emits.step _ w).bind ((Emits.step _ _).bind hr)⟩

/-! ### `writeItem` -/

section

variable {a u : ℕ} (data : Option (List UInt8)) {length : UInt32}

/-- The steps of `writeItem` before those of the item, where the page behind is not in use. -/
def prepOps (f : Flash) (length : UInt32) : List Op :=
  selectOps f ++ if (findConsecutiveEntries (tableAt (selFlash f) (selPage f)) (itemSpan length).toNat).isSome then []
    else switchOps (selPage f) ((activePage f).2 + 1)

/-- The number of these steps. -/
def prepSteps (f : Flash) (length : UInt32) : ℕ :=
  (if stateAt f (selPage f) = PageState.active.word then 0 else 3) +
    if (findConsecutiveEntries (tableAt (selFlash f) (selPage f)) (itemSpan length).toNat).isSome then 0 else 4

theorem length_prepOps (f : Flash) (length : UInt32) : (prepOps f length).length = prepSteps f length := by
  rw [prepOps, prepSteps, List.length_append, selectOps]
  congr 1
  · split_ifs <;> rfl
  · split_ifs <;> rfl

theorem applyOps_initOps (f : Flash) (p : ℕ) (seqNumber : UInt32) :
    applyOps f (initOps p seqNumber) = initFlash f p seqNumber := program_blankTable _ _

theorem applyOps_selectOps (f : Flash) : applyOps f (selectOps f) = selFlash f := by
  rw [selectOps, selFlash]
  split_ifs
  · rfl
  · exact applyOps_initOps _ _ _

theorem applyOps_switchOps (f : Flash) (p : ℕ) (seqNumber : UInt32) :
    applyOps f (switchOps p seqNumber) = initFlash (fullFlash f p) (nextPage p) seqNumber := by
  rw [switchOps, applyOps_cons, applyOps_initOps, Op.apply_write, fullFlash]

/-- The steps of `writeItem` on a sound store: those that make a page ready, then those of the item. -/
theorem emits_writeItem (env : Env) (depth : ℕ) (nsIndex datatype : UInt8) (key : List UInt8) (h : Sound w.flash a u)
    (hr : RoomOk w.flash length) (hn : 1 ≤ (itemSpan length).toNat ∧ (itemSpan length).toNat ≤ 126) :
    ∃ p t T r, place a u (itemSpan length).toNat = (p, t) ∧ t < 4 ∧ t + (itemSpan length).toNat ≤ 126 ∧
      Prepared w.flash (applyOps w.flash (prepOps w.flash length)) p t ∧
      setEntryStates (tableAt (applyOps w.flash (prepOps w.flash length)) p) t (itemSpan length).toNat .written = some T ∧
      Emits (writeItem env (depth + 1) nsIndex datatype key data length 0xff) w
        (prepOps w.flash length ++ storeOps p t (newItem nsIndex datatype key data length 0xff) (payload data length) T
          (min ((t + (itemSpan length).toNat - 1) / 4 + 1) 8)) r := by
  have hlt := h.ordered.lt
  have hsel := h.selPage_eq
  have hroom := h.room (itemSpan length).toNat
  have hselect := emits_selectPage w
  rw [hsel] at hselect hroom
  rw [writeItem, writeItemWith, prepOps, hsel]
  by_cases hu : u + (itemSpan length).toNat ≤ 126
  · rw [if_pos ⟨hn.1, hu⟩] at hroom
    rw [hroom, Option.isSome_some, if_pos rfl, List.append_nil, applyOps_selectOps]
    obtain ⟨T, hT⟩ := setEntryStates_isSome (tableAt (selFlash w.flash) a) (i := u) (n := (itemSpan length).toNat)
      (by omega) .written
    have hu4 := h.used_lt hr ⟨hn.1, hu⟩
    obtain ⟨r, hstore⟩ := emits_storeItem ⟨selFlash w.flash, w.ram⟩ nsIndex datatype 0xff key data hlt hu4 hT
    refine ⟨a, u, T, r, if_pos hu, hu4, hu, h.prepared_selFlash, hT, hselect.bind ?_⟩
    simp only [hroom]
    exact hstore
  · have hno : ¬ (1 ≤ (itemSpan length).toNat ∧ u + (itemSpan length).toNat ≤ 126) := fun h => hu h.2
    rw [if_neg hno] at hroom
    rw [hroom, Option.isSome_none, if_neg Bool.false_ne_true, applyOps_append, applyOps_selectOps, applyOps_switchOps]
    obtain ⟨ha, hnext⟩ := h.next_lt hr hno
    have hnexta : nextPage a = a + 1 := Nat.mod_eq_of_lt ha
    have hprep := h.prepared_switch ha ((activePage w.flash).2 + 1)
    have hstate : stateAt (selFlash w.flash) (nextPage a) = PageState.uninitialized.word := by
      rw [← hnext, hnexta]
      exact stateAt_congr fun x h1 h2 => selFlash_otherPage _ (by rw [hsel]; omega) h1 (by omega)
    have hfind := findConsecutiveEntries_used hprep.used (itemSpan length).toNat
    rw [if_pos ⟨hn.1, by omega⟩] at hfind
    have hswitch := emits_switchPage (w := ⟨selFlash w.flash, w.ram⟩) (compactPageWith env (writeItem env depth)) hlt
      (activePage w.flash).2 hstate
    rw [hnexta] at hswitch ⊢
    obtain ⟨T, hT⟩ := setEntryStates_isSome
      (tableAt (initFlash (fullFlash (selFlash w.flash) a) (a + 1) ((activePage w.flash).2 + 1)) (a + 1)) (i := 0)
      (n := (itemSpan length).toNat) (by omega) .written
    obtain ⟨r, hstore⟩ := emits_storeItem
      ⟨initFlash (fullFlash (selFlash w.flash) a) (a + 1) ((activePage w.flash).2 + 1), w.ram⟩ nsIndex datatype 0xff key data
      ha (by omega) hT
    refine ⟨a + 1, 0, T, r, if_neg hu, by omega, by omega, hprep, hT, ?_⟩
    rw [List.append_assoc]
    refine hselect.bind ?_
    simp only [hroom]
    refine hswitch.bind (Emits.reads_bind (reads_readTable ha) ?_)
    simp only [hfind]
    exact hstore

end

end Esp8266Sdk.Nvs
