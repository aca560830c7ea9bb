import Esp8266Sdk.Nvs.TableSpec

/-! The steps of `storeItem`, and the rule that carries an invariant through
`writeItem` and `compactPage`: it is enough that the invariant survives each
kind of flash step they make, at the page states they make it in. -/

namespace Esp8266Sdk.Nvs

open Nor Prog

variable {G : NvsWorld → Op → Prop} {E : Defect → NvsWorld → Prop} {w : NvsWorld}

/-! ### Spans -/

theorem itemSpan_small {length : UInt32} (h : length.toNat ≤ 8) : itemSpan length = 1 := by
  rw [itemSpan, if_pos (UInt32.le_iff_toNat_le.2 h)]

/-- The span before it is narrowed to eight bits. -/
theorem itemSpan_toNat {length : UInt32} (h : 8 < length.toNat) (h' : length.toNat < 2 ^ 32 - 31) :
    (itemSpan length).toNat = (1 + (length.toNat + 23) / 32) % 256 := by
  have hle : ¬ length ≤ 8 := by
    rw [UInt32.le_iff_toNat_le]
    exact Nat.not_le.2 h
  have h8 : (8 : UInt32) ≤ length := UInt32.le_iff_toNat_le.2 h.le
  rw [itemSpan, if_neg hle, UInt8.toNat_add, UInt32.toNat_toUInt8, UInt32.toNat_div, UInt32.toNat_add,
    UInt32.toNat_sub_of_le _ _ h8]
  simp only [UInt32.reduceToNat, UInt8.reduceToNat]
  omega

/-- Up to here the block count fits the `uint8`, and the value fits its block. -/
theorem le_of_itemSpan {length : UInt32} (h : length.toNat ≤ 8136) :
    length.toNat ≤ 8 + 32 * ((itemSpan length).toNat - 1) := by
  rcases Nat.lt_or_ge 8 length.toNat with h8 | h8
  · rw [itemSpan_toNat h8 (by omega)]
    omega
  · omega

/-- The bytes behind the inline data fit the entries of the span. -/
def Fits (data : Option (List UInt8)) (length : UInt32) : Prop :=
  ∀ rest, payload data length = some rest → rest.length ≤ 32 * ((itemSpan length).toNat - 1)

theorem fits_of_le (data : Option (List UInt8)) {length : UInt32} (h : length.toNat ≤ 8136) : Fits data length := by
  intro rest hrest
  cases data with
  | none => simp [payload] at hrest
  | some bs =>
    rcases Nat.lt_or_ge 8 length.toNat with h8 | h8
    · have hs := itemSpan_toNat h8 (by omega)
      simp only [payload] at hrest
      split at hrest
      · cases hrest
        have hsub : (length - 8).toNat = length.toNat - 8 := UInt32.toNat_sub_of_le _ _ (UInt32.le_iff_toNat_le.2 h8.le)
        rw [List.length_take, hsub]
        omega
      · cases hrest
    · rw [payload, itemSpan_small h8] at hrest
      simp at hrest

theorem movedLength_toNat {span : UInt8} (h : 1 ≤ span.toNat) :
    (movedLength span).toNat = 8 + (span.toNat - 1) * 32 := by
  have hlt := span.toNat_lt
  have h1 : (1 : UInt32) ≤ span.toUInt32 := UInt32.le_iff_toNat_le.2 (by simpa using h)
  rw [movedLength, UInt32.toNat_add, UInt32.toNat_mul, UInt32.toNat_sub_of_le _ _ h1, UInt8.toNat_toUInt32]
  simp only [UInt32.reduceToNat]
  omega

/-- A span of zero gives a length that is no `int`. -/
theorem span_pos_of_movedLength {span : UInt8} (h : (movedLength span).toNat < 2 ^ 31) : 1 ≤ span.toNat := by
  by_contra h0
  obtain rfl : span = 0 := UInt8.toNat_inj.1 (show span.toNat = 0 by omega)
  exact absurd h (by decide)

/-- A moved item takes as many entries as it had. -/
theorem itemSpan_movedLength {span : UInt8} (h : 1 ≤ span.toNat) (h1 : span ≠ 1) :
    (itemSpan (movedLength span)).toNat = span.toNat := by
  have hlt := span.toNat_lt
  have hne : span.toNat ≠ 1 := fun e => h1 (UInt8.toNat_inj.1 e)
  have hm := movedLength_toNat h
  rw [itemSpan_toNat (by omega) (by omega), hm]
  omega

/-- Where room is found, there is a span and it fits the page. -/
theorem room_of_some {table : EntryTable} {span t : ℕ} (h : findConsecutiveEntries table span = some t) :
    1 ≤ span ∧ t + span ≤ 126 := by
  have hs : span ≠ 0 := by
    rintro rfl
    rw [findConsecutiveEntries_zero] at h
    cases h
  exact ⟨by omega, (findConsecutiveEntries_some (by omega) h).1.1⟩

/-! ### Page indices -/

/-- The page behind page `p` in the ring. -/
def nextPage (p : ℕ) : ℕ := (p + 1) % 8

theorem nextPage_lt (p : ℕ) : nextPage p < 8 := Nat.mod_lt _ (by omega)

theorem nextPage_ne {p : ℕ} : nextPage p ≠ p := by
  rw [nextPage]
  omega

theorem next_natCast (p : ℕ) : ((p : ℤ) + 1) % numPages = (nextPage p : ℤ) := by
  simp only [numPages, nvsPartitionSize, pageSize, nextPage]
  omega

/-! ### `storeItem` -/

/-- The steps that write the slots of an item. -/
def slotsFlash (f : Flash) (p t : ℕ) (item : Item) (rest : Option (List UInt8)) : Flash :=
  (f.program (slotAddr p t) item.encode).program (slotAddr p t + 32) (rest.getD [])

theorem program_nil (f : Flash) (a : ℕ) : f.program a [] = f := Flash.program_ff f a (by simp)

theorem slotsFlash_outside {f : Flash} {p t n : ℕ} {item : Item} {rest : Option (List UInt8)} {x : ℕ} (hn : 1 ≤ n)
    (hfit : ∀ bs, rest = some bs → bs.length ≤ 32 * (n - 1)) (hx : x < slotAddr p t ∨ slotAddr p t + 32 * n ≤ x) :
    slotsFlash f p t item rest x = f x := by
  have hlen : (rest.getD []).length ≤ 32 * (n - 1) := by
    cases rest with
    | none => simp
    | some bs => exact hfit bs rfl
  rw [slotsFlash, Flash.program_outside (by omega), Flash.program_outside (by rw [Item.length_encode]; omega)]

/-- The slots of an item are written from its first slot on. -/
theorem slotsFlash_before {f : Flash} {p t : ℕ} {item : Item} {rest : Option (List UInt8)} {x : ℕ}
    (hx : x < slotAddr p t) : slotsFlash f p t item rest x = f x := by
  rw [slotsFlash, Flash.program_outside (by omega), Flash.program_outside (by omega)]

/-- The flash after `storeItem`, up to table word `lo + m`. -/
def storedFlash (f : Flash) (p t : ℕ) (item : Item) (rest : Option (List UInt8)) (T : EntryTable) (m : ℕ) : Flash :=
  tableFlash (slotsFlash f p t item rest) p T (t / 4) m

theorem storedFlash_otherPage {f : Flash} {p q t n m : ℕ} {item : Item} {rest : Option (List UInt8)} {T : EntryTable}
    {x : ℕ} (hn : 1 ≤ n) (ht : t + n ≤ 126) (hfit : ∀ bs, rest = some bs → bs.length ≤ 32 * (n - 1)) (hm : t / 4 + m ≤ 8)
    (hq : q ≠ p) (hx : base q ≤ x) (hx' : x < base q + 4096) : storedFlash f p t item rest T m x = f x := by
  rw [storedFlash, tableFlash_otherPage _ T hm hq hx hx', slotsFlash_outside hn hfit]
  simp only [slotAddr, base] at *
  omega

/-- Only the words from `t / 4` on are written back, and they change only
the entries of the new item. -/
theorem entryAt_storedFlash {f : Flash} {p t n m : ℕ} {item : Item} {rest : Option (List UInt8)} {T : EntryTable}
    (hm : t / 4 + m ≤ 8) (hT : setEntryStates (tableAt f p) t n .written = some T) {i : ℕ} (hi : i < 128) :
    entryAt (storedFlash f p t item rest T m) p i =
      if t ≤ i ∧ i < t + n ∧ t / 4 ≤ i / 16 ∧ i / 16 < t / 4 + m then (entryAt f p i).over .written else entryAt f p i := by
  have hslots : entryAt (slotsFlash f p t item rest) p i = entryAt f p i := by
    rw [entryAt_eq _ p hi, entryAt_eq f p hi, slotsFlash_before]
    simp only [slotAddr]
    omega
  have hself : (entryAt f p i).over (getEntryState (tableAt f p) i) = entryAt f p i := EntryState.over_self _
  rw [storedFlash, entryAt_tableFlash _ p T hm hi, hslots, getEntryState_setEntryStates hT]
  split_ifs <;> first | rfl | exact hself | omega

variable {Q : EspErr → NvsWorld → Prop}

theorem wp_storeItem {p t : ℕ} {table : EntryTable} {nsIndex datatype chunkIndex : UInt8} {key : List UInt8}
    {data : Option (List UInt8)} {length : UInt32} (hp : p < 8) (hs : 1 ≤ (itemSpan length).toNat)
    (ht : t + (itemSpan length).toNat ≤ 126)
    (hitem : G w (.write (slotAddr p t) (newItem nsIndex datatype key data length chunkIndex).encode))
    (hrest : ∀ rest, payload data length = some rest →
      G (after w (.write (slotAddr p t) (newItem nsIndex datatype key data length chunkIndex).encode))
        (.write (slotAddr p t + 32) rest))
    (hword : ∀ T, setEntryStates table t (itemSpan length).toNat .written = some T →
      ∀ k, t / 4 + k < 8 → t / 4 + k ≤ (t + (itemSpan length).toNat - 1) / 4 →
        G ⟨storedFlash w.flash p t (newItem nsIndex datatype key data length chunkIndex) (payload data length) T k,
          w.ram⟩ (wordStep p T (t / 4 + k)))
    (hok : ∀ T, setEntryStates table t (itemSpan length).toNat .written = some T →
      (t + (itemSpan length).toNat - 1) / 4 < 8 →
        Q espOk ⟨storedFlash w.flash p t (newItem nsIndex datatype key data length chunkIndex) (payload data length) T
          ((t + (itemSpan length).toNat - 1) / 4 + 1 - t / 4), updateCache nsIndex key (slotAddr p t) w.ram⟩)
    (herr : ∀ T, setEntryStates table t (itemSpan length).toNat .written = some T →
      8 ≤ (t + (itemSpan length).toNat - 1) / 4 →
        E .index ⟨storedFlash w.flash p t (newItem nsIndex datatype key data length chunkIndex) (payload data length) T
          (8 - t / 4), w.ram⟩) :
    wp G Q E (storeItem (pageAddr p) table t nsIndex datatype key data length chunkIndex) w := by
  have hpage : pageAddr p + entryDataOffset + t * entrySize = slotAddr p t := by rw [pageAddr_natCast hp, slotAddr_def]
  obtain ⟨T, hT⟩ := setEntryStates_isSome table (i := t) (n := (itemSpan length).toNat) (by omega) .written
  simp only [storeItem, hpage, wp_bind, wp_spiFlashWrite]
  refine ⟨hitem, ?_⟩
  have htable : ∀ f, f = slotsFlash w.flash p t (newItem nsIndex datatype key data length chunkIndex)
      (payload data length) → wp G Q E (do
        let entryTable ← checked (setEntryStates table t (itemSpan length).toNat .written)
        writeTableWords (pageAddr p) entryTable (t / 4) ((t + (itemSpan length).toNat - 1) / 4)
        modifyCache (updateCache nsIndex key (slotAddr p t))
        pure espOk) ⟨f, w.ram⟩ := by
    rintro f rfl
    rw [hT, wp_bind, wp_checked]
    refine ⟨fun T' hT' => ?_, fun h => by cases h⟩
    cases hT'
    rw [wp_bind]
    refine wp_writeTableWords hp (by omega) (fun k h1 h2 => hword T hT k h2 h1) (fun h => ?_) (herr T hT)
    rw [wp_bind, wp_modifyCache, wp_pure]
    exact hok T hT h
  cases hpay : payload data length with
  | none =>
    rw [hpay, slotsFlash, Option.getD_none, program_nil] at htable
    exact htable _ rfl
  | some rest =>
    rw [hpay, slotsFlash, Option.getD_some] at htable
    simp only [wp_bind, wp_spiFlashWrite]
    have := htable _ rfl
    simp only [wp_bind] at this
    exact ⟨hrest rest hpay, this⟩

/-- All steps of `storeItem` stay behind the state word of its page. -/
theorem wp_storeItem_inner {p t : ℕ} {table : EntryTable} {nsIndex datatype chunkIndex : UInt8} {key : List UInt8}
    {data : Option (List UInt8)} {length : UInt32} (hp : p < 8) (hs : 1 ≤ (itemSpan length).toNat)
    (ht : t + (itemSpan length).toNat ≤ 126) (hfit : Fits data length)
    (hok : ∀ T, setEntryStates table t (itemSpan length).toNat .written = some T →
      (t + (itemSpan length).toNat - 1) / 4 < 8 →
        Q espOk ⟨storedFlash w.flash p t (newItem nsIndex datatype key data length chunkIndex) (payload data length) T
          ((t + (itemSpan length).toNat - 1) / 4 + 1 - t / 4), updateCache nsIndex key (slotAddr p t) w.ram⟩)
    (herr : ∀ T, setEntryStates table t (itemSpan length).toNat .written = some T →
      8 ≤ (t + (itemSpan length).toNat - 1) / 4 →
        E .index ⟨storedFlash w.flash p t (newItem nsIndex datatype key data length chunkIndex) (payload data length) T
          (8 - t / 4), w.ram⟩) :
    wp (fun _ op => Inner p op) Q E (storeItem (pageAddr p) table t nsIndex datatype key data length chunkIndex) w := by
  refine wp_storeItem hp hs ht ?_ (fun rest hrest => ?_) (fun T _ k hk _ => inner_wordStep p T (by omega)) hok herr
  · exact ⟨_, _, rfl, by simp only [slotAddr]; omega, by simp only [slotAddr, Item.length_encode]; omega⟩
  · have := hfit rest hrest
    exact ⟨_, _, rfl, by simp only [slotAddr]; omega, by simp only [slotAddr]; omega⟩

theorem stateAt_storedFlash {f : Flash} {p t n m : ℕ} {item : Item} {rest : Option (List UInt8)} {T : EntryTable}
    (hn : 1 ≤ n) (ht : t + n ≤ 126) (hfit : ∀ bs, rest = some bs → bs.length ≤ 32 * (n - 1)) (hm : t / 4 + m ≤ 8)
    (q : ℕ) : stateAt (storedFlash f p t item rest T m) q = stateAt f q := by
  refine stateAt_congr fun x h1 h2 => ?_
  rw [storedFlash, tableFlash_outside _ T hm, slotsFlash_outside hn hfit]
  · simp only [slotAddr, base] at *
    omega
  · simp only [base] at *
    omega

/-! ### Choosing a page -/

/-- The page `writeItem` chooses: the answer of `findActivePage`, or page 0. -/
def selPage (f : Flash) : ℕ := (activePage f).1.toNat

/-- The chosen page is initialised first unless it is active. -/
def selFlash (f : Flash) : Flash :=
  if stateAt f (selPage f) = PageState.active.word then f else initFlash f (selPage f) ((activePage f).2 + 1)

theorem selPage_lt (f : Flash) : selPage f < 8 := by
  rw [selPage]
  rcases activePage_cases f with ⟨p, hp, he, -⟩ | ⟨-, p, hp, he, -⟩ | ⟨-, -, he⟩ <;> omega

/-- Unless the chosen page is active, none is. -/
theorem selPage_active_or (f : Flash) :
    stateAt f (selPage f) = PageState.active.word ∨ ∀ p < 8, stateAt f p ≠ PageState.active.word := by
  rcases activePage_cases f with ⟨p, hp, he, ha⟩ | ⟨hn, -⟩ | ⟨hn, -⟩
  · left
    rwa [selPage, he, Int.toNat_natCast]
  · exact .inr hn
  · exact .inr hn

theorem stateAt_selFlash (f : Flash) : stateAt (selFlash f) (selPage f) = PageState.active.word := by
  rw [selFlash]
  split_ifs with h
  · exact h
  · exact stateAt_initFlash _ _ _

theorem selFlash_otherPage (f : Flash) {q x : ℕ} (hq : q ≠ selPage f) (hx : base q ≤ x) (hx' : x < base q + 4096) :
    selFlash f x = f x := by
  rw [selFlash]
  split_ifs
  · rfl
  · exact initFlash_otherPage f _ hq hx hx'

theorem tableAt_initFlash (f : Flash) (p : ℕ) (seqNumber : UInt32) : tableAt (initFlash f p seqNumber) p = .blank := by
  rw [tableAt, EntryTable.ofBytes, EntryTable.blank]
  ext i hi
  rw [Vector.getElem_ofFn, Vector.getElem_replicate, Flash.getD_read, if_pos hi,
    initFlash_blank f seqNumber (by omega) (by omega)]

theorem wp_selectPage {Q : ℤ × UInt32 × EntryTable → NvsWorld → Prop} :
    wp G Q E selectPage w ↔
      (stateAt w.flash (selPage w.flash) ≠ PageState.active.word →
        G w (.erase (base (selPage w.flash)) 4096) ∧
        G (after w (.erase (base (selPage w.flash)) 4096))
          (.write (base (selPage w.flash)) (freshHeader ((activePage w.flash).2 + 1)).encode) ∧
        G { w with flash := selFlash w.flash } (.write (base (selPage w.flash) + 32) (List.replicate 32 0xff))) ∧
      Q (selPage w.flash, (activePage w.flash).2, tableAt (selFlash w.flash) (selPage w.flash))
        { w with flash := selFlash w.flash } := by
  have hactive : PageState.active.word ≠ PageState.uninitialized.word := by decide
  have hp := selPage_lt w.flash
  have hsel : ∀ p : ℕ, (activePage w.flash).1 = p → selPage w.flash = p := by
    intro p he
    rw [selPage, he, Int.toNat_natCast]
  rw [selectPage, wp_bind, reads_findActivePage]
  rcases activePage_cases w.flash with ⟨p, hp, he, ha⟩ | ⟨-, p, hp, he, hu, -⟩ | ⟨hn, -, he⟩
  · have hne : (p : ℤ) ≠ -1 := by omega
    have hst : (headerAt w.flash p).state = PageState.active.word := ha
    simp only [he, hne, if_false, wp_bind, wp_pure, hsel p he]
    rw [reads_readHeader hp]
    simp only [hst, hactive, if_false, wp_bind, wp_pure]
    rw [reads_readTable hp, selFlash, hsel p he, if_pos ha]
    simp only [ha, ne_eq, not_true, false_implies, true_and]
  · have hne : (p : ℤ) ≠ -1 := by omega
    have hst : (headerAt w.flash p).state = PageState.uninitialized.word := hu
    have hna : stateAt w.flash p ≠ PageState.active.word := by
      rw [hu]
      exact hactive.symm
    simp only [he, hne, if_false, wp_bind, wp_pure, hsel p he]
    rw [reads_readHeader hp]
    simp only [hst, if_true, wp_bind]
    rw [wp_initializePage hp, reads_readHeader hp]
    simp only [wp_pure]
    rw [reads_readTable hp, selFlash, hsel p he, if_neg hna]
    simp only [hna, ne_eq, not_false_eq_true, true_implies, and_assoc]
  · have hsel : selPage w.flash = 0 := by rw [selPage, he]; rfl
    have hna := hn 0 (by omega)
    have h0 : pageAddr 0 = pageAddr ((0 : ℕ) : ℤ) := rfl
    have hst : ∀ s, (headerAt (initFlash w.flash 0 s) 0).state = PageState.active.word :=
      fun s => stateAt_initFlash _ _ _
    simp only [he, if_true, wp_bind, hsel]
    rw [show (0 : ℤ) = ((0 : ℕ) : ℤ) from rfl, wp_initializePage (by omega)]
    simp only [wp_pure]
    rw [reads_readHeader (by omega)]
    simp only [hst, hactive, if_false, wp_bind, wp_pure]
    rw [reads_readTable (by omega), selFlash, hsel, if_neg hna]
    simp only [hna, ne_eq, not_false_eq_true, true_implies, and_assoc]

/-! ### Leaving a page -/

/-- The flash after `markPageFull`. -/
def fullFlash (f : Flash) (p : ℕ) : Flash := f.program (base p) (le32 PageState.full.word)

theorem fullFlash_otherPage (f : Flash) {p q x : ℕ} (hq : q ≠ p) (hx : base q ≤ x) (hx' : x < base q + 4096) :
    fullFlash f p x = f x :=
  program_otherPage le_rfl (by simp) hq hx hx'

theorem stateAt_fullFlash_other (f : Flash) {p q : ℕ} (hq : q ≠ p) : stateAt (fullFlash f p) q = stateAt f q :=
  stateAt_program_otherPage le_rfl (by simp) hq

theorem wp_switchPage {Q : ℤ → NvsWorld → Prop} (compactPage : CompactPage) {p : ℕ} (hp : p < 8) (maxSeq : UInt32) :
    wp G Q E (switchPage compactPage p maxSeq) w ↔
      G w (.write (base p) (le32 PageState.full.word)) ∧
      if stateAt w.flash (nextPage p) = PageState.uninitialized.word then
        G { w with flash := fullFlash w.flash p } (.erase (base (nextPage p)) 4096) ∧
        G (after { w with flash := fullFlash w.flash p } (.erase (base (nextPage p)) 4096))
          (.write (base (nextPage p)) (freshHeader (maxSeq + 1)).encode) ∧
        G { w with flash := initFlash (fullFlash w.flash p) (nextPage p) (maxSeq + 1) }
          (.write (base (nextPage p) + 32) (List.replicate 32 0xff)) ∧
        Q (nextPage p) { w with flash := initFlash (fullFlash w.flash p) (nextPage p) (maxSeq + 1) }
      else
        wp G (fun _ w => Q (activePage w.flash).1 w) E
          (compactPage (nextPage p) (nextPage (nextPage p)) (maxSeq + 1)) { w with flash := fullFlash w.flash p } := by
  have hst : (headerAt (after w (.write (base p) (le32 PageState.full.word))).flash (nextPage p)).state =
      stateAt w.flash (nextPage p) := stateAt_fullFlash_other w.flash nextPage_ne
  simp only [switchPage, wp_bind, next_natCast]
  rw [wp_markPageFull hp]
  refine and_congr_right fun _ => ?_
  rw [reads_readHeader (nextPage_lt p)]
  simp only [hst]
  split_ifs
  · rw [wp_bind, wp_initializePage (nextPage_lt p)]
    exact Iff.rfl
  · simp only [wp_bind, wp_pure]
    refine iff_of_eq (congrArg (wp G · E _ _) (funext fun _ => funext fun w' => ?_))
    exact propext (reads_findActivePage G (fun a w => Q a.1 w) E w')

theorem wp_writeItemWith (compactPage : CompactPage) {nsIndex datatype chunkIndex : UInt8} {key : List UInt8}
    {data : Option (List UInt8)} {length : UInt32} :
    wp G Q E (writeItemWith compactPage nsIndex datatype key data length chunkIndex) w ↔
      (stateAt w.flash (selPage w.flash) ≠ PageState.active.word →
        G w (.erase (base (selPage w.flash)) 4096) ∧
        G (after w (.erase (base (selPage w.flash)) 4096))
          (.write (base (selPage w.flash)) (freshHeader ((activePage w.flash).2 + 1)).encode) ∧
        G { w with flash := selFlash w.flash } (.write (base (selPage w.flash) + 32) (List.replicate 32 0xff))) ∧
      match findConsecutiveEntries (tableAt (selFlash w.flash) (selPage w.flash)) (itemSpan length).toNat with
        | some t => wp G Q E (storeItem (pageAddr (selPage w.flash)) (tableAt (selFlash w.flash) (selPage w.flash)) t
            nsIndex datatype key data length chunkIndex) { w with flash := selFlash w.flash }
        | none => wp G (fun (q : ℤ) w => wp G (fun table w =>
            wp G Q E (match findConsecutiveEntries table (itemSpan length).toNat with
              | some t => storeItem (pageAddr q) table t nsIndex datatype key data length chunkIndex
              | none => return espErrNvsNoFreePages) w) E (readTable (pageAddr q)) w) E
            (switchPage compactPage (selPage w.flash) (activePage w.flash).2) { w with flash := selFlash w.flash } := by
  rw [writeItemWith, wp_bind, wp_selectPage]
  refine and_congr_right fun _ => ?_
  simp only
  cases findConsecutiveEntries (tableAt (selFlash w.flash) (selPage w.flash)) (itemSpan length).toNat with
  | some t => exact Iff.rfl
  | none =>
    simp only [wp_bind]
    all_goals exact Iff.rfl

/-- `compactPage` initialises its destination and moves the entries of a dirty
page one by one; `I i` holds once those before `i` are moved. Its last write
clears no bit. -/
theorem wp_compactPageWith {I : ℕ → NvsWorld → Prop} {env : Env} {writeItem : WriteItem} {src dest : ℕ} (hsrc : src < 8)
    (hdest : dest < 8) (nextSeq : UInt32) (herase : G w (.erase (base dest) 4096)) (hwrite : ∀ w a bs, G w (.write a bs))
    (hclean : (headerAt w.flash src).dirty = 0xffffffff → Q espOk ⟨initFlash w.flash dest nextSeq, w.ram⟩)
    (hinit : (headerAt w.flash src).dirty ≠ 0xffffffff → I 0 ⟨initFlash w.flash dest nextSeq, w.ram⟩)
    (hmove : (headerAt w.flash src).dirty ≠ 0xffffffff → ∀ i < 126, ∀ w', I i w' →
      wp G (fun _ => I (i + 1)) E (moveEntry env writeItem (pageAddr src) (tableAt w.flash src) i) w')
    (hdone : ∀ w', I 126 w' → Q espOk w') :
    wp G Q E (compactPageWith env writeItem src dest nextSeq) w := by
  have hlast : ∀ w' : NvsWorld, Q espOk w' → wp G Q E (do
      spiFlashWrite (pageAddr src) (le32 PageState.uninitialized.word)
      return espOk : NvsM EspErr) w' := by
    intro w' h
    rw [wp_bind, wp_spiFlashWrite, wp_pure, after, Op.apply_write, program_uninit]
    exact ⟨hwrite _ _ _, h⟩
  rw [compactPageWith, wp_bind, reads_readTable hsrc, wp_bind, reads_readHeader hsrc]
  split_ifs with hdirty
  · rw [wp_bind, wp_initializePage hdest]
    exact ⟨herase, hwrite _ _ _, hwrite _ _ _, hlast _ (hclean hdirty)⟩
  · rw [wp_bind, wp_initializePage hdest, wp_bind]
    refine ⟨herase, hwrite _ _ _, hwrite _ _ _, ?_⟩
    exact wp_post (wp_range (fun i _ => I i) (fun i hi _ => hmove hdirty i hi) (hinit hdirty)) fun _ w' h => hlast w' (hdone w' h)

end Esp8266Sdk.Nvs
