import Esp8266Sdk.Nvs.Compaction
import Esp8266Sdk.Nvs.Ring

/-! Which initialisations erase live data. Pages are initialised where they are
uninitialised, which no lookup sees, or as the destination of a compaction, or
as page 0 where no page is active or uninitialised. The last two look at
nothing before they erase. -/

namespace Esp8266Sdk.Nvs

open Nor Prog

/-- A lookup answers entry `i` of page `p`, and all entries of its span are written. -/
def Live (f : Flash) (p i : ℕ) : Prop :=
  (∃ nsIndex key chunkIndex, FirstMatch f nsIndex key chunkIndex p i) ∧
    ∀ j, i ≤ j → j < i + spanAt f p i → entryAt f p j = .written

/-- Entry `j` of page `q` holds the bytes of entry `i` of page `p`, all written. -/
def CopyOf (f : Flash) (p i q j : ℕ) : Prop :=
  (∀ k, j ≤ k → k < j + spanAt f p i → entryAt f q k = .written) ∧
    f.read (slotAddr q j) (32 * spanAt f p i) = f.read (slotAddr p i) (32 * spanAt f p i)

/-- An erase of a page leaves a copy of each of its live items in another page. -/
def SafeErase (f : Flash) (op : Op) : Prop :=
  ∀ p < 8, op = .erase (base p) 4096 → ∀ i, Live f p i → ∃ q < 8, q ≠ p ∧ ∃ j, CopyOf f p i q j

theorem safe_write (f : Flash) (a : ℕ) (bs : List UInt8) : SafeErase f (.write a bs) := by
  intro p _ h
  cases h

theorem Inner.safe {p : ℕ} {op : Op} (h : Inner p op) (f : Flash) : SafeErase f op := by
  obtain ⟨a, bs, rfl, -, -⟩ := h
  exact safe_write f a bs

/-- No lookup sees an uninitialised page. -/
theorem safe_of_uninitialized {f : Flash} {p : ℕ} (h : stateAt f p = PageState.uninitialized.word) :
    SafeErase f (.erase (base p) 4096) := by
  intro q _ he i hl
  have hb : base p = base q := by injection he
  obtain rfl := base_inj.1 hb
  obtain ⟨⟨_, _, _, hm, -⟩, -⟩ := hl
  exact absurd h hm.2.2.1.1

theorem safe_of_noWritten {f : Flash} {p : ℕ} (h : NoWritten f p) : SafeErase f (.erase (base p) 4096) := by
  intro q _ he i hl
  have hb : base p = base q := by injection he
  obtain rfl := base_inj.1 hb
  obtain ⟨⟨_, _, _, hm, -⟩, -⟩ := hl
  exact absurd hm.2.2.2.1 (h i hm.2.1)

/-! ### The condition -/

/-- `writeItem` may erase: page 0, reached by the index `-1`, holds no written
entry; and where the chosen page has no room and the next page is in use, the
page behind that one holds no written entry and takes all that is moved to it. -/
def WriteSafe (f : Flash) (length : UInt32) : Prop :=
  ((activePage f).1 = -1 → NoWritten f 0) ∧
  (findConsecutiveEntries (tableAt (selFlash f) (selPage f)) (itemSpan length).toNat = none →
    stateAt f (nextPage (selPage f)) = PageState.uninitialized.word ∨
    NoWritten f (nextPage (nextPage (selPage f))) ∧
      ((headerAt f (nextPage (selPage f))).dirty = 0xffffffff ∨ writtenSpan f (nextPage (selPage f)) 126 ≤ 126))

/-! ### Moving items into a fresh page -/

/-- A compaction into a page without written entries that takes all that is moved. -/
theorem wp_compactPage_safe (env : Env) (depth : ℕ) {src dest : ℕ} (hsrc : src < 8) (hdest : dest < 8) (hne : src ≠ dest)
    (nextSeq : UInt32) {w : NvsWorld} (hn : NoActive w.flash) (hd : NoWritten w.flash dest)
    (hs : (headerAt w.flash src).dirty = 0xffffffff ∨ writtenSpan w.flash src 126 ≤ 126) :
    wp (fun w op => SafeErase w.flash op) (fun _ w' => AtMostOneActive w'.flash ∧
      stateAt w'.flash dest = PageState.active.word) (fun _ _ => True) (compactPage env depth src dest nextSeq) w := by
  have hfill := filling_initFlash hn dest nextSeq
  rw [compactPage]
  refine wp_compactPageWith hsrc hdest nextSeq (safe_of_noWritten hd) (fun w => safe_write w.flash) (fun _ => ⟨hfill.one, hfill.active⟩)
    (I := fun i w' => Filling w'.flash dest (writtenSpan w.flash src i) ∧
      ∀ x, base src ≤ x → x < base src + 4096 → w'.flash x = w.flash x)
    (fun _ => ⟨hfill, fun x h1 h2 => initFlash_otherPage _ _ hne h1 h2⟩) (fun hdirty i hi w' h => ?_)
    fun _ h => ⟨h.1.one, h.1.active⟩
  have hsum := hs.resolve_left hdirty
  by_cases hw : entryAt w.flash src i = .written
  · have hmono := writtenSpan_mono w.flash src (m := i + 1) (n := 126) (by omega)
    rw [writtenSpan_succ hw] at hmono ⊢
    exact wp_mono (wp_moveEntry_filling env depth hsrc hdest hne hi hw (by omega) h.1 h.2) (fun w op h => h.safe w.flash)
      (fun _ _ h' => ⟨h'.1 _ (by omega) (.inl le_rfl), h'.2⟩) fun _ _ _ => trivial
  · rw [moveEntry_skip env _ hw, writtenSpan, if_neg hw]
    exact h

/-! ### Writing -/

/-- The page `writeItem` chooses is uninitialised, or page 0, where it is not active. -/
theorem safe_selPage {f : Flash} (h0 : (activePage f).1 = -1 → NoWritten f 0)
    (hna : stateAt f (selPage f) ≠ PageState.active.word) : SafeErase f (.erase (base (selPage f)) 4096) := by
  rcases activePage_cases f with ⟨p, -, he, ha⟩ | ⟨-, p, -, he, hu, -⟩ | ⟨-, -, he⟩
  · rw [selPage, he, Int.toNat_natCast] at hna
    exact absurd ha hna
  · rw [selPage, he, Int.toNat_natCast]
    exact safe_of_uninitialized hu
  · rw [selPage, he]
    exact safe_of_noWritten (h0 he)

theorem wp_storeItem_safe {p : ℕ} (hp : p < 8) {table : EntryTable} {t : ℕ} {nsIndex datatype chunkIndex : UInt8}
    {key : List UInt8} {data : Option (List UInt8)} {length : UInt32} {w : NvsWorld}
    (ht : findConsecutiveEntries table (itemSpan length).toNat = some t) :
    wp (fun w op => SafeErase w.flash op) (fun _ _ => True) (fun _ _ => True)
      (storeItem (pageAddr p) table t nsIndex datatype key data length chunkIndex) w := by
  obtain ⟨hs, ht⟩ := room_of_some ht
  exact wp_storeItem hp hs ht (safe_write _ _ _) (fun _ _ => safe_write _ _ _) (fun _ _ _ _ _ => safe_write _ _ _)
    (fun _ _ _ => trivial) fun _ _ _ => trivial

/-- The second try of `writeItem`, on the page it turned to, erases nothing. -/
theorem wp_secondTry_safe {p : ℕ} (hp : p < 8) {nsIndex datatype chunkIndex : UInt8} {key : List UInt8}
    {data : Option (List UInt8)} {length : UInt32} {w : NvsWorld} :
    wp (fun w op => SafeErase w.flash op) (fun table w' =>
      wp (fun w op => SafeErase w.flash op) (fun _ _ => True) (fun _ _ => True)
        (match findConsecutiveEntries table (itemSpan length).toNat with
          | some t => storeItem (pageAddr p) table t nsIndex datatype key data length chunkIndex
          | none => return espErrNvsNoFreePages) w') (fun _ _ => True) (readTable (pageAddr p)) w := by
  rw [reads_readTable hp]
  cases ht : findConsecutiveEntries (tableAt w.flash p) (itemSpan length).toNat with
  | some t => exact wp_storeItem_safe hp ht
  | none => trivial

theorem wp_writeItem_safe (env : Env) (depth : ℕ) {nsIndex datatype chunkIndex : UInt8} {key : List UInt8}
    {data : Option (List UInt8)} {length : UInt32} {w : NvsWorld} (hm : AtMostOneActive w.flash)
    (h : WriteSafe w.flash length) :
    wp (fun w op => SafeErase w.flash op) (fun _ _ => True) (fun _ _ => True)
      (writeItem env depth nsIndex datatype key data length chunkIndex) w := by
  cases depth with
  | zero => trivial
  | succ depth =>
    have hp := selPage_lt w.flash
    rw [writeItem, wp_writeItemWith]
    refine ⟨fun hna => ⟨safe_selPage h.1 hna, safe_write _ _ _, safe_write _ _ _⟩, ?_⟩
    cases hroom : findConsecutiveEntries (tableAt (selFlash w.flash) (selPage w.flash)) (itemSpan length).toNat with
    | some t => exact wp_storeItem_safe hp hroom
    | none =>
      -- the pages behind the chosen one are as they were before it was initialised and marked full
      have hother : ∀ q, q ≠ selPage w.flash → ∀ x, base q ≤ x → x < base q + 4096 →
          fullFlash (selFlash w.flash) (selPage w.flash) x = w.flash x := fun q hq x h1 h2 =>
        (fullFlash_otherPage _ hq h1 h2).trans (selFlash_otherPage _ hq h1 h2)
      have hstate : stateAt (selFlash w.flash) (nextPage (selPage w.flash)) =
          stateAt w.flash (nextPage (selPage w.flash)) :=
        stateAt_congr fun x h1 h2 => selFlash_otherPage _ nextPage_ne h1 (by omega)
      have hne : nextPage (nextPage (selPage w.flash)) ≠ selPage w.flash := by
        simp only [nextPage]
        omega
      rw [wp_switchPage _ hp]
      refine ⟨safe_write _ _ _, ?_⟩
      simp only [hstate]
      split_ifs with hu
      · have hnext : stateAt (fullFlash (selFlash w.flash) (selPage w.flash)) (nextPage (selPage w.flash)) =
            PageState.uninitialized.word := by
          rw [stateAt_fullFlash_other _ nextPage_ne, hstate, hu]
        exact ⟨safe_of_uninitialized hnext, safe_write _ _ _, safe_write _ _ _, wp_secondTry_safe (nextPage_lt _)⟩
      · obtain ⟨hd, hs⟩ := (h.2 hroom).resolve_left hu
        have hn : NoActive (fullFlash (selFlash w.flash) (selPage w.flash)) :=
          (atMostOne_selFlash hm).markFull hp (stateAt_selFlash _)
        rw [← headerAt_page (hother _ nextPage_ne),
          ← writtenSpan_page (hother _ nextPage_ne) le_rfl] at hs
        have hd' : NoWritten (fullFlash (selFlash w.flash) (selPage w.flash)) (nextPage (nextPage (selPage w.flash))) :=
          noWritten_page (hother _ hne) hd
        have hc := wp_compactPage_safe env depth (nextPage_lt (selPage w.flash)) (nextPage_lt (nextPage (selPage w.flash)))
          nextPage_ne.symm ((activePage w.flash).2 + 1) (w := ⟨_, w.ram⟩) hn hd' hs
        apply wp_post hc
        rintro _ w' ⟨hm', ha'⟩
        rcases activePage_cases w'.flash with ⟨r, hr, he, -⟩ | ⟨hn', -⟩ | ⟨hn', -⟩
        · rw [he]
          exact wp_secondTry_safe hr
        · exact absurd ha' (hn' _ (nextPage_lt _))
        · exact absurd ha' (hn' _ (nextPage_lt _))

/-! ### Calls -/

/-- What a call may do in a world, for all pages it initialises to be safe. -/
def SafeCall (env : Env) (w : NvsWorld) : Call → Prop
  | .flashInit => (activePage w.flash).1 = -1 → NoWritten w.flash 0
  | .open name => name.bytes ≠ phyName → (lookup env w 0 ItemType.u8.code name.bytes 0xff).1.err ≠ espOk →
      WriteSafe w.flash 1
  | .set s handle key => Fits s.data s.length ∧
      ∀ w', (eraseOldItem (nsIndexOf handle) s.itemType.code key.bytes).run w = (.ok (), w') → WriteSafe w'.flash s.length
  | _ => True

theorem SafeCall.fits {env : Env} {w : NvsWorld} {c : Call} (h : SafeCall env w c) : c.Fits := by
  cases c with
  | set s handle key => exact h.1
  | _ => trivial

variable {w : NvsWorld}

theorem wp_eraseOldItem_safe (nsIndex datatype : UInt8) (key : List UInt8) (hm : AtMostOneActive w.flash) :
    wp (fun w op => SafeErase w.flash op) (fun _ w' => AtMostOneActive w'.flash) (fun _ _ => True)
      (eraseOldItem nsIndex datatype key) w := by
  rw [eraseOldItem]
  refine wp_range (fun _ _ w => AtMostOneActive w.flash) (fun p hp _ w hm => ?_) hm
  have hd := keeps_inner (inner_dirtyStep p) hm
  refine wp_erasePage hp (fun _ _ => safe_write _ _ _) (fun _ _ _ _ => safe_write _ _ _) (fun _ _ => hm)
    (fun table _ => ?_) fun _ => trivial
  exact atMostOne_tableFlash p table (by omega) hd.2

theorem wp_nvsEraseAll_safe (handle : UInt32) :
    wp (fun w op => SafeErase w.flash op) (fun _ _ => True) (fun _ _ => True) (nvsEraseAll handle) w := by
  rw [nvsEraseAll, wp_bind]
  refine wp_range (fun _ _ _ => True) (fun p hp _ w _ => ?_) trivial
  exact wp_eraseAllPage hp (fun _ _ _ _ => safe_write _ _ _) (fun _ _ => trivial) (fun _ _ => trivial) fun _ => trivial

/-- Every page a call initialises, where the condition holds, is safe to erase. -/
theorem call_safe (env : Env) (depth : ℕ) {c : Call} (hc : SafeCall env w c) (hne : c ≠ .flashErase)
    (hm : AtMostOneActive w.flash) :
    wp (fun w op => SafeErase w.flash op) (fun _ _ => True) (fun _ _ => True) (c.prog env depth) w := by
  cases c with
  | flashInit =>
    rw [Call.prog, nvsFlashInit, wp_bind, reads_findActivePage]
    simp only
    split_ifs with h
    · rw [wp_bind, show (0 : ℤ) = ((0 : ℕ) : ℤ) from rfl, wp_initializePage (by omega)]
      exact ⟨safe_of_noWritten (hc h), safe_write _ _ _, safe_write _ _ _, trivial⟩
    · trivial
  | flashErase => exact absurd rfl hne
  | «open» name =>
    rw [Call.prog, nvsOpen]
    split_ifs with hphy
    · trivial
    · rw [wp_bind, wp_findItem]
      split_ifs with he
      · trivial
      · simp only [wp_bind]
        refine wp_post (wp_writeItem_safe env depth (w := ⟨w.flash, _⟩) hm (hc hphy he)) fun err w' _ => ?_
        split_ifs <;> trivial
  | get g handle key =>
    rw [Call.prog, wp_getter]
    split <;> trivial
  | set s handle key =>
    rw [Call.prog, Setter.prog_eq, nvsSetValue, wp_bind]
    refine wp_post (wp_and_run (wp_eraseOldItem_safe _ _ _ hm)) fun _ w' h => ?_
    rw [wp_bind]
    exact wp_post (wp_writeItem_safe env depth h.1 (hc.2 w' h.2)) fun _ _ _ => trivial
  | eraseKey handle key =>
    rw [Call.prog, nvsEraseKey, wp_bind]
    exact wp_post (wp_eraseOldItem_safe _ _ _ hm) fun _ _ _ => trivial
  | eraseAll handle => exact wp_nvsEraseAll_safe handle
  | flashDeinit => trivial
  | close handle => trivial
  | commit handle => trivial

/-- The set of a value longer than a page from the last page, where page 0 is in
use, erases page 1. -/
theorem erases_of_overlong (env : Env) {s : Setter} {handle : UInt32} {key : CString} (hlong : 126 < (itemSpan s.length).toNat)
    (hno : NoHit w.flash (nsIndexOf handle) s.itemType.code key.bytes) (hm : AtMostOneActive w.flash)
    (hact : stateAt w.flash 7 = PageState.active.word) (hu : stateAt w.flash 0 ≠ PageState.uninitialized.word) (depth : ℕ)
    {G : NvsWorld → Op → Prop} (h : ∀ s' ∈ ((Call.set s handle key).prog env (depth + 1)).steps w, G s'.1 s'.2) :
    G ⟨fullFlash w.flash 7, w.ram⟩ (.erase (base 1) 4096) := by
  have hsel := selPage_of_active hm (by omega) hact
  have hself : selFlash w.flash = w.flash := by rw [selFlash, hsel, if_pos hact]
  have hwp := wp_of_steps h
  have herase := wp_run (wp_eraseOldItem_noHit (G := fun _ _ => True) (E := fun _ _ => False) (Q := fun _ w' => w' = w) hno rfl)
  rw [Call.prog, Setter.prog_eq, nvsSetValue, wp_bind] at hwp
  rcases hr : (eraseOldItem (nsIndexOf handle) s.itemType.code key.bytes).run w with ⟨e | ⟨⟩, w'⟩
  · rw [hr] at herase
    exact herase.elim
  rw [hr] at herase
  subst herase
  have hwp := wp_ok hwp hr
  rw [wp_bind, writeItem, wp_writeItemWith, hsel, hself, noRoom_of_overlong hlong] at hwp
  have hwp := hwp.2
  simp only at hwp
  rw [wp_switchPage _ (by omega), show nextPage 7 = 0 from rfl, if_neg hu] at hwp
  have hwp := hwp.2
  rw [compactPageWith, wp_bind, reads_readTable (by omega), wp_bind, reads_readHeader (by omega)] at hwp
  split_ifs at hwp
  · rw [wp_bind, wp_initializePage (nextPage_lt 0)] at hwp
    exact hwp.1
  · rw [wp_bind, wp_initializePage (nextPage_lt 0)] at hwp
    exact hwp.1

theorem getEntryState_blank_ne (i : ℕ) : getEntryState .blank i ≠ .written := by
  rcases Nat.lt_or_ge i 128 with hi | hi
  · rw [getEntryState_blank hi]
    decide
  · rw [getEntryState_eq, Vector.getElem?_eq_none (by omega), Option.getD_none, byteState, UInt8.zero_shiftRight]
    decide

/-- The one item of the partition is at the first entry of its page. -/
theorem not_safeErase {f : Flash} {p : ℕ} {nsIndex : UInt8} {key : List UInt8} (hm : Match f nsIndex key 0xff p 0)
    (hs : spanAt f p 0 = 1) (hno : ∀ q < 8, q ≠ p → tableAt f q = .blank) : ¬ SafeErase f (.erase (base p) 4096) := by
  have hw := hm.2.2.2.1
  have hempty : ∀ q < 8, q ≠ p → ∀ j, entryAt f q j ≠ .written := by
    intro q hq hqp j
    rw [entryAt, hno q hq hqp]
    exact getEntryState_blank_ne j
  have hlive : Live f p 0 := by
    refine ⟨⟨nsIndex, key, 0xff, hm, fun q j hb hmq => ?_⟩, fun j _ h2 => ?_⟩
    · have hqp : q ≠ p := by
        simp only [Before] at hb
        omega
      exact hempty q hmq.1 hqp j hmq.2.2.2.1
    · rwa [show j = 0 by omega]
  intro hsafe
  obtain ⟨q, hq, hqp, j, hcopy, -⟩ := hsafe p hm.1 rfl 0 hlive
  exact hempty q hq hqp j (hcopy j le_rfl (by omega))

end Esp8266Sdk.Nvs
