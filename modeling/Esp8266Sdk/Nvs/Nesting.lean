import Esp8266Sdk.Nvs.Ring

/-! How deep `writeItem` and `compactPage` call each other. The destination of a
compaction is a fresh page, and as long as every item moved finds room in it no
call made from inside leaves the page: two levels are enough. -/

namespace Esp8266Sdk.Nvs

open Nor Prog

/-- `writeItem` that may not leave the page it chooses. -/
def writeInPlace : WriteItem := fun nsIndex datatype key data length chunkIndex => do
  let (pageIdx, _, entryTable) ← selectPage
  match findConsecutiveEntries entryTable (itemSpan length).toNat with
  | some targetEntryIdx => storeItem (pageAddr pageIdx) entryTable targetEntryIdx nsIndex datatype key data length chunkIndex
  | none => Prog.fail .stack

/-- A `writeItem` with two levels of stack or more returns, and runs as if no
`writeItem` inside its compactions may leave the page it chooses. -/
structure RoomInside (env : Env) (w : NvsWorld) (nsIndex datatype : UInt8) (key : List UInt8) (data : Option (List UInt8))
    (length : UInt32) (chunkIndex : UInt8) : Prop where
  depth : ∀ depth, (writeItem env (depth + 2) nsIndex datatype key data length chunkIndex).run w =
    (writeItemWith (compactPageWith env writeInPlace) nsIndex datatype key data length chunkIndex).run w
  stack : ((writeItemWith (compactPageWith env writeInPlace) nsIndex datatype key data length chunkIndex).run w).1 ≠
    .error .stack

/-- Each written entry of the page has a span of at most 94, or fits a page
together with those before it. -/
def MovesFit (f : Flash) (src : ℕ) : Prop :=
  ∀ i < 126, entryAt f src i = .written → spanAt f src i ≤ 94 ∨ writtenSpan f src i + spanAt f src i ≤ 126

instance (f : Flash) (src : ℕ) : Decidable (MovesFit f src) := inferInstanceAs (Decidable (∀ _ < _, _))

/-- Where `writeItem` compacts a dirty page, its entries fit the destination. -/
def CompactionFits (f : Flash) (length : UInt32) : Prop :=
  findConsecutiveEntries (tableAt (selFlash f) (selPage f)) (itemSpan length).toNat = none →
    stateAt f (nextPage (selPage f)) = PageState.uninitialized.word ∨
    (headerAt f (nextPage (selPage f))).dirty = 0xffffffff ∨ MovesFit f (nextPage (selPage f))

variable {env : Env} {w : NvsWorld} {nsIndex datatype chunkIndex : UInt8} {key : List UInt8} {data : Option (List UInt8)}
  {length : UInt32} {t : ℕ}

/-! ### Calls that find room -/

theorem run_selectPage (w : NvsWorld) : selectPage.run w = (.ok (selPage w.flash, (activePage w.flash).2,
    tableAt (selFlash w.flash) (selPage w.flash)), ⟨selFlash w.flash, w.ram⟩) := by
  have h := wp_run ((wp_selectPage (G := fun _ _ => True) (E := fun _ _ => False) (w := w) (Q := fun r w' =>
    r = (↑(selPage w.flash), (activePage w.flash).2, tableAt (selFlash w.flash) (selPage w.flash)) ∧
      w' = ⟨selFlash w.flash, w.ram⟩)).2 ⟨fun _ => ⟨trivial, trivial, trivial⟩, rfl, rfl⟩)
  rcases hr : (selectPage).run w with ⟨e | r, w'⟩
  · rw [hr] at h
    exact h.elim
  · rw [hr] at h
    rw [h.1, h.2]

/-- What a compaction would do is not seen where there is room. -/
theorem run_writeItemWith_room (compactPage : CompactPage)
    (hroom : findConsecutiveEntries (tableAt (selFlash w.flash) (selPage w.flash)) (itemSpan length).toNat = some t) :
    (writeItemWith compactPage nsIndex datatype key data length chunkIndex).run w =
      (writeInPlace nsIndex datatype key data length chunkIndex).run w := by
  rw [writeItemWith, writeInPlace, run_bind, run_bind, run_selectPage]
  simp only [hroom]

theorem run_writeInPlace_noRoom
    (hroom : findConsecutiveEntries (tableAt (selFlash w.flash) (selPage w.flash)) (itemSpan length).toNat = none) :
    ((writeInPlace nsIndex datatype key data length chunkIndex).run w).1 = .error .stack := by
  rw [writeInPlace, run_bind, run_selectPage]
  simp only [hroom]
  rfl

theorem run_markPageFull {p : ℕ} (hp : p < 8) (w : NvsWorld) :
    (markPageFull p).run w = (.ok espOk, ⟨fullFlash w.flash p, w.ram⟩) := by
  rw [markPageFull, pageAddr_natCast hp, Reads.run_bind (pageAddr_natCast hp ▸ reads_readHeader hp)]
  rfl

/-- Two compactions that run alike give two writes that do. -/
theorem run_writeItemWith_congr {c c' : CompactPage}
    (h : findConsecutiveEntries (tableAt (selFlash w.flash) (selPage w.flash)) (itemSpan length).toNat = none →
      stateAt w.flash (nextPage (selPage w.flash)) ≠ PageState.uninitialized.word →
      (c (nextPage (selPage w.flash)) (nextPage (nextPage (selPage w.flash))) ((activePage w.flash).2 + 1)).run
          ⟨fullFlash (selFlash w.flash) (selPage w.flash), w.ram⟩ =
        (c' (nextPage (selPage w.flash)) (nextPage (nextPage (selPage w.flash))) ((activePage w.flash).2 + 1)).run
          ⟨fullFlash (selFlash w.flash) (selPage w.flash), w.ram⟩) :
    (writeItemWith c nsIndex datatype key data length chunkIndex).run w =
      (writeItemWith c' nsIndex datatype key data length chunkIndex).run w := by
  have hp := selPage_lt w.flash
  rw [writeItemWith, writeItemWith]
  refine run_bind_congr rfl fun r w₁ hr => ?_
  rw [run_selectPage] at hr
  cases hr
  simp only
  cases hroom : findConsecutiveEntries (tableAt (selFlash w.flash) (selPage w.flash)) (itemSpan length).toNat with
  | some t => rfl
  | none =>
    refine run_bind_congr ?_ fun _ _ _ => rfl
    rw [switchPage, switchPage]
    simp only [next_natCast]
    refine run_bind_congr rfl fun r w₁ hr => ?_
    -- the page is marked full, and the state of the next one is not changed by that
    rw [run_markPageFull hp] at hr
    cases hr
    rw [Reads.run_bind (reads_readHeader (nextPage_lt _)), Reads.run_bind (reads_readHeader (nextPage_lt _))]
    split_ifs with hu
    · rfl
    · refine run_bind_congr (h hroom fun he => hu ?_) fun _ _ _ => rfl
      change stateAt (fullFlash (selFlash w.flash) (selPage w.flash)) (nextPage (selPage w.flash)) = _
      rw [stateAt_fullFlash_other _ nextPage_ne, ← he]
      exact stateAt_congr fun x h1 h2 => selFlash_otherPage _ nextPage_ne h1 (by omega)

/-! ### Compactions whose items fit -/

/-- Moving an entry that fits runs as if it may not leave the destination. -/
theorem run_moveEntry_inPlace (env : Env) (depth : ℕ) {f : Flash} {src dest i n : ℕ} (hsrc : src < 8) (hdest : dest < 8)
    (hn : entryAt f src i = .written → n + spanAt f src i ≤ 126) (hfill : Filling w.flash dest n)
    (hitem : itemAt w.flash src i = itemAt f src i) :
    (moveEntry env (writeItem env (depth + 1)) (pageAddr src) (tableAt f src) i).run w =
      (moveEntry env writeInPlace (pageAddr src) (tableAt f src) i).run w := by
  have hroom : ∀ (w' : NvsWorld) (k : List UInt8) (data : Option (List UInt8)) (length : UInt32), w'.flash = w.flash →
      1 ≤ (itemSpan length).toNat → n + (itemSpan length).toNat ≤ 126 → ∀ nsIndex datatype chunkIndex,
      (writeItem env (depth + 1) nsIndex datatype k data length chunkIndex).run w' =
        (writeInPlace nsIndex datatype k data length chunkIndex).run w' := by
    intro w' k data length hw hs hle nsIndex datatype chunkIndex
    obtain ⟨t, -, hroom⟩ := room_le hfill.empty hs hle
    refine run_writeItemWith_room _ (t := t) ?_
    rw [hw, hfill.selPage hdest, hfill.selFlash hdest, hroom]
  rw [moveEntry, moveEntry]
  by_cases hw : entryAt f src i = .written
  · have hw' : getEntryState (tableAt f src) i = .written := hw
    have hle := hn hw
    simp only [hw', if_true]
    rw [Reads.run_bind (reads_readItem hsrc i), Reads.run_bind (reads_readItem hsrc i), hitem]
    split_ifs with h1 hlt
    · have hs : (itemSpan 8).toNat = spanAt f src i := by
        rw [spanAt, h1]
        rfl
      exact run_bind_congr (hroom _ _ _ _ rfl (by decide) (by omega) _ _ _) fun _ _ _ => rfl
    · have hpos := span_pos_of_movedLength hlt
      have hs : (itemSpan (movedLength (itemAt f src i).span)).toNat = spanAt f src i := itemSpan_movedLength hpos h1
      refine run_bind_congr rfl fun rest w₁ hr => ?_
      cases hr
      exact run_bind_congr (hroom _ _ _ _ rfl (by rw [hs]; exact hpos) (by omega) _ _ _) fun _ _ _ => rfl
    · rfl
  · have hw' : getEntryState (tableAt f src) i ≠ .written := hw
    simp only [hw', if_false]

theorem MovesFit.room {f : Flash} {src i : ℕ} (h : MovesFit f src) (hi : i < 126) (hw : entryAt f src i = .written) :
    min (writtenSpan f src i) 32 + spanAt f src i ≤ 126 := by
  have := h i hi hw
  omega

/-- Entries before `i` are moved: the destination is filled up to what they take,
but no further than entry 32, and the source is as it was. -/
structure Moved (f : Flash) (src dest i : ℕ) (w : NvsWorld) : Prop where
  filling : Filling w.flash dest (min (writtenSpan f src i) 32)
  same : ∀ x, base src ≤ x → x < base src + 4096 → w.flash x = f x

theorem wp_moveEntry_moved (env : Env) (depth : ℕ) {f : Flash} {src dest i : ℕ} (hsrc : src < 8) (hdest : dest < 8)
    (hne : src ≠ dest) (hi : i < 126) (hfits : MovesFit f src) (h : Moved f src dest i w) :
    wp (fun _ _ => True) (fun _ => Moved f src dest (i + 1)) (fun e _ => e ≠ .stack)
      (moveEntry env (writeItem env (depth + 1)) (pageAddr src) (tableAt f src) i) w := by
  by_cases hw : entryAt f src i = .written
  · have hroom := hfits.room hi hw
    refine wp_mono (wp_moveEntry_filling env (depth + 1) hsrc hdest hne hi hw hroom h.filling h.same) (fun _ _ _ => trivial)
      (fun _ w' h' => ⟨?_, h'.2⟩) fun e _ hf => ?_
    · rw [writtenSpan_succ hw]
      exact h'.1 _ (by omega) (by omega)
    · rintro rfl
      cases hf with
      | stack h0 => omega
  · rw [moveEntry_skip env _ hw]
    refine ⟨?_, h.same⟩
    rw [writtenSpan, if_neg hw]
    exact h.filling

theorem moved_initFlash {f : Flash} (hn : NoActive f) {src dest : ℕ} (hne : src ≠ dest) (nextSeq : UInt32) (ram : Cache) :
    Moved f src dest 0 ⟨initFlash f dest nextSeq, ram⟩ where
  filling := filling_initFlash hn dest nextSeq
  same := fun _ h1 h2 => initFlash_otherPage f nextSeq hne h1 h2

/-- A compaction whose items fit does not run out of stack, and leaves its destination active. -/
theorem wp_compactPage_moved (env : Env) (depth : ℕ) {src dest : ℕ} (hsrc : src < 8) (hdest : dest < 8) (hne : src ≠ dest)
    (nextSeq : UInt32) (hn : NoActive w.flash) (hfits : (headerAt w.flash src).dirty = 0xffffffff ∨ MovesFit w.flash src) :
    wp (fun _ _ => True) (fun _ w' => stateAt w'.flash dest = PageState.active.word) (fun e _ => e ≠ .stack)
      (compactPage env (depth + 1) src dest nextSeq) w := by
  rw [compactPage]
  refine wp_compactPageWith hsrc hdest nextSeq trivial (fun _ _ _ => trivial) (fun _ => stateAt_initFlash _ _ _)
    (I := Moved w.flash src dest) (fun _ => moved_initFlash hn hne nextSeq w.ram) (fun hdirty i hi w' h => ?_)
    fun _ h => h.filling.active
  exact wp_moveEntry_moved env depth hsrc hdest hne hi (hfits.resolve_left hdirty) h

/-- A compaction whose items fit runs as if no write may leave the destination. -/
theorem run_compactPage_inPlace (env : Env) (depth : ℕ) {src dest : ℕ} (hsrc : src < 8) (hdest : dest < 8) (hne : src ≠ dest)
    (nextSeq : UInt32) (hn : NoActive w.flash) (hfits : (headerAt w.flash src).dirty = 0xffffffff ∨ MovesFit w.flash src) :
    (compactPage env (depth + 1) src dest nextSeq).run w = (compactPageWith env writeInPlace src dest nextSeq).run w := by
  rw [compactPage, compactPageWith, compactPageWith]
  rw [Reads.run_bind (reads_readTable hsrc), Reads.run_bind (reads_readTable hsrc), Reads.run_bind (reads_readHeader hsrc),
    Reads.run_bind (reads_readHeader hsrc)]
  by_cases hdirty : (headerAt w.flash src).dirty = 0xffffffff
  · rw [if_pos hdirty, if_pos hdirty]
  · rw [if_neg hdirty, if_neg hdirty]
    refine run_bind_congr rfl fun r w₁ hr => ?_
    have hinit := wp_ok ((wp_initializePage (G := fun _ _ => True) (E := fun _ _ => True) (Q := fun _ w₁ =>
      w₁ = ⟨initFlash w.flash dest nextSeq, w.ram⟩) hdest nextSeq).2 ⟨trivial, trivial, trivial, rfl⟩) hr
    subst hinit
    have hfits := hfits.resolve_left hdirty
    refine run_bind_congr (run_range_congr (Moved w.flash src dest) (fun i hi w' h => ⟨?_, ?_⟩)
      (moved_initFlash hn hne nextSeq w.ram)) fun _ _ _ => rfl
    · have hi : i < 126 := hi
      exact run_moveEntry_inPlace env depth hsrc hdest (hfits.room hi) h.filling
        (itemAt_congr fun x h1 h2 => h.same x (by simp only [slotAddr] at *; omega) (by simp only [slotAddr] at *; omega))
    · exact wp_mono (wp_moveEntry_moved env depth hsrc hdest hne hi hfits h) (fun _ _ h => h) (fun _ _ h => h) fun _ _ _ => trivial

/-! ### Calls of `writeItem` -/

theorem MovesFit.page {f g : Flash} {p : ℕ} (h : ∀ x, base p ≤ x → x < base p + 4096 → f x = g x) (hm : MovesFit f p) :
    MovesFit g p := by
  intro i hi hw
  have hitem : itemAt f p i = itemAt g p i :=
    itemAt_congr fun x h1 h2 => h x (by simp only [slotAddr] at *; omega) (by simp only [slotAddr] at *; omega)
  rw [← entryAt_page (by omega) h] at hw
  rw [← writtenSpan_page h (by omega), spanAt, ← hitem]
  exact hm i hi hw

theorem wp_storeItem_noStack {p : ℕ} (hp : p < 8) {table : EntryTable}
    (ht : findConsecutiveEntries table (itemSpan length).toNat = some t) :
    wp (fun _ _ => True) (fun _ _ => True) (fun e _ => e ≠ .stack)
      (storeItem (pageAddr p) table t nsIndex datatype key data length chunkIndex) w := by
  obtain ⟨hs, ht⟩ := room_of_some ht
  exact wp_storeItem hp hs ht trivial (fun _ _ => trivial) (fun _ _ _ _ _ => trivial) (fun _ _ _ => trivial)
    fun _ _ _ h => by cases h

/-- An entry longer than a page is not moved in place. -/
theorem run_moveEntry_overlong (env : Env) {f : Flash} {src i : ℕ} (hsrc : src < 8) (hw : entryAt f src i = .written)
    (hlong : 126 < spanAt f src i) (hitem : itemAt w.flash src i = itemAt f src i) :
    ((moveEntry env writeInPlace (pageAddr src) (tableAt f src) i).run w).1 = .error .stack := by
  have hw' : getEntryState (tableAt f src) i = .written := hw
  have hpos : 1 ≤ (itemAt f src i).span.toNat := Nat.le_trans (by omega) hlong.le
  have h1 : (itemAt f src i).span ≠ 1 := by
    intro h1
    rw [spanAt, h1] at hlong
    exact absurd hlong (by decide)
  have hs : (itemSpan (movedLength (itemAt f src i).span)).toNat = spanAt f src i := itemSpan_movedLength hpos h1
  have hml := movedLength_toNat hpos
  have := (itemAt f src i).span.toNat_lt
  rw [moveEntry]
  simp only [hw', if_true]
  rw [Reads.run_bind (reads_readItem hsrc i), hitem, if_neg h1, if_pos (by omega)]
  have hfail : ∀ (w' : NvsWorld) (k : List UInt8) (data : Option (List UInt8)) (nsIndex datatype chunkIndex : UInt8),
      ((writeInPlace nsIndex datatype k data (movedLength (itemAt f src i).span) chunkIndex).run w').1 = .error .stack :=
    fun w' k data nsIndex datatype chunkIndex => run_writeInPlace_noRoom (noRoom_of_overlong (by rw [hs]; exact hlong) _)
  apply run_fst_eq
  rw [wp_bind, wp_spiFlashRead, wp_bind]
  apply wp_of_run
  rw [run_eq (hfail ..)]

/-- A compaction in place stops at an entry longer than a page. -/
theorem run_compactPage_overlong (env : Env) {src dest i : ℕ} (hsrc : src < 8) (hdest : dest < 8) (hne : src ≠ dest) (nextSeq : UInt32)
    (hn : NoActive w.flash) (hdirty : (headerAt w.flash src).dirty ≠ 0xffffffff) (hi : i < 126)
    (hw : entryAt w.flash src i = .written) (hlong : 126 < spanAt w.flash src i)
    (hbefore : ∀ j < i, entryAt w.flash src j = .written → 1 ≤ spanAt w.flash src j) (hsum : writtenSpan w.flash src i ≤ 32) :
    ((compactPageWith env writeInPlace src dest nextSeq).run w).1 = .error .stack := by
  apply run_fst_eq
  have hinit := moved_initFlash hn hne nextSeq w.ram
  refine wp_compactPageWith hsrc hdest nextSeq trivial (fun _ _ _ => trivial) (fun hclean => absurd hclean hdirty)
    (I := fun k w' => k ≤ i ∧ Filling w'.flash dest (writtenSpan w.flash src k) ∧
      ∀ x, base src ≤ x → x < base src + 4096 → w'.flash x = w.flash x)
    (fun _ => ⟨Nat.zero_le i, hinit.filling, hinit.same⟩) (fun _ k hk w' h => ?_) fun _ h => absurd h.1 (Nat.not_le.2 hi)
  obtain ⟨hki, hfill, hsame⟩ := h
  have hitem : itemAt w'.flash src k = itemAt w.flash src k :=
    itemAt_congr fun x h1 h2 => hsame x (by simp only [slotAddr] at *; omega) (by simp only [slotAddr] at *; omega)
  by_cases hwk : entryAt w.flash src k = .written
  · rcases Nat.lt_or_ge k i with hlt | hge
    · have hmono := writtenSpan_mono w.flash src (m := k + 1) (n := i) (by omega)
      have hpos := hbefore k hlt hwk
      rw [writtenSpan_succ hwk] at hmono ⊢
      apply wp_of_run_eq (run_moveEntry_inPlace env 0 hsrc hdest (fun _ => by omega) hfill hitem)
      refine wp_mono (wp_moveEntry_filling env 1 hsrc hdest hne hk hwk (by omega) hfill hsame) (fun _ _ _ => trivial)
        (fun _ w'' h' => ⟨by omega, h'.1 _ (by omega) (.inl le_rfl), h'.2⟩) fun e _ hf => ?_
      cases hf <;> omega
    · obtain rfl : k = i := by omega
      apply wp_of_run
      rw [run_eq (run_moveEntry_overlong env hsrc hwk hlong hitem)]
  · have hne' : k ≠ i := by
      rintro rfl
      exact hwk hw
    rw [moveEntry_skip env _ hwk, writtenSpan, if_neg hwk]
    exact ⟨by omega, hfill, hsame⟩

/-- A write that compacts a page with such an entry. -/
theorem not_roomInside {src i : ℕ} (hsrc : nextPage (selPage w.flash) = src)
    (hact : stateAt w.flash (selPage w.flash) = PageState.active.word) (hm : AtMostOneActive w.flash)
    (hroom : findConsecutiveEntries (tableAt w.flash (selPage w.flash)) (itemSpan length).toNat = none)
    (hused : stateAt w.flash src ≠ PageState.uninitialized.word) (hdirty : (headerAt w.flash src).dirty ≠ 0xffffffff)
    (hi : i < 126) (hw : entryAt w.flash src i = .written) (hlong : 126 < spanAt w.flash src i)
    (hbefore : ∀ j < i, entryAt w.flash src j = .written → 1 ≤ spanAt w.flash src j) (hsum : writtenSpan w.flash src i ≤ 32) :
    ¬ RoomInside env w nsIndex datatype key data length chunkIndex := by
  intro h
  apply h.stack
  have hp := selPage_lt w.flash
  have hself : selFlash w.flash = w.flash := by rw [selFlash, if_pos hact]
  have hn : NoActive (fullFlash w.flash (selPage w.flash)) := hm.markFull hp hact
  subst hsrc
  have hsame : ∀ x, base (nextPage (selPage w.flash)) ≤ x → x < base (nextPage (selPage w.flash)) + 4096 →
      w.flash x = fullFlash w.flash (selPage w.flash) x := fun x h1 h2 => (fullFlash_otherPage _ nextPage_ne h1 h2).symm
  have hspan : ∀ {j}, j < 126 → spanAt (fullFlash w.flash (selPage w.flash)) (nextPage (selPage w.flash)) j =
      spanAt w.flash (nextPage (selPage w.flash)) j := fun hj => by
    rw [spanAt, spanAt, itemAt_slots hj fun x h1 h2 => (hsame x (by omega) h2).symm]
  have hcompact := run_compactPage_overlong env (w := ⟨fullFlash w.flash (selPage w.flash), w.ram⟩)
    (nextPage_lt (selPage w.flash)) (nextPage_lt (nextPage (selPage w.flash))) nextPage_ne.symm ((activePage w.flash).2 + 1) hn
    (by rwa [← headerAt_page hsame]) hi (by rwa [← entryAt_page (by omega) hsame]) (by rwa [hspan hi])
    (fun j hj hw => by
      rw [hspan (by omega)]
      exact hbefore j hj (by rwa [entryAt_page (by omega) hsame]))
    (by rwa [← writtenSpan_page hsame (by omega)])
  apply run_fst_eq
  rw [wp_writeItemWith, hself, hroom]
  refine ⟨fun hna => absurd hact hna, ?_⟩
  simp only
  rw [wp_switchPage _ hp, if_neg hused]
  refine ⟨trivial, wp_of_run ?_⟩
  rw [run_eq hcompact]

variable {f g : Flash} {a b : ℕ}

/-- A page in use from its first entry on has no room for a value as long as the page. -/
theorem noRoom_of_first {p : ℕ} (h : entryAt f p 0 ≠ .empty) : findConsecutiveEntries (tableAt f p) 126 = none := by
  cases ht : findConsecutiveEntries (tableAt f p) 126 with
  | none => rfl
  | some t =>
    have hroom := room_of_some ht
    exact absurd ((findConsecutiveEntries_some (by omega) ht).1.2 0 (by omega) (by omega)) h

/-- Page `a` holds such an entry, the ring turned from it to the page before it,
and that page is in use. -/
theorem not_roomInside_turned {i : ℕ} (ht : Turned f g a b) (hab : nextPage b = a) (hlt : a < b) (hb : b < 8)
    (hlength : (itemSpan length).toNat = 126) (hfill : Filling w.flash b 1) (hfirst : entryAt w.flash b 0 ≠ .empty)
    (hsame : ∀ x, base a ≤ x → x < base a + 4096 → w.flash x = g x) (hdirty : (headerAt f a).dirty ≠ 0xffffffff)
    (hi : i < 126) (hw : entryAt f a i = .written) (hlong : 126 < spanAt f a i)
    (hbefore : ∀ j < i, entryAt f a j = .written → 1 ≤ spanAt f a j) (hsum : writtenSpan f a i ≤ 32) :
    ¬ RoomInside env w nsIndex datatype key data length chunkIndex := by
  have hsel := hfill.selPage hb
  have hentry : ∀ j < 126, entryAt w.flash a j = entryAt f a j := fun j hj => by
    rw [entryAt_page (by omega) hsame, ht.entryAt (.inl le_rfl) hj]
  have hspan : ∀ j < 126, spanAt w.flash a j = spanAt f a j := fun j hj => by
    rw [spanAt, itemAt_slots hj fun x h1 h2 => hsame x (by omega) h2, ht.itemAt (.inl le_rfl) hj, spanAt]
  have hsums : ∀ n ≤ 126, writtenSpan w.flash a n = writtenSpan f a n := by
    intro n hn
    induction n with
    | zero => rfl
    | succ n ih => rw [writtenSpan, writtenSpan, ih (by omega), hentry n (by omega), hspan n (by omega)]
  refine not_roomInside (by rw [hsel, hab]) (by rw [hsel]; exact hfill.active) hfill.one ?_ ?_ ?_ hi ?_ ?_ ?_ ?_
  · rw [hsel, hlength]
    exact noRoom_of_first hfirst
  · rw [stateAt_congr fun x h1 h2 => hsame x h1 (by omega), ht.full a le_rfl hlt]
    decide
  · rwa [headerAt_page hsame, ht.dirty (.inl le_rfl)]
  · rwa [hentry i hi]
  · rwa [hspan i hi]
  · intro j hj hwj
    rw [hentry j (by omega)] at hwj
    rw [hspan j (by omega)]
    exact hbefore j hj hwj
  · rwa [hsums i (by omega)]

end Esp8266Sdk.Nvs
