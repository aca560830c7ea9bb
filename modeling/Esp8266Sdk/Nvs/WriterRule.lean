import Esp8266Sdk.Nvs.WriteSpec

/-! The rule that carries an invariant of the flash through `writeItem` and
`compactPage`. It is enough that the invariant survives each kind of flash step
they make, at the page states they make it in; the recursion, the loops and the
choice of pages are dealt with here once. -/

namespace Esp8266Sdk.Nvs

open Nor Prog

/-! ### Active pages -/

/-- At most one page has the state word `PS_ACTIVE`. -/
def AtMostOneActive (f : Flash) : Prop :=
  ∀ p < 8, ∀ q < 8, stateAt f p = PageState.active.word → stateAt f q = PageState.active.word → p = q

def NoActive (f : Flash) : Prop := ∀ p < 8, stateAt f p ≠ PageState.active.word

def SomeActive (f : Flash) : Prop := ∃ p < 8, stateAt f p = PageState.active.word

theorem NoActive.atMostOne {f : Flash} (h : NoActive f) : AtMostOneActive f := fun p hp _ _ hpa => absurd hpa (h p hp)

theorem AtMostOneActive.congr {f g : Flash} (h : AtMostOneActive f) (e : ∀ p < 8, stateAt g p = stateAt f p) :
    AtMostOneActive g := by
  intro p hp q hq
  rw [e p hp, e q hq]
  exact h p hp q hq

theorem Inner.stateAt {f : Flash} {p : ℕ} {op : Op} (h : Inner p op) (q : ℕ) :
    stateAt (op.apply f) q = stateAt f q := by
  obtain ⟨a, bs, rfl, h1, h2⟩ := h
  exact stateAt_program h1 h2 q

theorem NoActive.erase {f : Flash} (h : NoActive f) (p : ℕ) : NoActive (f.erase (base p) 4096) := by
  intro q hq
  by_cases hqp : q = p
  · rw [hqp, (blank_erase f p).stateAt]
    decide
  · rw [stateAt_erase_otherPage hqp]
    exact h q hq

/-- Initialising a page while no other is active. -/
theorem NoActive.initFlash {f : Flash} (h : NoActive f) (p : ℕ) (seqNumber : UInt32) :
    AtMostOneActive (initFlash f p seqNumber) := by
  have hne : ∀ q < 8, q ≠ p → Nvs.stateAt (Nvs.initFlash f p seqNumber) q ≠ PageState.active.word := by
    intro q hq hqp
    rw [stateAt_initFlash_other f seqNumber hqp]
    exact h q hq
  intro q hq r hr hqa hra
  have hqp : q = p := by
    by_contra hqp
    exact hne q hq hqp hqa
  have hrp : r = p := by
    by_contra hrp
    exact hne r hr hrp hra
  rw [hqp, hrp]

/-- Marking the active page full leaves no page active. -/
theorem AtMostOneActive.markFull {f : Flash} (h : AtMostOneActive f) {p : ℕ} (hp : p < 8)
    (ha : stateAt f p = PageState.active.word) : NoActive (f.program (base p) (le32 PageState.full.word)) := by
  intro q hq
  by_cases hqp : q = p
  · rw [hqp, stateAt_markFull ha]
    decide
  · rw [stateAt_program_otherPage le_rfl (by simp) hqp]
    exact fun hqa => hqp (h q hq p hp hqa ha)

/-! ### The rule -/

/-- Each flash step of `writeItem` and `compactPage` satisfies `G`. `M` holds
between them, and `N` holds whenever a page is about to be initialised. -/
structure WriterRule (G : Flash → Op → Prop) (M N : Flash → Prop) : Prop where
  init : ∀ {f p} (seqNumber), p < 8 → N f → G f (.erase (base p) 4096) ∧
    G (f.erase (base p) 4096) (.write (base p) (freshHeader seqNumber).encode) ∧ M (initFlash f p seqNumber)
  full : ∀ {f p}, p < 8 → stateAt f p = PageState.active.word → M f →
    G f (.write (base p) (le32 PageState.full.word)) ∧ N (f.program (base p) (le32 PageState.full.word))
  body : ∀ {f p op}, p < 8 → stateAt f p = PageState.active.word → Body p op → M f → G f op ∧ M (op.apply f)
  /-- Writing ones programs nothing. -/
  ones : ∀ {f} (a) {bs}, (∀ b ∈ bs, b = 0xff) → M f → G f (.write a bs)
  idle : ∀ {f}, NoActive f → M f → N f

namespace WriterRule

variable {G : Flash → Op → Prop} {M N : Flash → Prop} (hr : WriterRule G M N)
include hr

theorem initializePage {p : ℕ} (hp : p < 8) (seqNumber : UInt32) {w : NvsWorld} (hN : N w.flash) :
    wp (fun w op => G w.flash op) (fun _ w' => M w'.flash ∧ stateAt w'.flash p = PageState.active.word)
      (fun _ _ => True) (Nvs.initializePage p seqNumber) w := by
  rw [wp_initializePage hp]
  obtain ⟨h1, h2, h3⟩ := hr.init seqNumber hp hN
  exact ⟨h1, h2, hr.ones _ (fun _ hb => List.eq_of_mem_replicate hb) h3, h3, stateAt_initFlash _ _ _⟩

/-- One step inside the active page. -/
theorem step {f : Flash} {p : ℕ} {op : Op} (hp : p < 8) (hb : Body p op)
    (h : M f ∧ stateAt f p = PageState.active.word) :
    G f op ∧ M (op.apply f) ∧ stateAt (op.apply f) p = PageState.active.word := by
  obtain ⟨hG, hM⟩ := hr.body hp h.2 hb h.1
  exact ⟨hG, hM, by rw [hb.inner.stateAt, h.2]⟩

theorem tableFlash {f : Flash} {p : ℕ} (table : EntryTable) {lo n : ℕ} (hp : p < 8) (hn : lo + n ≤ 8)
    (h : M f ∧ stateAt f p = PageState.active.word) :
    M (tableFlash f p table lo n) ∧ stateAt (Nvs.tableFlash f p table lo n) p = PageState.active.word := by
  induction n with
  | zero => exact h
  | succ n ih =>
    rw [tableFlash_succ]
    exact (hr.step hp (body_wordStep p table (by omega)) (ih (by omega))).2

theorem storeItem {p t : ℕ} {nsIndex datatype chunkIndex : UInt8} {key : List UInt8} {data : Option (List UInt8)}
    {length : UInt32} {table : EntryTable} (hp : p < 8) (hs : 1 ≤ (itemSpan length).toNat)
    (ht : t + (itemSpan length).toNat ≤ 126) (hfit : Fits data length) {w : NvsWorld}
    (h : M w.flash ∧ stateAt w.flash p = PageState.active.word) :
    wp (fun w op => G w.flash op) (fun _ w' => M w'.flash ∧ stateAt w'.flash p = PageState.active.word)
      (fun _ _ => True) (Nvs.storeItem (pageAddr p) table t nsIndex datatype key data length chunkIndex) w := by
  have hitem : Body p (.write (slotAddr p t) (newItem nsIndex datatype key data length chunkIndex).encode) :=
    ⟨_, _, rfl, by simp only [slotAddr]; omega, by simp only [slotAddr, Item.length_encode]; omega⟩
  have hrest : ∀ rest, payload data length = some rest → Body p (.write (slotAddr p t + 32) rest) := by
    intro rest hrest
    have := hfit rest hrest
    exact ⟨_, _, rfl, by simp only [slotAddr]; omega, by simp only [slotAddr]; omega⟩
  have h1 := hr.step hp hitem h
  have h2 : ∀ rest, payload data length = some rest → _ := fun rest hpay => hr.step hp (hrest rest hpay) h1.2
  have hslots : M (slotsFlash w.flash p t (newItem nsIndex datatype key data length chunkIndex) (payload data length)) ∧
      stateAt (slotsFlash w.flash p t (newItem nsIndex datatype key data length chunkIndex) (payload data length)) p =
        PageState.active.word := by
    cases hpay : payload data length with
    | none =>
      rw [slotsFlash, Option.getD_none, program_nil]
      exact h1.2
    | some rest => exact (h2 rest hpay).2
  refine wp_storeItem hp hs ht h1.1 (fun rest hpay => (h2 rest hpay).1) (fun T _ k hk _ => ?_) (fun T _ hhi => ?_)
    fun _ _ _ => trivial
  · exact (hr.step hp (body_wordStep p T (by omega)) (hr.tableFlash T hp (by omega) hslots)).1
  · exact hr.tableFlash T hp (by omega) hslots

/-- `writeItem` chooses the active page, initialising one where there is none. -/
theorem selectPage {w : NvsWorld} (hM : M w.flash) :
    wp (fun w op => G w.flash op) (fun (s : ℤ × UInt32 × EntryTable) w' => ∃ p : ℕ, p < 8 ∧ s.1 = p ∧
      M w'.flash ∧ stateAt w'.flash p = PageState.active.word) (fun _ _ => True) Nvs.selectPage w := by
  have hp := selPage_lt w.flash
  have hst := stateAt_selFlash w.flash
  rw [wp_selectPage]
  by_cases ha : stateAt w.flash (selPage w.flash) = PageState.active.word
  · rw [selFlash, if_pos ha]
    exact ⟨fun h => absurd ha h, _, hp, rfl, hM, ha⟩
  · have hn := (selPage_active_or w.flash).resolve_left ha
    obtain ⟨h1, h2, h3⟩ := hr.init ((activePage w.flash).2 + 1) hp (hr.idle hn hM)
    rw [selFlash, if_neg ha] at hst ⊢
    exact ⟨fun _ => ⟨h1, h2, hr.ones _ (fun _ hb => List.eq_of_mem_replicate hb) h3⟩, _, hp, rfl, h3, hst⟩

/-- What the rule says of a `writeItem`. -/
def Writes (_ : WriterRule G M N) (writeItem : WriteItem) : Prop :=
  ∀ {nsIndex datatype key data length chunkIndex} {w : NvsWorld}, Fits data length → M w.flash →
    wp (fun w op => G w.flash op) (fun _ w' => M w'.flash ∧ SomeActive w'.flash) (fun _ _ => True)
      (writeItem nsIndex datatype key data length chunkIndex) w

/-- What the rule says of a `compactPage`. -/
def Compacts (_ : WriterRule G M N) (compactPage : CompactPage) : Prop :=
  ∀ {src dest : ℕ} {nextSeq} {w : NvsWorld}, src < 8 → dest < 8 → N w.flash →
    wp (fun w op => G w.flash op) (fun _ w' => M w'.flash ∧ SomeActive w'.flash) (fun _ _ => True)
      (compactPage src dest nextSeq) w

theorem switchPage {compactPage : CompactPage} (hc : hr.Compacts compactPage) {p : ℕ} (hp : p < 8) (maxSeq : UInt32)
    {w : NvsWorld} (hM : M w.flash) (ha : stateAt w.flash p = PageState.active.word) :
    wp (fun w op => G w.flash op) (fun (s : ℤ) w' => ∃ q : ℕ, q < 8 ∧ s = q ∧ M w'.flash ∧
      stateAt w'.flash q = PageState.active.word) (fun _ _ => True) (Nvs.switchPage compactPage p maxSeq) w := by
  obtain ⟨hG, hN⟩ := hr.full hp ha hM
  rw [wp_switchPage compactPage hp]
  refine ⟨hG, ?_⟩
  split_ifs
  · have hinit := hr.initializePage (nextPage_lt p) (maxSeq + 1) (w := { w with flash := fullFlash w.flash p }) hN
    rw [wp_initializePage (nextPage_lt p)] at hinit
    obtain ⟨h1, h2, h3, h4⟩ := hinit
    exact ⟨h1, h2, h3, _, nextPage_lt p, rfl, h4⟩
  · apply wp_post (hc (nextPage_lt _) (nextPage_lt _) hN)
    rintro _ w' ⟨hM', q, hq, hqa⟩
    rcases activePage_cases w'.flash with ⟨r, hr, he, hra⟩ | ⟨hn, -⟩ | ⟨hn, -⟩
    · exact ⟨r, hr, he, hM', hra⟩
    · exact absurd hqa (hn q hq)
    · exact absurd hqa (hn q hq)

theorem writeItemWith {compactPage : CompactPage} (hc : hr.Compacts compactPage) :
    hr.Writes (Nvs.writeItemWith compactPage) := by
  intro nsIndex datatype key data length chunkIndex w hfit hM
  rw [Nvs.writeItemWith, wp_bind]
  apply wp_post (hr.selectPage hM)
  rintro ⟨pageIdx, maxSeq, table⟩ w1 ⟨p, hp, hpage, h⟩
  simp only at hpage
  simp only [hpage]
  cases ht : findConsecutiveEntries table (itemSpan length).toNat with
  | some t =>
    obtain ⟨hs, ht⟩ := room_of_some ht
    exact wp_post (hr.storeItem hp hs ht hfit h) fun _ w' h => ⟨h.1, p, hp, h.2⟩
  | none =>
    simp only [wp_bind]
    apply wp_post (hr.switchPage hc hp maxSeq h.1 h.2)
    rintro s w2 ⟨q, hq, rfl, h'⟩
    rw [reads_readTable hq]
    cases ht' : findConsecutiveEntries (tableAt w2.flash q) (itemSpan length).toNat with
    | some t =>
      obtain ⟨hs, ht'⟩ := room_of_some ht'
      exact wp_post (hr.storeItem hq hs ht' hfit h') fun _ w' h => ⟨h.1, q, hq, h.2⟩
    | none =>
      simp only [wp_pure]
      exact ⟨h'.1, q, hq, h'.2⟩

theorem moveEntry {env : Env} {writeItem : WriteItem} (hwr : hr.Writes writeItem) {src : ℕ} (hsrc : src < 8)
    (table : EntryTable) (i : ℕ) {w : NvsWorld} (hM : M w.flash) (hs : SomeActive w.flash) :
    wp (fun w op => G w.flash op) (fun _ w' => M w'.flash ∧ SomeActive w'.flash) (fun _ _ => True)
      (Nvs.moveEntry env writeItem (pageAddr src) table i) w := by
  rw [Nvs.moveEntry]
  split
  · rw [wp_bind, reads_readItem hsrc]
    simp only
    split_ifs with h1 hlt
    · rw [wp_bind]
      exact hwr (fits_of_le _ (by decide)) hM
    · rw [wp_bind, wp_spiFlashRead, wp_bind]
      refine hwr (fits_of_le _ ?_) hM
      have hpos := span_pos_of_movedLength hlt
      have := (itemAt w.flash src i).span.toNat_lt
      rw [movedLength_toNat hpos]
      omega
    · trivial
  · exact ⟨hM, hs⟩

theorem compactPageWith (env : Env) {writeItem : WriteItem} (hwr : hr.Writes writeItem) :
    hr.Compacts (Nvs.compactPageWith env writeItem) := by
  intro src dest nextSeq w hsrc hdest hN
  have hinit := hr.initializePage hdest nextSeq hN
  have hlast : ∀ w' : NvsWorld, M w'.flash ∧ SomeActive w'.flash →
      wp (fun w op => G w.flash op) (fun _ w' => M w'.flash ∧ SomeActive w'.flash) (fun _ _ => True) (do
        spiFlashWrite (pageAddr src) (le32 PageState.uninitialized.word)
        return espOk : NvsM EspErr) w' := by
    intro w' h
    rw [wp_bind, wp_spiFlashWrite, wp_pure, after, Op.apply_write, program_uninit]
    exact ⟨hr.ones _ uninitialized_ones h.1, h⟩
  rw [Nvs.compactPageWith, wp_bind, reads_readTable hsrc, wp_bind, reads_readHeader hsrc]
  split_ifs
  · rw [wp_bind]
    exact wp_post hinit fun _ w' h => hlast w' ⟨h.1, dest, hdest, h.2⟩
  · rw [wp_bind]
    refine wp_post hinit fun _ w' h => ?_
    rw [wp_bind]
    refine wp_post (wp_range (fun _ _ w => M w.flash ∧ SomeActive w.flash)
      (fun i _ _ w hw => hr.moveEntry hwr hsrc _ i hw.1 hw.2) ⟨h.1, dest, hdest, h.2⟩) ?_
    exact fun _ w' h => hlast w' h

/-- The rule for `writeItem`, by induction on the stack depth: each level calls
`compactPage`, which calls the `writeItem` of the level below. -/
theorem writeItem (env : Env) (depth : ℕ) : hr.Writes (Nvs.writeItem env depth) := by
  induction depth with
  | zero =>
    intro nsIndex datatype key data length chunkIndex w _ _
    trivial
  | succ depth ih => exact hr.writeItemWith (hr.compactPageWith env ih)

theorem compactPage (env : Env) (depth : ℕ) : hr.Compacts (Nvs.compactPage env depth) :=
  hr.compactPageWith env (hr.writeItem env depth)

end WriterRule

end Esp8266Sdk.Nvs
