import Esp8266Sdk.Nvs.Run

/-! One specification for each store routine: what it reads, as a function of
the flash, and the flash steps it makes. -/

namespace Esp8266Sdk.Nvs

open Nor Prog

variable {α : Type} {G : NvsWorld → Op → Prop} {Q : α → NvsWorld → Prop} {E : Defect → NvsWorld → Prop} {w : NvsWorld}

/-- The world after a flash step. -/
def after (w : NvsWorld) (op : Op) : NvsWorld := { w with flash := op.apply w.flash }

@[simp] theorem after_flash (w : NvsWorld) (op : Op) : (after w op).flash = op.apply w.flash := rfl

@[simp] theorem after_ram (w : NvsWorld) (op : Op) : (after w op).ram = w.ram := rfl

@[simp] theorem wp_spiFlashWrite {Q : Unit → NvsWorld → Prop} (a : ℕ) (bs : List UInt8) :
    wp G Q E (spiFlashWrite a bs) w ↔ G w (.write a bs) ∧ Q () (after w (.write a bs)) := Iff.rfl

@[simp] theorem wp_spiFlashEraseSector {Q : Unit → NvsWorld → Prop} (s : ℕ) :
    wp G Q E (spiFlashEraseSector s) w ↔ G w (.erase (s * pageSize) pageSize) ∧
      Q () (after w (.erase (s * pageSize) pageSize)) := Iff.rfl

@[simp] theorem wp_spiFlashRead {Q : List UInt8 → NvsWorld → Prop} (a n : ℕ) :
    wp G Q E (spiFlashRead a n) w ↔ Q (w.flash.read a n) w := Iff.rfl

@[simp] theorem wp_getCache {Q : Cache → NvsWorld → Prop} : wp G Q E getCache w ↔ Q w.ram w := Iff.rfl

@[simp] theorem wp_modifyCache {Q : Unit → NvsWorld → Prop} (g : Cache → Cache) :
    wp G Q E (modifyCache g) w ↔ Q () { w with ram := g w.ram } := Iff.rfl

/-- An index check passes or ends the call. -/
theorem wp_checked {o : Option α} : wp G Q E (checked o) w ↔ (∀ a, o = some a → Q a w) ∧ (o = none → E .index w) := by
  cases o <;> simp [checked]

theorem reads_readHeader {p : ℕ} (hp : p < 8) : Reads (readHeader (pageAddr p)) fun f => headerAt f p := by
  rw [pageAddr_natCast hp]
  exact fun _ _ _ _ => Iff.rfl

theorem reads_readTable {p : ℕ} (hp : p < 8) : Reads (readTable (pageAddr p)) fun f => tableAt f p := by
  rw [pageAddr_natCast hp]
  exact fun _ _ _ _ => Iff.rfl

theorem reads_readItem {p : ℕ} (hp : p < 8) (i : ℕ) :
    Reads (readItem (pageAddr p + entryDataOffset + i * entrySize)) fun f => itemAt f p i := by
  rw [pageAddr_natCast hp]
  exact fun _ _ _ _ => Iff.rfl

/-! ### The active page -/

/-- What `findActivePage` knows after the first `n` pages. -/
def activeAfter (f : Flash) (n : ℕ) : Active := (List.range n).foldl (fun s i => s.see i (headerAt f i)) ⟨0, -1, -1⟩

/-- The answer of `findActivePage`. -/
def activePage (f : Flash) : ℤ × UInt32 := (activeAfter f 8).result

theorem activePage_eq (f : Flash) :
    activePage f = ((List.range 8).foldl (fun (s : Active) (i : ℕ) => s.see i (.decode (f.read (pageAddr i) 32)))
      ⟨0, -1, -1⟩).result := by
  refine congrArg Active.result (List.foldl_ext _ _ _ fun s i hi => ?_)
  rw [pageAddr_natCast (List.mem_range.1 hi), headerAt]

theorem reads_findActivePage : Reads findActivePage activePage := by
  have hbody : ∀ (s : Active) (i : ℕ), Reads (do return s.see i (← readHeader (pageAddr i)) : NvsM Active) fun f =>
      s.see i (.decode (f.read (pageAddr i) 32)) :=
    fun s i _ _ _ _ => Iff.rfl
  intro G Q E w
  rw [activePage_eq]
  exact ((Reads.foldlM hbody (List.range 8) ⟨0, -1, -1⟩).bind fun s => Reads.pure s.result) G Q E w

/-- What is known after `n` pages about active pages. -/
theorem activeAfter_active (f : Flash) (n : ℕ) :
    ((activeAfter f n).activeIdx = -1 ∧ (activeAfter f n).maxSeq = 0 ∧ ∀ p < n, stateAt f p ≠ PageState.active.word) ∨
      ∃ p < n, (activeAfter f n).activeIdx = p ∧ stateAt f p = PageState.active.word := by
  induction n with
  | zero => exact .inl ⟨rfl, rfl, by omega⟩
  | succ n ih =>
    have hs : activeAfter f (n + 1) = (activeAfter f n).see n (headerAt f n) := by
      simp [activeAfter, List.range_succ]
    rw [hs, Active.see]
    by_cases ha : stateAt f n = PageState.active.word
    · right
      rw [if_pos (show (headerAt f n).state = _ from ha)]
      split_ifs with hseq
      · exact ⟨n, by omega, rfl, ha⟩
      · rcases ih with ⟨-, h0, -⟩ | ⟨p, hp, he, hpa⟩
        · rw [h0] at hseq
          exact absurd (UInt32.zero_le) hseq
        · exact ⟨p, by omega, he, hpa⟩
    · rw [if_neg (show ¬ (headerAt f n).state = _ from ha)]
      have hsame : ∀ s : Active, (if (headerAt f n).state = PageState.uninitialized.word ∧ s.firstUninit = -1 then
          { s with firstUninit := (n : ℤ) } else s).activeIdx = s.activeIdx ∧
          (if (headerAt f n).state = PageState.uninitialized.word ∧ s.firstUninit = -1 then
          { s with firstUninit := (n : ℤ) } else s).maxSeq = s.maxSeq := by
        intro s
        split_ifs <;> exact ⟨rfl, rfl⟩
      rw [(hsame _).1, (hsame _).2]
      rcases ih with ⟨h1, h2, h3⟩ | ⟨p, hp, he, hpa⟩
      · refine .inl ⟨h1, h2, fun p hp => ?_⟩
        rcases Nat.lt_or_ge p n with h | h
        · exact h3 p h
        · rwa [show p = n by omega]
      · exact .inr ⟨p, by omega, he, hpa⟩

/-- What is known after `n` pages about uninitialised pages. -/
theorem activeAfter_uninit (f : Flash) (n : ℕ) :
    ((activeAfter f n).firstUninit = -1 ∧ ∀ p < n, stateAt f p ≠ PageState.uninitialized.word) ∨
      ∃ p < n, (activeAfter f n).firstUninit = p ∧ stateAt f p = PageState.uninitialized.word ∧
        ∀ q < p, stateAt f q ≠ PageState.uninitialized.word := by
  induction n with
  | zero => exact .inl ⟨rfl, by omega⟩
  | succ n ih =>
    have hs : activeAfter f (n + 1) = (activeAfter f n).see n (headerAt f n) := by
      simp [activeAfter, List.range_succ]
    rw [hs, Active.see]
    by_cases hu : stateAt f n = PageState.uninitialized.word
    · have hna : ¬ (headerAt f n).state = PageState.active.word := by
        rw [show (headerAt f n).state = _ from hu]
        decide
      right
      rw [if_neg hna]
      rcases ih with ⟨h1, h2⟩ | ⟨p, hp, he, hpu, hlt⟩
      · rw [if_pos ⟨hu, h1⟩]
        exact ⟨n, by omega, rfl, hu, h2⟩
      · rw [if_neg (fun h => by omega)]
        exact ⟨p, by omega, he, hpu, hlt⟩
    · have hsame : ∀ s : Active, (s.see n (headerAt f n)).firstUninit = s.firstUninit := by
        intro s
        unfold Active.see
        split_ifs with h1 h2 h3
        · rfl
        · rfl
        · exact absurd h3.1 hu
        · rfl
      rw [← Active.see, hsame]
      rcases ih with ⟨h1, h2⟩ | ⟨p, hp, he⟩
      · refine .inl ⟨h1, fun p hp => ?_⟩
        rcases Nat.lt_or_ge p n with h | h
        · exact h2 p h
        · rwa [show p = n by omega]
      · exact .inr ⟨p, by omega, he⟩

/-- The page `findActivePage` answers: an active page, else the first
uninitialised one, else `-1`. -/
theorem activePage_cases (f : Flash) :
    (∃ p : ℕ, p < 8 ∧ (activePage f).1 = p ∧ stateAt f p = PageState.active.word) ∨
    ((∀ p < 8, stateAt f p ≠ PageState.active.word) ∧ ∃ p : ℕ, p < 8 ∧ (activePage f).1 = p ∧
      stateAt f p = PageState.uninitialized.word ∧ ∀ q < p, stateAt f q ≠ PageState.uninitialized.word) ∨
    ((∀ p < 8, stateAt f p ≠ PageState.active.word) ∧ (∀ p < 8, stateAt f p ≠ PageState.uninitialized.word) ∧
      (activePage f).1 = -1) := by
  rw [activePage, Active.result]
  rcases activeAfter_active f 8 with ⟨h1, -, h3⟩ | ⟨p, hp, he, hpa⟩
  · rw [if_neg (by omega)]
    rcases activeAfter_uninit f 8 with ⟨hu, hno⟩ | ⟨p, hp, he, hpu, hlt⟩
    · exact .inr (.inr ⟨h3, hno, hu⟩)
    · exact .inr (.inl ⟨h3, p, hp, he, hpu, hlt⟩)
  · rw [if_pos (by omega)]
    exact .inl ⟨p, hp, he, hpa⟩

/-! ### Initialising and marking -/

/-- A sector of the partition is a page. -/
theorem wp_eraseSector {Q : Unit → NvsWorld → Prop} (p : ℕ) :
    wp G Q E (spiFlashEraseSector (nvsPartitionOffset / pageSize + p)) w ↔
      G w (.erase (base p) 4096) ∧ Q () (after w (.erase (base p) 4096)) := by
  have hs : (nvsPartitionOffset / pageSize + p) * pageSize = base p := by
    simp only [nvsPartitionOffset, pageSize, base]
    omega
  rw [wp_spiFlashEraseSector, hs, pageSize]

/-- The flash after a page is initialised. -/
def initFlash (f : Flash) (p : ℕ) (seqNumber : UInt32) : Flash :=
  (f.erase (base p) 4096).program (base p) (freshHeader seqNumber).encode

theorem wp_initializePage {Q : EspErr → NvsWorld → Prop} {p : ℕ} (hp : p < 8) (seqNumber : UInt32) :
    wp G Q E (initializePage p seqNumber) w ↔
      G w (.erase (base p) 4096) ∧
      G (after w (.erase (base p) 4096)) (.write (base p) (freshHeader seqNumber).encode) ∧
      G { w with flash := initFlash w.flash p seqNumber } (.write (base p + 32) (List.replicate 32 0xff)) ∧
      Q espOk { w with flash := initFlash w.flash p seqNumber } := by
  have hs : base p / pageSize * pageSize = base p := by simp only [base, pageSize]; omega
  have ht : after { w with flash := initFlash w.flash p seqNumber } (.write (base p + 32) (List.replicate 32 0xff)) =
      { w with flash := initFlash w.flash p seqNumber } := by
    simp only [after, Op.apply_write, program_blankTable]
  rw [initializePage, pageAddr_natCast hp]
  simp only [wp_bind, wp_spiFlashEraseSector, wp_spiFlashWrite, wp_pure, hs]
  exact and_congr_right fun _ => and_congr_right fun _ => and_congr_right fun _ => iff_of_eq (congrArg (Q espOk) ht)

theorem stateAt_initFlash (f : Flash) (p : ℕ) (seqNumber : UInt32) :
    stateAt (initFlash f p seqNumber) p = PageState.active.word :=
  stateAt_program_header (blank_erase f p) _

theorem initFlash_otherPage (f : Flash) {p q x : ℕ} (seqNumber : UInt32) (hq : q ≠ p) (hx : base q ≤ x)
    (hx' : x < base q + 4096) : initFlash f p seqNumber x = f x := by
  rw [initFlash, program_otherPage le_rfl (by simp) hq hx hx', erase_otherPage hq hx hx']

theorem stateAt_initFlash_other (f : Flash) {p q : ℕ} (seqNumber : UInt32) (hq : q ≠ p) :
    stateAt (initFlash f p seqNumber) q = stateAt f q :=
  stateAt_congr fun _ h1 h2 => initFlash_otherPage f seqNumber hq h1 (by omega)

/-- Behind the header a fresh page is blank. -/
theorem initFlash_blank (f : Flash) {p x : ℕ} (seqNumber : UInt32) (hx : base p + 32 ≤ x) (hx' : x < base p + 4096) :
    initFlash f p seqNumber x = 0xff := by
  rw [initFlash, Flash.program_outside (by simp; omega), Flash.erase_inside (by omega) hx']

theorem wp_markPageFull {Q : EspErr → NvsWorld → Prop} {p : ℕ} (hp : p < 8) :
    wp G Q E (markPageFull p) w ↔ G w (.write (base p) (le32 PageState.full.word)) ∧
      Q espOk (after w (.write (base p) (le32 PageState.full.word))) := by
  rw [markPageFull, wp_bind, reads_readHeader hp]
  simp only [wp_bind, wp_spiFlashWrite, wp_pure, pageAddr_natCast hp]

end Esp8266Sdk.Nvs
