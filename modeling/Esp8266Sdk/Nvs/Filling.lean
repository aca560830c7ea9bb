import Esp8266Sdk.Nvs.ActivePage
import Esp8266Sdk.Nvs.Blocks

/-! Writing into a page that is filled from its first entry on, as the
destination of a compaction is. An item finds room no later than behind the
entries in use, and what is stored lies in the first 32 entries: behind them the
code stops at an index outside its view of the table. -/

namespace Esp8266Sdk.Nvs

open Nor Prog

/-! ### The spans of a page -/

/-- The spans of the written entries before entry `n`, as `compactPage` adds them up. -/
def writtenSpan (f : Flash) (p : ℕ) : ℕ → ℕ
  | 0 => 0
  | n + 1 => writtenSpan f p n + if entryAt f p n = .written then spanAt f p n else 0

theorem writtenSpan_succ {f : Flash} {p n : ℕ} (h : entryAt f p n = .written) :
    writtenSpan f p (n + 1) = writtenSpan f p n + spanAt f p n := by
  rw [writtenSpan, if_pos h]

theorem writtenSpan_mono (f : Flash) (p : ℕ) {m n : ℕ} (h : m ≤ n) : writtenSpan f p m ≤ writtenSpan f p n := by
  induction n with
  | zero => rw [Nat.le_zero.1 h]
  | succ n ih =>
    rcases Nat.lt_or_ge m (n + 1) with hlt | hge
    · exact (ih (by omega)).trans (Nat.le_add_right _ _)
    · rw [show m = n + 1 by omega]

theorem writtenSpan_page {f g : Flash} {p : ℕ} (h : ∀ x, base p ≤ x → x < base p + 4096 → f x = g x) {n : ℕ}
    (hn : n ≤ 126) : writtenSpan f p n = writtenSpan g p n := by
  induction n with
  | zero => rfl
  | succ n ih =>
    have hitem : itemAt f p n = itemAt g p n :=
      itemAt_congr fun x h1 h2 => h x (by simp only [slotAddr] at *; omega) (by simp only [slotAddr] at *; omega)
    rw [writtenSpan, writtenSpan, ih (by omega), entryAt_page (by omega) h, spanAt, spanAt, hitem]

theorem headerAt_page {f g : Flash} {p : ℕ} (h : ∀ x, base p ≤ x → x < base p + 4096 → f x = g x) :
    headerAt f p = headerAt g p :=
  headerAt_congr fun x h1 h2 => h x h1 (by omega)

/-! ### Writing into the page -/

/-- Page `p` is the one active page, and its entries from `n` on are empty. -/
structure Filling (f : Flash) (p n : ℕ) : Prop where
  one : AtMostOneActive f
  active : stateAt f p = PageState.active.word
  empty : ∀ j, n ≤ j → j < 126 → entryAt f p j = .empty

/-- A page just initialised, where no other is active. -/
theorem filling_initFlash {f : Flash} (hn : NoActive f) (p : ℕ) (seqNumber : UInt32) :
    Filling (initFlash f p seqNumber) p 0 where
  one := hn.initFlash p seqNumber
  active := stateAt_initFlash _ _ _
  empty := fun j _ hj => by rw [entryAt, tableAt_initFlash, getEntryState_blank (by omega)]

theorem Filling.mono {f : Flash} {p m n : ℕ} (h : Filling f p m) (hmn : m ≤ n) : Filling f p n :=
  ⟨h.one, h.active, fun j h1 h2 => h.empty j (by omega) h2⟩

theorem selPage_of_active {f : Flash} {p : ℕ} (hm : AtMostOneActive f) (hp : p < 8)
    (ha : stateAt f p = PageState.active.word) : selPage f = p := by
  rcases selPage_active_or f with h | h
  · exact hm _ (selPage_lt f) p hp h ha
  · exact absurd ha (h p hp)

theorem Filling.selPage {f : Flash} {p n : ℕ} (h : Filling f p n) (hp : p < 8) : selPage f = p :=
  selPage_of_active h.one hp h.active

theorem Filling.selFlash {f : Flash} {p n : ℕ} (h : Filling f p n) (hp : p < 8) : selFlash f = f := by
  rw [Nvs.selFlash, h.selPage hp, if_pos h.active]

theorem atMostOne_selFlash {f : Flash} (hm : AtMostOneActive f) : AtMostOneActive (selFlash f) := by
  rw [Nvs.selFlash]
  split_ifs with ha
  · exact hm
  · exact NoActive.initFlash ((selPage_active_or f).resolve_left ha) _ _

/-- A first free run starts no later than the empty rest of the page. -/
theorem room_le {f : Flash} {p n m : ℕ} (h : ∀ j, n ≤ j → j < 126 → entryAt f p j = .empty) (hm : 1 ≤ m)
    (hnm : n + m ≤ 126) : ∃ t ≤ n, findConsecutiveEntries (tableAt f p) m = some t := by
  have hfree : FreeRun (tableAt f p) m n := ⟨hnm, fun j h1 h2 => h j h1 (by omega)⟩
  cases ht : findConsecutiveEntries (tableAt f p) m with
  | none => exact absurd hfree (findConsecutiveEntries_none hm ht n)
  | some t => exact ⟨t, Nat.le_of_not_lt fun hlt => (findConsecutiveEntries_some hm ht).2 n hlt hfree, rfl⟩

/-- How a write or move of `m` entries behind the first `n` ends without a return. -/
inductive FillFails (depth n m : ℕ) : Defect → Prop
  | stack (h : depth = 0) : FillFails depth n m .stack
  | index (h : 32 < n + m) : FillFails depth n m .index
  | range (h : m = 0) : FillFails depth n m .range

/-- Page `p` of `g` is filled up to entry `n + m` at most, and to entry 32 where
it was filled up to less. -/
def FilledUp (g : Flash) (p n m : ℕ) : Prop := ∀ k, n ≤ k → n + m ≤ k ∨ 32 ≤ k → Filling g p k

theorem wp_writeItem_filling (env : Env) (depth : ℕ) {p n : ℕ} (hp : p < 8) {nsIndex datatype chunkIndex : UInt8}
    {key : List UInt8} {data : Option (List UInt8)} {length : UInt32} (hs : 1 ≤ (itemSpan length).toNat)
    (hn : n + (itemSpan length).toNat ≤ 126) (hfit : Fits data length) {w : NvsWorld} (h : Filling w.flash p n) :
    wp (fun _ op => Inner p op) (fun err w' => err = espOk ∧ FilledUp w'.flash p n (itemSpan length).toNat ∧
        (∀ q, q ≠ p → ∀ x, base q ≤ x → x < base q + 4096 → w'.flash x = w.flash x) ∧
        (n = 0 → entryAt w'.flash p 0 = .written))
      (fun e _ => FillFails depth n (itemSpan length).toNat e)
      (writeItem env depth nsIndex datatype key data length chunkIndex) w := by
  cases depth with
  | zero => exact .stack rfl
  | succ depth =>
    obtain ⟨t, ht, hroom⟩ := room_le h.empty hs hn
    rw [writeItem, wp_writeItemWith, h.selPage hp, h.selFlash hp, hroom]
    have htn : t + (itemSpan length).toNat ≤ 126 := by omega
    refine ⟨fun hna => absurd h.active hna, wp_storeItem_inner hp hs htn hfit (fun T hT hhi => ?_) fun _ _ _ => ?_⟩
    · have hm : t / 4 + ((t + (itemSpan length).toNat - 1) / 4 + 1 - t / 4) ≤ 8 := by omega
      refine ⟨rfl, fun k hnk hk => ⟨?_, ?_, fun j h1 h2 => ?_⟩, fun q hq x hx hx' =>
        storedFlash_otherPage hs htn hfit hm hq hx hx', fun h0 => ?_⟩
      · exact h.one.congr fun q _ => stateAt_storedFlash hs htn hfit hm q
      · rw [stateAt_storedFlash hs htn hfit hm, h.active]
      · rw [entryAt_storedFlash hm hT (by omega), if_neg (by omega)]
        exact h.empty j (by omega) h2
      · rw [entryAt_storedFlash hm hT (by omega), if_pos (by omega), h.empty 0 (by omega) (by omega)]
        rfl
    · exact .index (by omega)

/-- Moving entry `i` of a page into another one. -/
theorem wp_moveEntry_filling (env : Env) (depth : ℕ) {f : Flash} {src dest i n : ℕ} (hsrc : src < 8) (hdest : dest < 8)
    (hne : src ≠ dest) (hi : i < 126) (hw : entryAt f src i = .written) (hn : n + spanAt f src i ≤ 126) {w : NvsWorld}
    (h : Filling w.flash dest n) (hsame : ∀ x, base src ≤ x → x < base src + 4096 → w.flash x = f x) :
    wp (fun _ op => Inner dest op) (fun _ w' => FilledUp w'.flash dest n (spanAt f src i) ∧
        ∀ x, base src ≤ x → x < base src + 4096 → w'.flash x = f x) (fun e _ => FillFails depth n (spanAt f src i) e)
      (moveEntry env (writeItem env depth) (pageAddr src) (tableAt f src) i) w := by
  have hitem : itemAt w.flash src i = itemAt f src i :=
    itemAt_congr fun x h1 h2 => hsame x (by simp only [slotAddr] at *; omega) (by simp only [slotAddr] at *; omega)
  rw [moveEntry]
  simp only
  rw [if_pos (show getEntryState (tableAt f src) i = _ from hw), wp_bind, reads_readItem hsrc]
  simp only [hitem]
  split_ifs with h1 hlt
  · have hs : (itemSpan 8).toNat = spanAt f src i := by
      rw [spanAt, h1]
      rfl
    rw [wp_bind, ← hs]
    apply wp_post (wp_writeItem_filling env depth hdest (by decide) (by omega) (fits_of_le _ (by decide)) h)
    exact fun _ w' h' => ⟨h'.2.1, fun x hx hx' => (h'.2.2.1 src hne x hx hx').trans (hsame x hx hx')⟩
  · have hpos := span_pos_of_movedLength hlt
    have hs : (itemSpan (movedLength (itemAt f src i).span)).toNat = spanAt f src i := itemSpan_movedLength hpos h1
    have hml := movedLength_toNat hpos
    have := (itemAt f src i).span.toNat_lt
    rw [wp_bind, wp_spiFlashRead, wp_bind, ← hs]
    apply wp_post (wp_writeItem_filling env depth hdest (by rw [hs]; exact hpos) (by omega) (fits_of_le _ (by omega)) h)
    exact fun _ w' h' => ⟨h'.2.1, fun x hx hx' => (h'.2.2.1 src hne x hx hx').trans (hsame x hx hx')⟩
  · refine .range ?_
    by_contra hpos
    have hspan : 1 ≤ (itemAt f src i).span.toNat := Nat.one_le_iff_ne_zero.2 hpos
    have hml := movedLength_toNat hspan
    have := (itemAt f src i).span.toNat_lt
    omega

/-- Entries that are not written are not moved. -/
theorem moveEntry_skip (env : Env) (writeItem : WriteItem) {f : Flash} {src i : ℕ} (hw : entryAt f src i ≠ .written) :
    moveEntry env writeItem (pageAddr src) (tableAt f src) i = pure () := by
  rw [moveEntry]
  simp only
  exact if_neg hw

end Esp8266Sdk.Nvs
