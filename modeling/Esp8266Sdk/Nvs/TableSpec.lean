import Esp8266Sdk.Nvs.Spec
import Esp8266Sdk.Nvs.Blocks

/-! Writing back an entry table, and the loops of `eraseOldItem` and
`nvs_erase_all` that change it in RAM first. -/

namespace Esp8266Sdk.Nvs

open Nor Prog

variable {G : NvsWorld → Op → Prop} {Q : Unit → NvsWorld → Prop} {E : Defect → NvsWorld → Prop} {w : NvsWorld}

/-! ### Table words -/

/-- The step that writes back word `v`. -/
def wordStep (p : ℕ) (table : EntryTable) (v : ℕ) : Op :=
  .write (base p + 32 + v * 4) ((table.toList.drop (4 * v)).take 4)

/-- The flash after the `n` table words from `lo` on are written back. -/
def tableFlash (f : Flash) (p : ℕ) (table : EntryTable) (lo n : ℕ) : Flash :=
  (List.range n).foldl (fun f k => (wordStep p table (lo + k)).apply f) f

theorem tableFlash_succ (f : Flash) (p : ℕ) (table : EntryTable) (lo n : ℕ) :
    tableFlash f p table lo (n + 1) = (wordStep p table (lo + n)).apply (tableFlash f p table lo n) := by
  simp [tableFlash, List.range_succ]

theorem wordStep_length (table : EntryTable) {v : ℕ} (hv : v < 8) : ((table.toList.drop (4 * v)).take 4).length = 4 := by
  simp; omega

/-- Writing back a table touches only the table. -/
theorem tableFlash_outside (f : Flash) {p : ℕ} (table : EntryTable) {lo n x : ℕ} (hn : lo + n ≤ 8)
    (hx : x < base p + 32 ∨ base p + 64 ≤ x) : tableFlash f p table lo n x = f x := by
  induction n with
  | zero => rfl
  | succ n ih =>
    rw [tableFlash_succ, wordStep, Op.apply_write, Flash.program_outside, ih (by omega)]
    rw [wordStep_length table (by omega)]
    omega

/-- The states after the words `lo..lo+n-1` are programmed. -/
theorem entryAt_tableFlash (f : Flash) (p : ℕ) (table : EntryTable) {lo n i : ℕ} (hn : lo + n ≤ 8) (hi : i < 128) :
    entryAt (tableFlash f p table lo n) p i =
      if lo ≤ i / 16 ∧ i / 16 < lo + n then (entryAt f p i).over (getEntryState table i) else entryAt f p i := by
  induction n with
  | zero => rw [if_neg (by omega)]; rfl
  | succ n ih =>
    rw [tableFlash_succ, wordStep, Op.apply_write, entryAt_program_word table (by omega) hi, ih (by omega)]
    split_ifs <;> first | rfl | omega

theorem tableFlash_otherPage (f : Flash) {p q : ℕ} (table : EntryTable) {lo n x : ℕ} (hn : lo + n ≤ 8) (hq : q ≠ p)
    (hx : base q ≤ x) (hx' : x < base q + 4096) : tableFlash f p table lo n x = f x :=
  tableFlash_outside f table hn (by simp only [base] at *; omega)

/-- `writeTableWords` writes the words in order and fails at the first index above 7. -/
theorem wp_writeTableWords {p lo hi : ℕ} {table : EntryTable} (hp : p < 8) (hlo : lo ≤ hi)
    (hG : ∀ k, lo + k ≤ hi → lo + k < 8 →
      G { w with flash := tableFlash w.flash p table lo k } (wordStep p table (lo + k)))
    (hQ : hi < 8 → Q () { w with flash := tableFlash w.flash p table lo (hi + 1 - lo) })
    (hE : 8 ≤ hi → E .index { w with flash := tableFlash w.flash p table lo (8 - lo) }) :
    wp G Q E (writeTableWords (pageAddr p) table lo hi) w := by
  rw [writeTableWords, pageAddr_natCast hp]
  refine wp_post (wp_range (n := hi + 1 - lo) (fun k _ w' => w' = { w with flash := tableFlash w.flash p table lo k } ∧
    (0 < k → lo + k ≤ 8)) ?_ ⟨rfl, by omega⟩) ?_
  · rintro k hk - - ⟨rfl, hk8⟩
    simp only [wp_bind, wp_checked]
    constructor
    · intro bs hbs
      rcases Nat.lt_or_ge (lo + k) 8 with hlt | hge
      · rw [tableWord_of_lt _ hlt] at hbs
        cases hbs
        refine ⟨hG k (by omega) hlt, ?_, by omega⟩
        simp only [tableFlash_succ]
        rfl
      · rw [tableWord, if_neg (by omega)] at hbs
        cases hbs
    · intro hnone
      have hge : 8 ≤ lo + k := by
        by_contra hlt
        rw [tableWord_of_lt _ (by omega)] at hnone
        cases hnone
      have hk' : k = 8 - lo := by omega
      rw [hk']
      exact hE (by omega)
  · rintro - w' ⟨rfl, hk8⟩
    exact hQ (by omega)

/-! ### Erasing in RAM -/

/-- One pass of the loops of `eraseOldItem` and `nvs_erase_all`: where entry `i`
is written and hit, `len i` entries from `i` on are marked erased. -/
def markStep (hit : ℕ → Prop) [DecidablePred hit] (len : ℕ → ℕ) (s : EntryTable × Bool) (i : ℕ) :
    Option (EntryTable × Bool) :=
  if getEntryState s.1 i = .written ∧ hit i then (setEntryStates s.1 i (len i) .erased).map fun table => (table, true)
  else some s

/-- The table of page `p` as `eraseOldItem` leaves it in RAM, and whether it differs. -/
def eraseTable (f : Flash) (p : ℕ) (nsIndex datatype : UInt8) (key : List UInt8) : Option (EntryTable × Bool) :=
  (List.range entriesPerPage).foldlM
    (markStep (fun i => (itemAt f p i).named nsIndex key ∧ (itemAt f p i).typed datatype) (spanAt f p)) (tableAt f p, false)

theorem checks_eraseEntry {p : ℕ} (hp : p < 8) (nsIndex datatype : UInt8) (key : List UInt8) (s : EntryTable × Bool)
    (i : ℕ) : Checks (eraseEntry nsIndex datatype key (pageAddr p) s i) .index fun f =>
      markStep (fun i => (itemAt f p i).named nsIndex key ∧ (itemAt f p i).typed datatype) (spanAt f p) s i := by
  intro G Q E w
  simp only [eraseEntry, markStep, spanAt]
  by_cases hw : getEntryState s.1 i = .written
  · rw [if_pos hw, wp_bind, reads_readItem hp]
    by_cases hm : (itemAt w.flash p i).named nsIndex key ∧ (itemAt w.flash p i).typed datatype
    · rw [if_pos hm, if_pos ⟨hw, hm⟩, wp_bind, wp_checked]
      cases setEntryStates s.1 i (itemAt w.flash p i).span.toNat .erased <;> simp
    · rw [if_neg hm, if_neg fun h => hm h.2]
      exact Iff.rfl
  · rw [if_neg hw, if_neg fun h => hw h.1]
    exact Iff.rfl

theorem checks_eraseLoop {p : ℕ} (hp : p < 8) (nsIndex datatype : UInt8) (key : List UInt8) (table : EntryTable) :
    Checks ((List.range entriesPerPage).foldlM (eraseEntry nsIndex datatype key (pageAddr p)) (table, false)) .index
      fun f => (List.range entriesPerPage).foldlM
        (markStep (fun i => (itemAt f p i).named nsIndex key ∧ (itemAt f p i).typed datatype) (spanAt f p))
        (table, false) :=
  Checks.foldlM (fun s i => checks_eraseEntry hp nsIndex datatype key s i) _ _

/-- The table of page `p` as `nvs_erase_all` leaves it in RAM, and whether it differs. -/
def eraseAllTable (f : Flash) (p : ℕ) (nsIndex : UInt8) : Option (EntryTable × Bool) :=
  (List.range entriesPerPage).foldlM (markStep (fun i => (itemAt f p i).nsIndex = nsIndex) fun _ => 1)
    (tableAt f p, false)

theorem setEntryStates_one (table : EntryTable) (i : ℕ) (s : EntryState) :
    setEntryStates table i 1 s = setEntryState table i s := by
  simp [setEntryStates, List.range_succ]

theorem checks_eraseAllEntry {p : ℕ} (hp : p < 8) (nsIndex : UInt8) (s : EntryTable × Bool) (i : ℕ) :
    Checks (eraseAllEntry nsIndex (pageAddr p) s i) .index fun f =>
      markStep (fun i => (itemAt f p i).nsIndex = nsIndex) (fun _ => 1) s i := by
  intro G Q E w
  simp only [eraseAllEntry, markStep, setEntryStates_one]
  by_cases hw : getEntryState s.1 i = .written
  · rw [if_pos hw, wp_bind, reads_readItem hp]
    by_cases hm : (itemAt w.flash p i).nsIndex = nsIndex
    · rw [if_pos hm, if_pos ⟨hw, hm⟩, wp_bind, wp_checked]
      cases setEntryState s.1 i .erased <;> simp
    · rw [if_neg hm, if_neg fun h => hm h.2]
      exact Iff.rfl
  · rw [if_neg hw, if_neg fun h => hw h.1]
    exact Iff.rfl

theorem checks_eraseAllLoop {p : ℕ} (hp : p < 8) (nsIndex : UInt8) (table : EntryTable) :
    Checks ((List.range entriesPerPage).foldlM (eraseAllEntry nsIndex (pageAddr p)) (table, false)) .index
      fun f => (List.range entriesPerPage).foldlM (markStep (fun i => (itemAt f p i).nsIndex = nsIndex) fun _ => 1)
        (table, false) :=
  Checks.foldlM (fun s i => checks_eraseAllEntry hp nsIndex s i) _ _

/-- The entries before `n` at which the loop marks a run: those written and hit
that no run marked before them covers. -/
def marked (P : ℕ → Prop) [DecidablePred P] (l : ℕ → ℕ) (T : EntryTable) : ℕ → List ℕ
  | 0 => []
  | n + 1 =>
    if (getEntryState T n = .written ∧ P n) ∧ ∀ i ∈ marked P l T n, i + l i ≤ n then marked P l T n ++ [n]
    else marked P l T n

/-- Entry `j` lies in a run marked before entry `n`. -/
def Covered (P : ℕ → Prop) [DecidablePred P] (l : ℕ → ℕ) (T : EntryTable) (n j : ℕ) : Prop :=
  ∃ i ∈ marked P l T n, i ≤ j ∧ j < i + l i

instance (P : ℕ → Prop) [DecidablePred P] (l : ℕ → ℕ) (T : EntryTable) (n j : ℕ) : Decidable (Covered P l T n j) :=
  inferInstanceAs (Decidable (∃ i ∈ _, _))

section

variable {P : ℕ → Prop} [DecidablePred P] {l : ℕ → ℕ} {T : EntryTable} {n : ℕ}

theorem mem_marked {i : ℕ} (h : i ∈ marked P l T n) : i < n ∧ getEntryState T i = .written ∧ P i := by
  induction n with
  | zero => cases h
  | succ n ih =>
    unfold marked at h
    split_ifs at h with hn
    · rcases List.mem_append.1 h with h | h
      · exact ⟨by have := (ih h).1; omega, (ih h).2⟩
      · obtain rfl := List.mem_singleton.1 h
        exact ⟨by omega, hn.1⟩
    · exact ⟨by have := (ih h).1; omega, (ih h).2⟩

/-- An entry that is written and hit is marked, unless an earlier run covers it. -/
theorem marked_or_covered {j : ℕ} (hj : j < n) (hw : getEntryState T j = .written) (hP : P j) :
    j ∈ marked P l T n ∨ Covered P l T n j := by
  induction n with
  | zero => omega
  | succ n ih =>
    unfold Covered marked
    rcases Nat.lt_or_ge j n with hlt | hge
    · split_ifs
      · refine (ih hlt).imp (List.mem_append_left _) ?_
        rintro ⟨i, hi, hij⟩
        exact ⟨i, List.mem_append_left _ hi, hij⟩
      · exact ih hlt
    · obtain rfl : j = n := by omega
      split_ifs with hn
      · exact .inl (by simp)
      · have hcov : ¬ ∀ i ∈ marked P l T j, i + l i ≤ j := fun h => hn ⟨⟨hw, hP⟩, h⟩
        push Not at hcov
        obtain ⟨i, hi, hij⟩ := hcov
        exact .inr ⟨i, hi, (mem_marked hi).1.le, hij⟩

theorem marked_ne_nil : marked P l T n ≠ [] ↔ ∃ i < n, getEntryState T i = .written ∧ P i := by
  constructor
  · intro h
    obtain ⟨i, hi⟩ := List.exists_mem_of_ne_nil _ h
    exact ⟨i, mem_marked hi⟩
  · rintro ⟨i, hi, hw, hP⟩
    rcases marked_or_covered hi hw hP with h | ⟨j, h, -⟩ <;> exact List.ne_nil_of_mem h

/-- What the loop leaves: each entry of a marked run is erased, every other entry is as it was. -/
theorem foldlM_marked (hlen : ∀ i < n, getEntryState T i = .written → P i → i + l i ≤ 128) :
    ∃ T' modified, (List.range n).foldlM (markStep P l) (T, false) = some (T', modified) ∧
      (∀ j, getEntryState T' j = if Covered P l T n j then .erased else getEntryState T j) ∧
      (modified = true ↔ marked P l T n ≠ []) := by
  induction n with
  | zero => exact ⟨T, false, rfl, fun j => (if_neg fun ⟨_, h, _⟩ => by cases h).symm, by simp [marked]⟩
  | succ n ih =>
    obtain ⟨t, m, he, ht, hm⟩ := ih fun i hi => hlen i (by omega)
    rw [List.range_succ, List.foldlM_append, he]
    simp only [List.foldlM_cons, List.foldlM_nil, Option.bind_eq_bind, Option.bind_some, Option.pure_def]
    -- entry `n` is still written where no run covers it
    have hwritten : getEntryState t n = .written ∧ P n ↔
        (getEntryState T n = .written ∧ P n) ∧ ∀ i ∈ marked P l T n, i + l i ≤ n := by
      have hcov : Covered P l T n n ↔ ¬ ∀ i ∈ marked P l T n, i + l i ≤ n := by
        push Not
        exact ⟨fun ⟨i, hi, h⟩ => ⟨i, hi, h.2⟩, fun ⟨i, hi, h⟩ => ⟨i, hi, (mem_marked hi).1.le, h⟩⟩
      rw [ht n]
      split_ifs with hc
      · exact iff_of_false (fun h => by cases h.1) fun h => hcov.1 hc h.2
      · exact ⟨fun h => ⟨h, not_not.1 (mt hcov.2 hc)⟩, fun h => h.1⟩
    by_cases hn : getEntryState t n = .written ∧ P n
    · obtain ⟨t', ht'⟩ := setEntryStates_isSome t (hlen n (by omega) (hwritten.1 hn).1.1 hn.2) .erased
      rw [markStep, if_pos hn, ht']
      have hmarked : marked P l T (n + 1) = marked P l T n ++ [n] := by rw [marked, if_pos (hwritten.1 hn)]
      refine ⟨t', true, rfl, fun j => ?_, by simp [hmarked]⟩
      have hcov : Covered P l T (n + 1) j ↔ Covered P l T n j ∨ n ≤ j ∧ j < n + l n := by
        simp only [Covered, hmarked, List.mem_append, List.mem_singleton, or_and_right, exists_or, exists_eq_left]
      rw [getEntryState_setEntryStates ht', ht j]
      by_cases hin : n ≤ j ∧ j < n + l n
      · rw [if_pos hin, if_pos (hcov.2 (.inr hin))]
      · simp only [if_neg hin, hcov, or_iff_left hin]
    · rw [markStep, if_neg hn]
      have hmarked : marked P l T (n + 1) = marked P l T n := by rw [marked, if_neg (mt hwritten.2 hn)]
      refine ⟨t, m, rfl, fun j => ?_, by rw [hmarked, hm]⟩
      have hcov : Covered P l T (n + 1) j ↔ Covered P l T n j := by rw [Covered, hmarked, Covered]
      simp only [ht j, hcov]

/-- What the loop leaves where the runs it marks lie apart: each entry of a run
is erased, every other entry is as it was. -/
theorem foldlM_markStep (hlen : ∀ i < n, getEntryState T i = .written → P i → i + l i ≤ 128)
    (hapart : ∀ i j, i < j → j < n → getEntryState T i = .written → P i → getEntryState T j = .written →
      P j → i + l i ≤ j) :
    ∃ T' modified, (List.range n).foldlM (markStep P l) (T, false) = some (T', modified) ∧
      (∀ i j, i < n → getEntryState T i = .written → P i → i ≤ j → j < i + l i →
        getEntryState T' j = .erased) ∧
      (∀ j, (∀ i < n, getEntryState T i = .written → P i → i ≤ j → j < i + l i → False) →
        getEntryState T' j = getEntryState T j) ∧
      (modified = true ↔ ∃ i < n, getEntryState T i = .written ∧ P i) := by
  obtain ⟨T', m, he, ht, hm⟩ := foldlM_marked hlen
  refine ⟨T', m, he, fun i j hi hw hP h1 h2 => ?_, fun j hno => ?_, by rw [hm, marked_ne_nil]⟩
  · rw [ht j, if_pos]
    rcases marked_or_covered hi hw hP with hmem | ⟨k, hk, hki, hik⟩
    · exact ⟨i, hmem, h1, h2⟩
    · obtain ⟨hkn, hwk, hPk⟩ := mem_marked hk
      obtain rfl : k = i := by
        by_contra hne
        have := hapart k i (by omega) hi hwk hPk hw hP
        omega
      exact ⟨k, hk, h1, h2⟩
  · rw [ht j, if_neg]
    rintro ⟨i, hi, h1, h2⟩
    obtain ⟨hin, hw, hP⟩ := mem_marked hi
    exact hno i hin hw hP h1 h2

end

/-! ### One page -/

/-- A step behind the state word of page `p`. -/
def Inner (p : ℕ) (op : Op) : Prop := ∃ a bs, op = .write a bs ∧ base p + 4 ≤ a ∧ a + bs.length ≤ base p + 4096

/-- A step behind the header of page `p`. -/
def Body (p : ℕ) (op : Op) : Prop := ∃ a bs, op = .write a bs ∧ base p + 32 ≤ a ∧ a + bs.length ≤ base p + 4096

theorem Body.inner {p : ℕ} {op : Op} (h : Body p op) : Inner p op := by
  obtain ⟨a, bs, rfl, h1, h2⟩ := h
  exact ⟨a, bs, rfl, by omega, h2⟩

theorem body_wordStep (p : ℕ) (table : EntryTable) {v : ℕ} (hv : v < 8) : Body p (wordStep p table v) :=
  ⟨_, _, rfl, by omega, by rw [wordStep_length table hv]; omega⟩

theorem inner_wordStep (p : ℕ) (table : EntryTable) {v : ℕ} (hv : v < 8) : Inner p (wordStep p table v) :=
  (body_wordStep p table hv).inner

/-- The step of `markPageDirty`. -/
def dirtyStep (p : ℕ) : Op := .write (base p + 9) (le32 0)

theorem inner_dirtyStep (p : ℕ) : Inner p (dirtyStep p) := ⟨_, _, rfl, by omega, by simp⟩

/-- The flash after `erasePage` changed the table of page `p`. -/
def eraseFlash (f : Flash) (p : ℕ) (table : EntryTable) : Flash := tableFlash ((dirtyStep p).apply f) p table 0 8

theorem wp_erasePage {p : ℕ} (hp : p < 8) {nsIndex datatype : UInt8} {key : List UInt8}
    (hdirty : ∀ table, eraseTable w.flash p nsIndex datatype key = some (table, true) → G w (dirtyStep p))
    (hword : ∀ table, eraseTable w.flash p nsIndex datatype key = some (table, true) → ∀ v < 8,
      G ⟨tableFlash ((dirtyStep p).apply w.flash) p table 0 v, invalidateCache nsIndex key w.ram⟩ (wordStep p table v))
    (hsame : ∀ table, eraseTable w.flash p nsIndex datatype key = some (table, false) → Q () w)
    (hmod : ∀ table, eraseTable w.flash p nsIndex datatype key = some (table, true) →
      Q () ⟨eraseFlash w.flash p table, invalidateCache nsIndex key w.ram⟩)
    (hnone : eraseTable w.flash p nsIndex datatype key = none → E .index w) :
    wp G Q E (erasePage nsIndex datatype key p) w := by
  rw [erasePage, wp_bind, reads_readTable hp, wp_bind, checks_eraseLoop hp]
  simp only
  rw [← eraseTable]
  cases he : eraseTable w.flash p nsIndex datatype key with
  | none => exact hnone he
  | some s =>
    obtain ⟨table, modified⟩ := s
    cases modified with
    | false => exact hsame table he
    | true =>
      have hstep : Op.write (pageAddr p + 9) (le32 0) = dirtyStep p := by rw [pageAddr_natCast hp, dirtyStep]
      simp only [if_true, wp_bind, wp_modifyCache, markPageDirty, wp_spiFlashWrite, hstep]
      refine ⟨hdirty table he, wp_writeTableWords hp (by omega) (fun k _ hk => ?_) (fun _ => hmod table he) (by omega)⟩
      rw [Nat.zero_add] at hk ⊢
      exact hword table he k hk

theorem wp_eraseAllPage {p : ℕ} (hp : p < 8) {nsIndex : UInt8}
    (hword : ∀ table, eraseAllTable w.flash p nsIndex = some (table, true) → ∀ v < 8,
      G { w with flash := tableFlash w.flash p table 0 v } (wordStep p table v))
    (hsame : ∀ table, eraseAllTable w.flash p nsIndex = some (table, false) → Q () w)
    (hmod : ∀ table, eraseAllTable w.flash p nsIndex = some (table, true) →
      Q () { w with flash := tableFlash w.flash p table 0 8 })
    (hnone : eraseAllTable w.flash p nsIndex = none → E .index w) :
    wp G Q E (eraseAllPage nsIndex p) w := by
  rw [eraseAllPage, wp_bind, reads_readTable hp, wp_bind, checks_eraseAllLoop hp]
  simp only
  rw [← eraseAllTable]
  cases he : eraseAllTable w.flash p nsIndex with
  | none => exact hnone he
  | some s =>
    obtain ⟨table, modified⟩ := s
    cases modified with
    | false => exact hsame table he
    | true =>
      simp only [if_true]
      refine wp_writeTableWords hp (by omega) (fun k _ hk => ?_) (fun _ => hmod table he) (by omega)
      rw [Nat.zero_add] at hk ⊢
      exact hword table he k hk

end Esp8266Sdk.Nvs
