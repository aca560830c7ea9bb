import Esp8266Sdk.Nvs.Spec

/-! Lookup as a function of the flash and the cache: the scan answers the first
written entry, in page and index order, whose item has the namespace, key and
chunk asked for. -/

namespace Esp8266Sdk.Nvs

open Nor Prog

/-- The page takes part in lookups. -/
def PageLive (f : Flash) (p : ℕ) : Prop :=
  stateAt f p ≠ PageState.uninitialized.word ∧ stateAt f p ≠ PageState.corrupt.word

instance (f : Flash) (p : ℕ) : Decidable (PageLive f p) := inferInstanceAs (Decidable (_ ∧ _))

/-- Entry `i` of page `p` is written and its slot reads as an item of this name. -/
def Match (f : Flash) (nsIndex : UInt8) (key : List UInt8) (chunkIndex : UInt8) (p i : ℕ) : Prop :=
  p < 8 ∧ i < 126 ∧ PageLive f p ∧ entryAt f p i = .written ∧
    (itemAt f p i).named nsIndex key ∧ (itemAt f p i).chunked chunkIndex

instance (f : Flash) (nsIndex : UInt8) (key : List UInt8) (chunkIndex : UInt8) (p i : ℕ) :
    Decidable (Match f nsIndex key chunkIndex p i) := inferInstanceAs (Decidable (_ ∧ _))

/-- Scan order on entries. -/
def Before (q j p i : ℕ) : Prop := q < p ∨ q = p ∧ j < i

/-- The first match in scan order. -/
def FirstMatch (f : Flash) (nsIndex : UInt8) (key : List UInt8) (chunkIndex : UInt8) (p i : ℕ) : Prop :=
  Match f nsIndex key chunkIndex p i ∧ ∀ q j, Before q j p i → ¬ Match f nsIndex key chunkIndex q j

/-- What `findItem` returns for a match. -/
def answer (f : Flash) (datatype : UInt8) (p i : ℕ) : Found :=
  ⟨if (itemAt f p i).typed datatype then espOk else espErrNvsTypeMismatch, itemAt f p i, base p, i⟩

def notFound : Found := ⟨espErrNvsNotFound, .zero, 0, 0⟩

/-- The scan of `findItem`. -/
def scan (f : Flash) (nsIndex datatype : UInt8) (key : List UInt8) (chunkIndex : UInt8) : Option Found :=
  (List.range 8).findSome? fun p => (List.range 126).findSome? fun i =>
    if Match f nsIndex key chunkIndex p i then some (answer f datatype p i) else none

/-- The cached path of `findItem`. -/
def cachedAt (f : Flash) (nsIndex datatype : UInt8) (key : List UInt8) (chunkIndex : UInt8) (a : ℕ) : Option Found :=
  let item := Item.decode (f.read a 32)
  if a ≠ 0 ∧ item.named nsIndex key ∧ item.typed datatype ∧ item.chunked chunkIndex then
    some ⟨espOk, item, alignDown (sub32 a entryDataOffset) pageSize, sub32 a entryDataOffset % pageSize / entrySize⟩
  else none

/-- The answer of `findItem` and the cache it leaves. -/
def lookup (env : Env) (w : NvsWorld) (nsIndex datatype : UInt8) (key : List UInt8) (chunkIndex : UInt8) :
    Found × Cache :=
  match cachedAt w.flash nsIndex datatype key chunkIndex (getFromCache env nsIndex key w.ram) with
  | some r => (r, w.ram)
  | none => match scan w.flash nsIndex datatype key chunkIndex with
    | some r => (r, if r.err = espOk then
        updateCache nsIndex key (r.pageAddr + entryDataOffset + r.entryIdx * entrySize) w.ram else w.ram)
    | none => (notFound, w.ram)

variable {α : Type} {G : NvsWorld → Op → Prop} {E : Defect → NvsWorld → Prop} {w : NvsWorld}

theorem reads_findCached (nsIndex datatype : UInt8) (key : List UInt8) (chunkIndex : UInt8) (a : ℕ) :
    Reads (findCached nsIndex datatype key chunkIndex a) fun f => cachedAt f nsIndex datatype key chunkIndex a := by
  intro G Q E w
  simp only [findCached, cachedAt]
  by_cases ha : a = 0
  · rw [if_pos ha, if_neg fun h => h.1 ha]
    exact Iff.rfl
  · rw [if_neg ha]
    simp only [ne_eq, ha, not_false_eq_true, true_and]
    show wp G Q E (if _ then _ else _) w ↔ _
    split_ifs <;> exact Iff.rfl

theorem reads_scanEntry {p : ℕ} (hp : p < 8) (nsIndex datatype : UInt8) (key : List UInt8) (chunkIndex : UInt8)
    (entryTable : EntryTable) (i : ℕ) :
    Reads (scanEntry nsIndex datatype key chunkIndex (pageAddr p) entryTable i) fun f =>
      if getEntryState entryTable i = .written ∧ (itemAt f p i).named nsIndex key ∧ (itemAt f p i).chunked chunkIndex
      then some (answer f datatype p i) else none := by
  intro G Q E w
  rw [scanEntry]
  by_cases hw : getEntryState entryTable i = .written
  · rw [if_pos hw, wp_bind, reads_readItem hp]
    simp only [hw, true_and, answer]
    split_ifs <;> simp [pageAddr_natCast hp]
  · simp only [hw, false_and, if_false, wp_pure]

theorem reads_scanPage {p : ℕ} (hp : p < 8) (nsIndex datatype : UInt8) (key : List UInt8) (chunkIndex : UInt8) :
    Reads (scanPage nsIndex datatype key chunkIndex p) fun f => (List.range 126).findSome? fun i =>
      if Match f nsIndex key chunkIndex p i then some (answer f datatype p i) else none := by
  intro G Q E w
  rw [scanPage, wp_bind, reads_readHeader hp]
  have hstate : (headerAt w.flash p).state = stateAt w.flash p := rfl
  by_cases hl : PageLive w.flash p
  · simp only [hstate]
    rw [if_neg (not_or.2 hl), wp_bind, reads_readTable hp,
      Reads.search fun i _ => reads_scanEntry hp nsIndex datatype key chunkIndex (tableAt w.flash p) i]
    refine iff_of_eq (congrArg (Q · w) (findSome?_congr fun i hi => ?_))
    have hi := List.mem_range.1 hi
    simp only [Match, entryAt, hp, hl, true_and, show i < 126 from hi]
  · have hnone : ∀ i, ¬ Match w.flash nsIndex key chunkIndex p i := fun i h => hl h.2.2.1
    simp only [hstate, hnone, if_false]
    rw [if_pos (by simpa only [PageLive, ne_eq, not_and_or, not_not] using hl), wp_pure,
      List.findSome?_eq_none_iff.2 fun _ _ => rfl]

theorem reads_scan (nsIndex datatype : UInt8) (key : List UInt8) (chunkIndex : UInt8) :
    Reads (Prog.search (List.range numPages) (scanPage nsIndex datatype key chunkIndex)) fun f =>
      scan f nsIndex datatype key chunkIndex := by
  exact Reads.search fun p hp => reads_scanPage (List.mem_range.1 hp) nsIndex datatype key chunkIndex

/-- `findItem` makes no flash step. -/
theorem wp_findItem {Q : Found → NvsWorld → Prop} (env : Env) (nsIndex datatype : UInt8) (key : List UInt8)
    (chunkIndex : UInt8) : wp G Q E (findItem env nsIndex datatype key chunkIndex) w ↔
      Q (lookup env w nsIndex datatype key chunkIndex).1
        { w with ram := (lookup env w nsIndex datatype key chunkIndex).2 } := by
  rw [findItem, wp_bind, wp_getCache, wp_bind, reads_findCached, lookup]
  simp only
  cases cachedAt w.flash nsIndex datatype key chunkIndex (getFromCache env nsIndex key w.ram) with
  | some r => exact Iff.rfl
  | none =>
    simp only [wp_bind]
    rw [reads_scan]
    simp only
    cases scan w.flash nsIndex datatype key chunkIndex with
    | none => exact Iff.rfl
    | some r =>
      simp only
      split_ifs <;> exact Iff.rfl

theorem run_findItem (env : Env) (nsIndex datatype : UInt8) (key : List UInt8) (chunkIndex : UInt8) (w : NvsWorld) :
    (findItem env nsIndex datatype key chunkIndex).run w =
      (.ok (lookup env w nsIndex datatype key chunkIndex).1,
        { w with ram := (lookup env w nsIndex datatype key chunkIndex).2 }) := by
  have h := wp_run ((wp_findItem (G := fun _ _ => True) (E := fun _ _ => False) (w := w)
    (Q := fun r w' => r = (lookup env w nsIndex datatype key chunkIndex).1 ∧
      w' = { w with ram := (lookup env w nsIndex datatype key chunkIndex).2 }) env nsIndex datatype key chunkIndex).2
    ⟨rfl, rfl⟩)
  rcases hr : (findItem env nsIndex datatype key chunkIndex).run w with ⟨a | e, w'⟩
  · rw [hr] at h
    exact h.elim
  · rw [hr] at h
    obtain ⟨rfl, rfl⟩ := h
    rfl

/-! ### First matches -/

theorem FirstMatch.unique {f : Flash} {nsIndex : UInt8} {key : List UInt8} {chunkIndex : UInt8} {p i q j : ℕ}
    (h : FirstMatch f nsIndex key chunkIndex p i) (h' : FirstMatch f nsIndex key chunkIndex q j) : p = q ∧ i = j := by
  by_contra hne
  have : Before p i q j ∨ Before q j p i := by simp only [Before]; omega
  rcases this with hb | hb
  · exact h'.2 p i hb h.1
  · exact h.2 q j hb h'.1

theorem scan_eq_some_iff {f : Flash} {nsIndex datatype : UInt8} {key : List UInt8} {chunkIndex : UInt8} {r : Found} :
    scan f nsIndex datatype key chunkIndex = some r ↔
      ∃ p i, FirstMatch f nsIndex key chunkIndex p i ∧ r = answer f datatype p i := by
  have hnone : ∀ p i, (if Match f nsIndex key chunkIndex p i then some (answer f datatype p i) else none) = none ↔
      ¬ Match f nsIndex key chunkIndex p i := by simp
  have hsome : ∀ p i, (if Match f nsIndex key chunkIndex p i then some (answer f datatype p i) else none) = some r ↔
      Match f nsIndex key chunkIndex p i ∧ r = answer f datatype p i := by
    intro p i
    split_ifs with h <;> simp [h, eq_comm]
  simp only [scan, findSome?_range_eq_some, findSome?_range_eq_none, hnone, hsome]
  constructor
  · rintro ⟨p, hp, ⟨i, hi, ⟨hm, hr⟩, hbefore⟩, hpages⟩
    refine ⟨p, i, ⟨hm, ?_⟩, hr⟩
    rintro q j (hq | ⟨rfl, hj⟩) hm'
    · exact hpages q hq j hm'.2.1 hm'
    · exact hbefore j hj hm'
  · rintro ⟨p, i, ⟨hm, hfirst⟩, hr⟩
    exact ⟨p, hm.1, ⟨i, hm.2.1, ⟨hm, hr⟩, fun j hj => hfirst p j (.inr ⟨rfl, hj⟩)⟩,
      fun q hq j _ => hfirst q j (.inl hq)⟩

theorem scan_eq_none_iff {f : Flash} {nsIndex datatype : UInt8} {key : List UInt8} {chunkIndex : UInt8} :
    scan f nsIndex datatype key chunkIndex = none ↔ ∀ p i, ¬ Match f nsIndex key chunkIndex p i := by
  have hnone : ∀ p i, (if Match f nsIndex key chunkIndex p i then some (answer f datatype p i) else none) = none ↔
      ¬ Match f nsIndex key chunkIndex p i := by simp
  simp only [scan, findSome?_range_eq_none, hnone]
  exact ⟨fun h p i hm => h p hm.1 i hm.2.1 hm, fun h p _ i _ => h p i⟩

/-- Where anything matches there is a first match. -/
theorem Match.exists_first {f : Flash} {nsIndex : UInt8} {key : List UInt8} {chunkIndex : UInt8} {p i : ℕ}
    (h : Match f nsIndex key chunkIndex p i) : ∃ q j, FirstMatch f nsIndex key chunkIndex q j := by
  cases hs : scan f nsIndex 0 key chunkIndex with
  | none => exact absurd h (scan_eq_none_iff.1 hs p i)
  | some r =>
    obtain ⟨q, j, hf, -⟩ := scan_eq_some_iff.1 hs
    exact ⟨q, j, hf⟩

end Esp8266Sdk.Nvs
