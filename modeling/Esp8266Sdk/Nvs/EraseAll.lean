import Esp8266Sdk.Nvs.Corruption
import Esp8266Sdk.Nvs.EraseKey

/-! `nvs_erase_all`. The loop compares the first byte of every written entry,
continuation entries included, with the namespace, and leaves the cache alone. -/

namespace Esp8266Sdk.Nvs

open Nor Prog

variable {env : Env} {w w' : NvsWorld} {nsIndex : UInt8}

/-! ### What the loop erases -/

/-- The written entries whose first byte is the namespace are erased, and nothing else changes. -/
structure NamespaceErased (w w' : NvsWorld) (nsIndex : UInt8) : Prop where
  entry : ∀ p < 8, ∀ j < 126, entryAt w'.flash p j =
    if entryAt w.flash p j = .written ∧ (itemAt w.flash p j).nsIndex = nsIndex then .erased else entryAt w.flash p j
  outside : ∀ x, (∀ p < 8, x < base p + 32 ∨ base p + 64 ≤ x) → w'.flash x = w.flash x
  ram : w'.ram = w.ram

theorem covered_one {P : ℕ → Prop} [DecidablePred P] {T : EntryTable} {n j : ℕ} :
    Covered P (fun _ => 1) T n j ↔ j < n ∧ getEntryState T j = .written ∧ P j := by
  constructor
  · rintro ⟨i, hi, hij, hji⟩
    obtain rfl : i = j := Nat.le_antisymm hij (Nat.le_of_lt_succ hji)
    exact mem_marked hi
  · rintro ⟨hj, hw, hP⟩
    rcases marked_or_covered (l := fun _ => 1) hj hw hP with hmem | hcov
    · exact ⟨j, hmem, le_rfl, Nat.lt_succ_self j⟩
    · exact hcov

theorem wp_eraseAllPage_exact {p : ℕ} (hp : p < 8) :
    wp (fun _ _ => True) (fun _ w' => (∀ j < 126, entryAt w'.flash p j =
          if entryAt w.flash p j = .written ∧ (itemAt w.flash p j).nsIndex = nsIndex then .erased else entryAt w.flash p j) ∧
        (∀ x, x < base p + 32 ∨ base p + 64 ≤ x → w'.flash x = w.flash x) ∧ w'.ram = w.ram)
      (fun _ _ => False) (eraseAllPage nsIndex p) w := by
  obtain ⟨T, m, he, ht, hm⟩ := foldlM_marked (P := fun i => (itemAt w.flash p i).nsIndex = nsIndex) (l := fun _ => 1)
    (T := tableAt w.flash p) (n := 126) fun i hi _ _ => by omega
  have ht' : ∀ j < 126, getEntryState T j = if entryAt w.flash p j = .written ∧ (itemAt w.flash p j).nsIndex = nsIndex then
      .erased else entryAt w.flash p j := by
    intro j hj
    simp only [ht j, covered_one, hj, true_and]
    rfl
  rw [marked_ne_nil] at hm
  replace he : eraseAllTable w.flash p nsIndex = some (T, m) := he
  refine wp_eraseAllPage hp (fun _ _ _ _ => trivial) (fun T' he' => ?_) (fun T' he' => ?_) fun he' => ?_
  · rw [he] at he'
    cases he'
    refine ⟨fun j hj => ?_, fun _ _ => rfl, rfl⟩
    rw [if_neg]
    intro hc
    cases hm.2 ⟨j, hj, hc⟩
  · rw [he] at he'
    cases he'
    refine ⟨fun j hj => ?_, fun x hx => tableFlash_outside _ T (by omega) hx, rfl⟩
    rw [entryAt_tableFlash _ p T (by omega) (by omega), if_pos (by omega), ht' j hj]
    split_ifs
    · rw [EntryState.over_erased]
    · rw [EntryState.over_self]
  · rw [he] at he'
    cases he'

theorem wp_nvsEraseAll_exact (handle : UInt32) :
    wp (fun _ _ => True) (fun r w' => r = .code espOk ∧ NamespaceErased w w' (nsIndexOf handle)) (fun _ _ => False)
      (nvsEraseAll handle) w := by
  rw [nvsEraseAll, wp_bind]
  -- the tables of the pages before `k` are changed, and nothing else
  refine wp_post (wp_range (fun k _ w' => (∀ p < k, ∀ j < 126, entryAt w'.flash p j =
        if entryAt w.flash p j = .written ∧ (itemAt w.flash p j).nsIndex = nsIndexOf handle then .erased
        else entryAt w.flash p j) ∧
      (∀ x, (∀ p < k, x < base p + 32 ∨ base p + 64 ≤ x) → w'.flash x = w.flash x) ∧ w'.ram = w.ram)
    (fun k hk _ w' inv => ?_) ⟨fun p hp => by omega, fun _ _ => rfl, rfl⟩) ?_
  · obtain ⟨hdone, hout, hram⟩ := inv
    have hpage : ∀ x, base k ≤ x → x < base k + 4096 → w'.flash x = w.flash x :=
      fun x h1 h2 => hout x fun _ _ => by simp only [base] at *; omega
    refine wp_mono (wp_eraseAllPage_exact hk) (fun _ _ h => h) ?_ fun _ _ h => h.elim
    rintro - w'' ⟨hentry, hrest, hram'⟩
    refine ⟨fun p hp j hj => ?_, fun x hx => ?_, hram'.trans hram⟩
    · by_cases hpk : p = k
      · subst hpk
        rw [hentry j hj, entryAt_page (by omega) hpage, itemAt_page hpage hj]
      · rw [← hdone p (by omega) j hj]
        exact entryAt_page (by omega) fun _ _ _ => hrest _ (by simp only [base] at *; omega)
    · rw [hrest x (hx k (by omega)), hout x fun p hp => hx p (by omega)]
  · rintro - w' ⟨hdone, hout, hram⟩
    exact ⟨rfl, hdone, hout, hram⟩

namespace NamespaceErased

variable (e : NamespaceErased w w' nsIndex)
include e

theorem item {p j : ℕ} (hj : j < 126) : itemAt w'.flash p j = itemAt w.flash p j :=
  itemAt_slots hj fun x _ _ => e.outside x fun _ _ => by simp only [base] at *; omega

/-- No entry of the namespace is found by a scan. -/
theorem hidden (key : List UInt8) : Hidden w'.flash nsIndex key := by
  rintro p j ⟨hp, hj, -, hw, hn, -⟩
  rw [e.item hj] at hn
  rw [e.entry p hp j hj] at hw
  split_ifs at hw with hc
  exact hc ⟨hw, hn.1⟩

/-- What the cache answers, it answers from slots, which stay. -/
theorem cacheSilent_iff (hs : SlotAddresses w.ram) (key : List UInt8) :
    CacheSilent env w' nsIndex key ↔ CacheSilent env w nsIndex key := by
  refine forall_congr' fun g => ?_
  have hsame : cachedAt w'.flash nsIndex g.itemType.code key 0xff (getFromCache env nsIndex key w.ram) =
      cachedAt w.flash nsIndex g.itemType.code key 0xff (getFromCache env nsIndex key w.ram) := by
    rcases getFromCache_cases env nsIndex key w.ram with h0 | ⟨-, k, hk, -, -, haddr⟩
    · rw [h0, cachedAt_zero, cachedAt_zero]
    · rcases hs k hk with h0 | ⟨p, hp, i, hi, ha⟩
      · rw [haddr, h0, cachedAt_zero, cachedAt_zero]
      · rw [haddr, ha, cachedAt_slot _ _ _ _ _ hp hi, cachedAt_slot _ _ _ _ _ hp hi]
        simp only [answer, e.item hi]
  rw [e.ram, hsame]

end NamespaceErased

/-! ### The cache over runs -/

namespace SlotAddresses

theorem empty : SlotAddresses .empty := by
  intro k hk
  left
  rw [Cache.empty, Vector.getElem_replicate]

variable {cache : Cache} (h : SlotAddresses cache)
include h

theorem update {p i : ℕ} (hp : p < 8) (hi : i < 126) (nsIndex : UInt8) (key : List UInt8) :
    SlotAddresses (updateCache nsIndex key (slotAddr p i) cache) := by
  intro k hk
  rw [getElem_updateCache]
  split_ifs
  · exact .inr ⟨p, hp, i, hi, rfl⟩
  · exact h k hk

theorem invalidate (nsIndex : UInt8) (key : List UInt8) : SlotAddresses (invalidateCache nsIndex key cache) := by
  intro k hk
  rw [getElem_invalidateCache]
  split_ifs
  · exact .inl rfl
  · exact h k hk

end SlotAddresses

theorem SlotAddresses.lookup (h : SlotAddresses w.ram) (nsIndex datatype : UInt8) (key : List UInt8) (chunkIndex : UInt8) :
    SlotAddresses (lookup env w nsIndex datatype key chunkIndex).2 := by
  unfold Nvs.lookup
  cases cachedAt w.flash nsIndex datatype key chunkIndex (getFromCache env nsIndex key w.ram) with
  | some r => exact h
  | none =>
    cases hscan : scan w.flash nsIndex datatype key chunkIndex with
    | none => exact h
    | some r =>
      obtain ⟨p, i, hfirst, rfl⟩ := scan_eq_some_iff.1 hscan
      simp only
      split_ifs
      · exact h.update hfirst.1.1 hfirst.1.2.1 nsIndex key
      · exact h

theorem ErasedOld.slotAddresses {datatype : UInt8} {key : List UInt8} (e : ErasedOld w w' nsIndex datatype key)
    (h : SlotAddresses w.ram) : SlotAddresses w'.ram := by
  by_cases hhit : ∃ p < 8, ∃ i, Old w.flash nsIndex datatype key p i
  · rw [e.hit hhit]
    exact h.invalidate nsIndex key
  · rwa [e.miss fun p hp i hold => hhit ⟨p, hp, i, hold⟩]

theorem Wrote.slotAddresses {a u : ℕ} {datatype : UInt8} {key : List UInt8} {data : Option (List UInt8)}
    {length : UInt32} {err : EspErr} (hw : Wrote w w' a u nsIndex datatype key data length err)
    (h : SlotAddresses w.ram) : SlotAddresses w'.ram := by
  cases hw with
  | stored hplace hwords put ram =>
    obtain ⟨_, _, hst⟩ := put.stores
    have := hst.pos
    have := hst.fits
    rw [ram]
    exact h.update hst.page (by omega) nsIndex key
  | noRoom hspan prepared ram => rwa [ram]

/-- A regular call leaves item slots in the cache. -/
theorem call_slotAddresses (env : Env) (depth : ℕ) {c : Call} {a u : ℕ} (hf : Sound w.flash a u) (h : SlotAddresses w.ram)
    (hc : Regular env w c) :
    wp (fun _ _ => True) (fun _ w' => SlotAddresses w'.ram) (fun _ _ => True) (c.prog env depth) w := by
  cases c with
  | flashInit =>
    apply wp_post (wp_flashInit_sound hf)
    rintro _ w' ⟨-, rfl⟩
    exact h
  | flashErase => exact wp_post erased_flashErase fun _ w' he => by rwa [he.2.2]
  | «open» name =>
    rw [Call.prog, nvsOpen]
    split_ifs with hphy
    · exact h
    · rw [wp_bind, wp_findItem]
      have hl : SlotAddresses (lookup env w 0 ItemType.u8.code name.bytes 0xff).2 := h.lookup 0 ItemType.u8.code name.bytes 0xff
      split_ifs with he
      · exact hl
      · obtain ⟨-, hroom⟩ := hc hphy he
        simp only [wp_bind]
        refine wp_mono (wp_writeItem_sound env depth (w := ⟨w.flash, _⟩) hf hroom (fits_of_le _ (by decide)))
          (fun _ _ h => h) ?_ fun _ _ _ => trivial
        rintro err w' ⟨-, hw⟩
        split_ifs <;> exact hw.slotAddresses hl
  | get g handle key =>
    rw [Call.prog, wp_getter]
    split
    · exact h.lookup _ _ _ _
    · trivial
  | set st handle key =>
    refine wp_mono (wp_set_regular env depth hf.abs hc) (fun _ _ h => h) ?_ fun _ _ _ => trivial
    rintro r w' ⟨-, -, w₁, err, -, he, hw⟩
    exact hw.slotAddresses (he.slotAddresses h)
  | eraseKey handle key =>
    rw [Call.prog, nvsEraseKey, wp_bind]
    exact wp_post (wp_eraseOldItem hf.packed hc) fun _ _ he => he.slotAddresses h
  | eraseAll handle =>
    exact wp_mono (wp_nvsEraseAll_exact handle) (fun _ _ h => h) (fun _ w' he => by rwa [he.2.ram]) fun _ _ h => h.elim
  | flashDeinit => exact h
  | close handle => exact h
  | commit handle => exact h

theorem Reach.slotAddresses (hw : Reach env (Regular env) noCut w) :
    (∃ a u, Sound w.flash a u) ∧ SlotAddresses w.ram := by
  refine hw.invariant (I := fun w => (∃ a u, Sound w.flash a u) ∧ SlotAddresses w.ram)
    (fun f hf => ⟨⟨0, 0, hf.abs.sound⟩, .empty⟩) (fun w c depth r w' ⟨⟨a, u, hs⟩, h⟩ hc hr => ?_) fun _ _ _ _ _ _ h => h.elim
  exact ⟨wp_ok (call_sound env depth hs hc) hr, wp_ok (call_slotAddresses env depth hs h hc) hr⟩

/-! ### The call -/

/-- `nvs_erase_all` was complete and exact: no getter finds anything, all entries
of items of the namespace are erased, and those of other items are as before. -/
structure NamespaceGone (env : Env) (w w' : NvsWorld) (handle : UInt32) : Prop where
  gets : ∀ (g : Getter) (key : CString), ((g.prog env handle key).run w').1 = .ok (.code espErrNvsNotFound)
  gone : ∀ p < 8, ∀ i, Head w.flash p i → (itemAt w.flash p i).nsIndex = nsIndexOf handle →
    ∀ j, i ≤ j → j < i + spanAt w.flash p i → entryAt w'.flash p j = .erased
  kept : ∀ p < 8, ∀ i, Head w.flash p i → (itemAt w.flash p i).nsIndex ≠ nsIndexOf handle →
    ∀ j, i ≤ j → j < i + spanAt w.flash p i → entryAt w'.flash p j = entryAt w.flash p j

/-- The blocks of the namespace go and the others stay where the slots of each
block agree on the namespace byte. -/
theorem NamespaceErased.uniform_iff (e : NamespaceErased w w' nsIndex) (hf : Packed w.flash) :
    (∀ p < 8, ∀ i, Head w.flash p i → ∀ j, i ≤ j → j < i + spanAt w.flash p i → entryAt w'.flash p j =
      if (itemAt w.flash p i).nsIndex = nsIndex then .erased else entryAt w.flash p j) ↔ Uniform w.flash nsIndex := by
  have hentry : ∀ {p i j}, p < 8 → Head w.flash p i → i ≤ j → j < i + spanAt w.flash p i →
      j < 126 ∧ entryAt w.flash p j = .written ∧ entryAt w'.flash p j =
        if (itemAt w.flash p j).nsIndex = nsIndex then .erased else .written := by
    intro p i j hp hi hij hji
    have hw := (hf.blocks p hp).written hi hij hji
    have hj : j < 126 := by
      have := (hf.blocks p hp).fits hi
      omega
    refine ⟨hj, hw, ?_⟩
    rw [e.entry p hp j hj]
    simp only [hw, true_and]
  constructor
  · intro h p hp i _ hi j _ hij
    have hb := h p hp i hi j hij.1 hij.2
    obtain ⟨-, hw, he⟩ := hentry hp hi hij.1 hij.2
    rw [he, hw] at hb
    by_cases h1 : (itemAt w.flash p j).nsIndex = nsIndex <;> by_cases h2 : (itemAt w.flash p i).nsIndex = nsIndex <;>
      simp [h1, h2] at hb ⊢
  · intro hu p hp i hi j hij hji
    obtain ⟨hj, hw, he⟩ := hentry hp hi hij hji
    have hagree := hu p hp i hi.1 hi j hj ⟨hij, hji⟩
    rw [he, hw]
    simp only [hagree]

/-- In every run of regular calls: `nvs_erase_all` is complete and exact if and
only if the slots of each block agree on the namespace byte and the cache
answers no getter through the handle. -/
theorem eraseAll_exact_iff (hw : Reach env (Regular env) noCut w) (handle : UInt32) :
    (∃ w', (nvsEraseAll handle).run w = (.ok (.code espOk), w') ∧ NamespaceGone env w w' handle) ↔
      Uniform w.flash (nsIndexOf handle) ∧ ∀ key : CString, CacheSilent env w (nsIndexOf handle) key.bytes := by
  obtain ⟨⟨a, u, hs⟩, hslots⟩ := hw.slotAddresses
  have hrun := wp_run (wp_nvsEraseAll_exact (w := w) handle)
  rcases hr : (nvsEraseAll handle).run w with ⟨e | r, w'⟩
  · rw [hr] at hrun
    exact hrun.elim
  rw [hr] at hrun
  obtain ⟨rfl, he⟩ := hrun
  have huniform := he.uniform_iff hs.packed
  simp only [Prod.mk.injEq, true_and, exists_eq_left']
  constructor
  · intro h
    refine ⟨huniform.1 fun p hp i hi j hij hji => ?_, fun key => ?_⟩
    · split_ifs with hn
      · exact h.gone p hp i hi hn j hij hji
      · exact h.kept p hp i hi hn j hij hji
    · exact (he.cacheSilent_iff hslots key.bytes).1 (cacheSilent_of_notFound fun g => h.gets g key)
  · rintro ⟨hu, hsilent⟩
    have hblocks := huniform.2 hu
    refine ⟨fun g key => ?_, fun p hp i hi hn j hij hji => ?_, fun p hp i hi hn j hij hji => ?_⟩
    · exact get_notFound ((he.cacheSilent_iff hslots key.bytes).2 (hsilent key)) (he.hidden key.bytes) g
    · rw [hblocks p hp i hi j hij hji, if_pos hn]
    · rw [hblocks p hp i hi j hij hji, if_neg hn]

theorem eraseAll_exact_iff_factory :
    let w := (((Call.set (.scalar .u8 7#8) 10 keyA).prog (.built []) 1).run factory).2
    (∃ w', (nvsEraseAll 10).run w = (.ok (.code espOk), w') ∧ NamespaceGone (.built []) w w' 10) ↔
      Uniform w.flash (nsIndexOf 10) ∧ ∀ key : CString, CacheSilent (.built []) w (nsIndexOf 10) key.bytes := by
  have hc := refines_factory.faithful (.built []) (c := .set (.scalar .u8 7#8) 10 keyA) (by decide)
  have hr := (refines_factory.run hc 1).trans (show _ = Except.ok (.code espOk) by decide)
  exact eraseAll_exact_iff (reach_factory.call hc.regular (run_eq hr)) 10

/-- The value of a key that was just set is still answered from the cache. -/
theorem eraseAll_incomplete :
    let l := calls (.built []) [(1, .set (.scalar .u8 7#8) 10 keyA)] factory
    l.1 = [.ok (.code espOk)] ∧
      ¬ ∃ w', (nvsEraseAll 10).run l.2 = (.ok (.code espOk), w') ∧ NamespaceGone (.built []) l.2 w' 10 := by
  intro l
  have h : l.1 = [.ok (.code espOk)] ∧
      (((Getter.scalar .u8).prog (.built []) 10 keyA).run ((nvsEraseAll 10).run l.2).2).1 =
        .ok ⟨espOk, some [7], none, none⟩ := by decide +kernel
  refine ⟨h.1, ?_⟩
  rintro ⟨w', hr, hgone⟩
  have hget := h.2
  rw [hr, hgone.gets] at hget
  exact absurd hget (by decide)

end Esp8266Sdk.Nvs
