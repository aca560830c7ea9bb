import Esp8266Sdk.Nvs.Regular

/-! When the cache is right. The cached path of `findItem` compares the name and
the type of what a cache slot points at, but not the state of the entry. It
agrees with the scan as long as every slot whose hash is that of the name it
points at points at a block or at an erased entry. -/

namespace Esp8266Sdk.Nvs

open Nor Prog Kv

/-- The hash of the name that entry `i` of page `p` reads as. -/
def nameHash (f : Flash) (p i : ℕ) : UInt16 := calculateKeyHash (itemAt f p i).nsIndex (itemAt f p i).keyString

theorem nameHash_of_named {f : Flash} {p i : ℕ} {nsIndex : UInt8} {key : List UInt8}
    (h : (itemAt f p i).named nsIndex key) : nameHash f p i = calculateKeyHash nsIndex key := by
  rw [nameHash, h.1, h.2]

/-- Slot `k` of the cache points at entry `i` of page `p`. -/
structure Points (cache : Cache) (f : Flash) (k : ℕ) (hk : k < 64) (p i : ℕ) : Prop where
  page : p < 8
  entry : i < 126
  address : cache[k].address = slotAddr p i
  live : nameHash f p i = cache[k].hash → Head f p i ∨ entryAt f p i = .empty

/-- Every cache slot in use is at the place of its hash and points at an entry. -/
def CacheOk (cache : Cache) (f : Flash) : Prop :=
  ∀ k, ∀ hk : k < 64, cache[k].address ≠ 0 → cache[k].hash.toNat % 64 = k ∧ ∃ p i, Points cache f k hk p i

theorem cacheOk_empty (f : Flash) : CacheOk .empty f := by
  intro k hk h
  rw [Cache.empty, Vector.getElem_replicate] at h
  exact absurd rfl h

theorem slotAddr_ne_zero (p i : ℕ) : slotAddr p i ≠ 0 := by simp only [slotAddr, base]; omega

/-! ### The cached path -/

/-- The cache answers with the address in the slot of the name, where its hash agrees. -/
theorem getFromCache_cases (env : Env) (nsIndex : UInt8) (key : List UInt8) (cache : Cache) :
    getFromCache env nsIndex key cache = 0 ∨ env.cached = true ∧ ∃ k, ∃ hk : k < 64,
      (calculateKeyHash nsIndex key).toNat % 64 = k ∧ cache[k].hash = calculateKeyHash nsIndex key ∧
        getFromCache env nsIndex key cache = cache[k].address := by
  rw [getFromCache]
  split_ifs with h1 h2
  · exact .inr ⟨h1, _, hash_mod_lt _, rfl, h2, rfl⟩
  · exact .inl rfl
  · exact .inl rfl

theorem getFromCache_eq {env : Env} (he : env.cached = true) {nsIndex : UInt8} {key : List UInt8} {cache : Cache} {k : ℕ}
    (hk : k < 64) (hmod : (calculateKeyHash nsIndex key).toNat % 64 = k) (hhash : cache[k].hash = calculateKeyHash nsIndex key) :
    getFromCache env nsIndex key cache = cache[k].address := by
  subst hmod
  simp only [getFromCache, he, if_true, hhash]

theorem cachedAt_zero (f : Flash) (nsIndex datatype : UInt8) (key : List UInt8) (chunkIndex : UInt8) :
    cachedAt f nsIndex datatype key chunkIndex 0 = none := by
  rw [cachedAt]
  exact if_neg fun h => h.1 rfl

/-- The cached path at the address of a slot. -/
theorem cachedAt_slot (f : Flash) (nsIndex datatype : UInt8) (key : List UInt8) (chunkIndex : UInt8) {p i : ℕ} (hp : p < 8)
    (hi : i < 126) : cachedAt f nsIndex datatype key chunkIndex (slotAddr p i) =
      if (itemAt f p i).named nsIndex key ∧ (itemAt f p i).typed datatype ∧ (itemAt f p i).chunked chunkIndex then
        some (answer f datatype p i) else none := by
  have hitem : Item.decode (f.read (slotAddr p i) 32) = itemAt f p i := rfl
  have hsub : sub32 (slotAddr p i) entryDataOffset = base p + i * 32 := by
    simp only [sub32, slotAddr, base, entryDataOffset]
    omega
  have hpage : alignDown (base p + i * 32) pageSize = base p := by
    simp only [alignDown, base, pageSize]
    omega
  have hentry : (base p + i * 32) % pageSize / entrySize = i := by
    simp only [base, pageSize, entrySize]
    omega
  simp only [cachedAt, hitem, hsub, hpage, hentry, ne_eq, slotAddr_ne_zero, not_false_eq_true, true_and]
  split_ifs with hm
  · rw [answer, if_pos hm.2.1]
  · rfl

/-! ### Updates of the cache -/

/-- The slot of a name, and the other slots, after `updateCache`. -/
theorem getElem_updateCache (nsIndex : UInt8) (key : List UInt8) (a : ℕ) (cache : Cache) {k : ℕ} (hk : k < 64) :
    (updateCache nsIndex key a cache)[k] =
      if (calculateKeyHash nsIndex key).toNat % 64 = k then ⟨calculateKeyHash nsIndex key, a⟩ else cache[k] := by
  rw [updateCache, Vector.getElem_set]

theorem getElem_invalidateCache (nsIndex : UInt8) (key : List UInt8) (cache : Cache) {k : ℕ} (hk : k < 64) :
    (invalidateCache nsIndex key cache)[k] =
      if (calculateKeyHash nsIndex key).toNat % 64 = k ∧ cache[k].hash = calculateKeyHash nsIndex key then
        ⟨calculateKeyHash nsIndex key, 0⟩ else cache[k] := by
  have hlt := hash_mod_lt (calculateKeyHash nsIndex key)
  by_cases hkk : (calculateKeyHash nsIndex key).toNat % 64 = k
  · subst hkk
    simp only [invalidateCache, true_and]
    split_ifs
    · rw [Vector.getElem_set_self]
    · rfl
  · simp only [invalidateCache, hkk, false_and, if_false]
    split_ifs
    · rw [Vector.getElem_set_ne _ _ hkk]
    · rfl

namespace CacheOk

variable {cache : Cache} {f g : Flash} (h : CacheOk cache f)
include h

/-- A cache that points at a block more. -/
theorem update {p i : ℕ} (hp : p < 8) (hi : Head f p i) (nsIndex : UInt8) (key : List UInt8) :
    CacheOk (updateCache nsIndex key (slotAddr p i) cache) f := by
  intro k hk ha
  by_cases hkk : (calculateKeyHash nsIndex key).toNat % 64 = k
  · have hslot := getElem_updateCache nsIndex key (slotAddr p i) cache hk
    rw [if_pos hkk] at hslot
    refine ⟨by rwa [hslot], p, i, hp, hi.1, by rw [hslot], fun _ => .inl hi⟩
  · have hslot := getElem_updateCache nsIndex key (slotAddr p i) cache hk
    rw [if_neg hkk] at hslot
    rw [hslot] at ha
    obtain ⟨hmod, q, j, hq, hj, haddr, hlive⟩ := h k hk ha
    refine ⟨by rwa [hslot], q, j, hq, hj, by rw [hslot, haddr], fun hh => hlive ?_⟩
    rwa [hslot] at hh

/-- The flash changes in no way that a slot in use can see. -/
theorem congr (hc : ∀ k, ∀ hk : k < 64, ∀ p < 8, ∀ i < 126, cache[k].address = slotAddr p i →
    (nameHash f p i = cache[k].hash → Head f p i ∨ entryAt f p i = .empty) →
    nameHash g p i = cache[k].hash → Head g p i ∨ entryAt g p i = .empty) : CacheOk cache g := by
  intro k hk ha
  obtain ⟨hmod, p, i, hp, hi, haddr, hlive⟩ := h k hk ha
  exact ⟨hmod, p, i, hp, hi, haddr, hc k hk p hp i hi haddr hlive⟩

/-- Blocks are erased that no slot points at under their own hash. -/
theorem removes {R : ℕ → ℕ → Prop} (e : Removes f g R) (hf : Packed f)
    (hR : ∀ k, ∀ hk : k < 64, ∀ p < 8, ∀ i, R p i → cache[k].address = slotAddr p i → nameHash f p i ≠ cache[k].hash) :
    CacheOk cache g := by
  refine h.congr fun k hk p hp i hi haddr hlive hh => ?_
  have hname : nameHash g p i = nameHash f p i := by rw [nameHash, nameHash, e.erases.item hp hi]
  rw [hname] at hh
  rw [e.erases.head_iff hf hp, e.erases.empty_iff hf hp hi]
  exact (hlive hh).imp_left fun hhead => ⟨hhead, fun hr => hR k hk p hp i hr haddr hh⟩

end CacheOk

/-- `eraseOldItem` clears the slot of the name it erases. -/
theorem ErasedOld.cacheOk {w w' : NvsWorld} {nsIndex datatype : UInt8} {key : List UInt8}
    (e : ErasedOld w w' nsIndex datatype key) (hf : Packed w.flash) (h : CacheOk w.ram w.flash) :
    CacheOk w'.ram w'.flash := by
  by_cases hhit : ∃ p < 8, ∃ i, Old w.flash nsIndex datatype key p i
  · rw [e.hit hhit]
    have hinv : CacheOk (invalidateCache nsIndex key w.ram) w.flash := by
      intro k hk ha
      have hslot := getElem_invalidateCache nsIndex key w.ram hk
      split_ifs at hslot
      · rw [hslot] at ha
        exact absurd rfl ha
      · rw [hslot] at ha
        obtain ⟨hmod, p, i, hp, hi, haddr, hlive⟩ := h k hk ha
        refine ⟨by rwa [hslot], p, i, hp, hi, by rw [hslot, haddr], fun hh => hlive ?_⟩
        rwa [hslot] at hh
    refine hinv.removes e.removes hf fun k hk p hp i hold haddr hh => ?_
    -- a slot with the hash of the name was cleared
    rw [nameHash_of_named hold.2.1] at hh
    have hslot := getElem_invalidateCache nsIndex key w.ram hk
    have hne : (invalidateCache nsIndex key w.ram)[k].address ≠ 0 := by
      rw [haddr]
      exact slotAddr_ne_zero p i
    have hmod := (hinv k hk hne).1
    rw [← hh] at hmod
    split_ifs at hslot with hc
    · rw [hslot] at hne
      exact hne rfl
    · rw [hslot] at hh
      exact hc ⟨hmod, hh.symm⟩
  · have hmiss : ∀ p < 8, ∀ i, ¬ Old w.flash nsIndex datatype key p i := fun p hp i hold => hhit ⟨p, hp, i, hold⟩
    rw [e.miss hmiss]
    exact h.removes e.removes hf fun k hk p hp i hold => absurd hold (hmiss p hp i)

/-- What slot `j` of the block of a value reads as, the head apart. -/
def pieceItem (data : Option (List UInt8)) (length : UInt32) (j : ℕ) : Item :=
  .decode ((List.range 32).map fun x => ((payload data length).getD []).getD (32 * (j - 1) + x) 0xff)

theorem Put.pieceItem {f g : Flash} {p t : ℕ} {nsIndex datatype : UInt8} {key : List UInt8}
    {data : Option (List UInt8)} {length : UInt32} (e : PutValue f g p t nsIndex datatype key data length) {j : ℕ}
    (hj : 1 ≤ j) (hj' : j < (itemSpan length).toNat) : itemAt g p (t + j) = pieceItem data length j := by
  rw [itemAt, Nvs.pieceItem]
  congr 1
  refine List.map_congr_left fun x hx => ?_
  have hx := List.mem_range.1 hx
  rw [← e.rest _ (by omega)]
  congr 1
  simp only [slotAddr]
  omega

/-- The place where the next value of this length goes. -/
def target (f : Flash) (length : UInt32) : ℕ × ℕ :=
  match findConsecutiveEntries (tableAt (selFlash f) (selPage f)) (itemSpan length).toNat with
  | some t => (selPage f, t)
  | none => (nextPage (selPage f), 0)

theorem Sound.target_eq {f : Flash} {a u : ℕ} (h : Sound f a u) (length : UInt32) : target f length =
    if 1 ≤ (itemSpan length).toNat ∧ u + (itemSpan length).toNat ≤ 126 then (a, u) else (nextPage a, 0) := by
  rw [target, h.room, h.selPage_eq]
  split_ifs <;> rfl

theorem Sound.target_eq_place {f : Flash} {a u : ℕ} (h : Sound f a u) {length : UInt32} (hr : RoomOk f length)
    (hn : 1 ≤ (itemSpan length).toNat) : target f length = place a u (itemSpan length).toNat := by
  rw [h.target_eq, place]
  by_cases hfit : u + (itemSpan length).toNat ≤ 126
  · rw [if_pos ⟨hn, hfit⟩, if_pos hfit]
  · have hnext := (h.next_lt hr fun h' => hfit h'.2).1
    rw [if_neg fun h' => hfit h'.2, if_neg hfit, nextPage, Nat.mod_eq_of_lt hnext]

/-- No cache slot left over from an erased partition points into the value to
be stored where the value reads as an item with the hash of the slot. -/
def NoStale (cache : Cache) (f : Flash) (data : Option (List UInt8)) (length : UInt32) : Prop :=
  ∀ k, ∀ hk : k < 64, ∀ j < (itemSpan length).toNat, 1 ≤ j ∧ cache[k].address = slotAddr (target f length).1 ((target f length).2 + j) →
    calculateKeyHash (pieceItem data length j).nsIndex (pieceItem data length j).keyString ≠ cache[k].hash

instance (cache : Cache) (f : Flash) (data : Option (List UInt8)) (length : UInt32) : Decidable (NoStale cache f data length) :=
  inferInstanceAs (Decidable (∀ _, ∀ _ : _ < _, _))

/-- `eraseOldItem` adds nothing to the cache. -/
theorem NoStale.erased {w w' : NvsWorld} {nsIndex datatype : UInt8} {key : List UInt8}
    {data : Option (List UInt8)} {length : UInt32} (h : NoStale w.ram w.flash data length)
    (e : ErasedOld w w' nsIndex datatype key) {a u : ℕ} (hs : Sound w.flash a u) : NoStale w'.ram w'.flash data length := by
  have hslot : ∀ k, ∀ hk : k < 64, w'.ram[k] = w.ram[k] ∨ w'.ram[k].address = 0 := by
    intro k hk
    by_cases hhit : ∃ p < 8, ∃ i, Old w.flash nsIndex datatype key p i
    · rw [e.hit hhit, getElem_invalidateCache]
      split_ifs
      · exact .inr rfl
      · exact .inl rfl
    · rw [e.miss fun p hp i hold => hhit ⟨p, hp, i, hold⟩]
      exact .inl rfl
  intro k hk j hj hc
  rw [(e.removes.sound hs).target_eq, ← hs.target_eq] at hc
  rcases hslot k hk with hsame | hzero
  · rw [hsame] at hc ⊢
    exact h k hk j hj hc
  · rw [hzero] at hc
    exact absurd hc.2.symm (slotAddr_ne_zero _ _)

/-- A stored value is new to the cache but for its head. -/
theorem CacheOk.put {cache : Cache} {f g : Flash} (h : CacheOk cache f) {a u p t : ℕ} (hs : Sound f a u) {nsIndex datatype : UInt8}
    {key : List UInt8} {data : Option (List UInt8)} {length : UInt32}
    (e : PutValue f g p t nsIndex datatype key data length) (hr : RoomOk f length)
    (hplace : place a u (itemSpan length).toNat = (p, t)) (hc : NoStale cache f data length) :
    CacheOk cache g ∧ Head g p t := by
  obtain ⟨m, hp, hst⟩ := e.stores
  have hpk := hp.same.packed hs.packed
  have hhead : ∀ {q i}, q < 8 → (Head g q i ↔ Head f q i ∨ q = p ∧ i = t) := by
    intro q i hq
    rw [hst.head_iff hpk hq, hp.same.head_same hs.packed hq]
  have htarget := hs.target_eq_place hr hst.pos
  rw [hplace] at htarget
  refine ⟨h.congr fun k hk q hq i hi haddr hlive hh => ?_, (hhead hst.page).2 (.inr ⟨rfl, rfl⟩)⟩
  by_cases hin : q = p ∧ t ≤ i ∧ i < t + (itemSpan length).toNat
  · obtain ⟨rfl, h1, h2⟩ := hin
    rcases Nat.eq_or_lt_of_le h1 with rfl | hlt
    · exact .inl ((hhead hq).2 (.inr ⟨rfl, rfl⟩))
    · -- a slot that points behind the head
      have hpiece := e.pieceItem (j := i - t) (by omega) (by omega)
      rw [show t + (i - t) = i by omega] at hpiece
      rw [nameHash, hpiece] at hh
      refine absurd hh (hc k hk (i - t) (by omega) ⟨by omega, ?_⟩)
      rw [haddr, htarget, show t + (i - t) = i by omega]
  · have hout : q ≠ p ∨ i < t ∨ t + (itemSpan length).toNat ≤ i := by omega
    have hitem : itemAt g q i = itemAt f q i := by rw [hst.item hq hi hout, hp.same.item hq hi]
    have hname : nameHash g q i = nameHash f q i := by rw [nameHash, nameHash, hitem]
    rw [hname] at hh
    rw [hhead hq, hst.other q hq i hi hout, hp.same.entry hq hi]
    exact (hlive hh).imp_left .inl

end Esp8266Sdk.Nvs
