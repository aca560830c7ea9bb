import Esp8266Sdk.Nvs.WriteSpec
import Esp8266Sdk.Nvs.EraseSpec
import Esp8266Sdk.Nvs.Records

/-! What `writeItem` does to a sound store where it finds a place among the first
four entries of a page: it stores one block behind all others. Only there do the
table words it writes back hold the states of the new entries. -/

namespace Esp8266Sdk.Nvs

open Nor Prog Kv

/-! ### Stored items -/

namespace Item

/-- The key and the data lie behind the eight header bytes. -/
theorem encode_eq (it : Item) : ∃ hd : List UInt8, hd.length = 8 ∧ it.encode = hd ++ (it.key.toList ++ it.data.toList) ∧
    hd = [it.nsIndex, it.datatype, it.span, it.chunkIndex] ++ le32 it.crc32 :=
  ⟨_, rfl, by simp only [encode, List.append_assoc], rfl⟩

theorem getD_encode_key (it : Item) {i : ℕ} (hi : i < 16) (d : UInt8) : it.encode.getD (8 + i) d = it.key[i] := by
  obtain ⟨hd, hlen, he, -⟩ := it.encode_eq
  rw [he, List.getD_append_right _ _ _ _ (by omega), hlen, Nat.add_sub_cancel_left, List.getD_append _ _ _ _ (by simpa),
    List.getD_eq_getElem _ _ (by simpa), Vector.getElem_toList]

theorem getD_encode_data (it : Item) {i : ℕ} (hi : i < 8) (d : UInt8) : it.encode.getD (24 + i) d = it.data[i] := by
  obtain ⟨hd, hlen, he, -⟩ := it.encode_eq
  rw [he, List.getD_append_right _ _ _ _ (by omega), hlen, List.getD_append_right _ _ _ _ (by simp; omega),
    Vector.length_toList, show 24 + i - 8 - 16 = i by omega, List.getD_eq_getElem _ _ (by simpa), Vector.getElem_toList]

/-- A stored item is read back as written. -/
theorem decode_encode (it : Item) : decode it.encode = it := by
  have hkey : (decode it.encode).key = it.key := by
    ext i hi
    rw [decode, Vector.getElem_ofFn, getD_encode_key it hi]
  have hdata : (decode it.encode).data = it.data := by
    ext i hi
    rw [decode, Vector.getElem_ofFn, getD_encode_data it hi]
  have hcrc : (decode it.encode).crc32 = it.crc32 := word32_le32 it.crc32
  have heq : decode it.encode = ⟨it.nsIndex, it.datatype, it.span, it.chunkIndex, (decode it.encode).crc32,
    (decode it.encode).key, (decode it.encode).data⟩ := rfl
  rw [heq, hkey, hdata, hcrc]
end Item

theorem getElem_keyField (key : List UInt8) {i : ℕ} (hi : i < 16) :
    (keyField key)[i] = if i < min key.length 15 then key.getD i 0 else 0 := by
  rw [keyField, Vector.getElem_ofFn]

/-- The stored key is the first 15 characters. -/
theorem keyField_eq (key : List UInt8) :
    (keyField key).toList = key.take 15 ++ List.replicate (16 - min key.length 15) 0 := by
  refine List.ext_getElem (by simp; omega) fun i h1 h2 => ?_
  rw [Vector.getElem_toList, getElem_keyField key (by simpa using h1)]
  by_cases hi : i < min key.length 15
  · rw [if_pos hi, List.getElem_append_left (by rw [List.length_take]; omega), List.getElem_take,
      List.getD_eq_getElem _ _ (by omega)]
  · rw [if_neg hi, List.getElem_append_right (by simp; omega), List.getElem_replicate]

theorem takeWhile_keyField {key : List UInt8} (h : 0 ∉ key) : (keyField key).toList.takeWhile (· != 0) = key.take 15 := by
  have hall : ∀ c ∈ key.take 15, (c != 0) = true := by
    intro c hc
    have hne : c ≠ 0 := fun e => h (e ▸ List.mem_of_mem_take hc)
    simpa using hne
  rw [keyField_eq, List.takeWhile_append_of_pos hall, show 16 - min key.length 15 = (15 - min key.length 15) + 1 by omega,
    List.replicate_succ, List.takeWhile_cons_of_neg (by decide), List.append_nil]


/-! ### The invariant -/

/-- The store with its active page `a`, of which the first `u` entries are in use. -/
structure Sound (f : Flash) (a u : ℕ) : Prop where
  ordered : Ordered f a
  packed : Packed f
  distinct : Distinct f
  used_le : u ≤ 126
  used : ∀ j < 126, entryAt f a j = .empty ↔ u ≤ j

/-- `g` holds the items of `f`. -/
abbrev SameItems (f g : Flash) : Prop := Erases f g fun _ _ => False

theorem SameItems.entry {f g : Flash} (e : SameItems f g) {p j : ℕ} (hp : p < 8) (hj : j < 126) :
    entryAt g p j = entryAt f p j :=
  e.kept p hp j hj fun _ h => h.elim

theorem sameItems_of {f g : Flash} (he : ∀ p < 8, ∀ j < 126, entryAt g p j = entryAt f p j)
    (hs : ∀ p < 8, ∀ x, base p + 64 ≤ x → x < base p + 4096 → g x = f x) : SameItems f g where
  head := fun _ _ _ h => h.elim
  gone := fun _ _ _ _ h => h.elim
  kept := fun p hp j hj _ => he p hp j hj
  slot := hs

theorem SameItems.trans {f g h : Flash} (e : SameItems f g) (e' : SameItems g h) : SameItems f h :=
  sameItems_of (fun _ hp _ hj => (e'.entry hp hj).trans (e.entry hp hj))
    fun p hp x h1 h2 => (e'.slot p hp x h1 h2).trans (e.slot p hp x h1 h2)

/-- Initialising a page that is erased changes no item. -/
theorem sameItems_initFlash {f : Flash} {p : ℕ} (hb : Blank f p) (seqNumber : UInt32) :
    SameItems f (initFlash f p seqNumber) := by
  refine sameItems_of (fun q _ j hj => ?_) fun q _ x h1 h2 => ?_
  · by_cases hq : q = p
    · subst hq
      rw [hb.entryAt (by omega), entryAt, tableAt_initFlash, getEntryState_blank (by omega)]
    · exact entryAt_page (by omega) fun x h1 h2 => initFlash_otherPage f seqNumber hq h1 h2
  · by_cases hq : q = p
    · subst hq
      rw [initFlash_blank f seqNumber (by omega) h2, hb x (by omega) h2]
    · exact initFlash_otherPage f seqNumber hq (by omega) h2

/-- Marking a page full changes no item. -/
theorem sameItems_fullFlash (f : Flash) (p : ℕ) : SameItems f (fullFlash f p) := by
  have hout : ∀ {x}, x < base p ∨ base p + 4 ≤ x → fullFlash f p x = f x :=
    fun hx => Flash.program_outside (by rwa [length_le32])
  refine sameItems_of (fun q _ j hj => ?_) fun q _ x h1 h2 => hout (by simp only [base] at *; omega)
  rw [entryAt_eq _ q (by omega), entryAt_eq f q (by omega), hout (by simp only [base]; omega)]

/-- `g` holds the items of `f`, and its page `p` is active with `u` entries in use. -/
structure Prepared (f g : Flash) (p u : ℕ) : Prop where
  same : SameItems f g
  ordered : Ordered g p
  active : stateAt g p = PageState.active.word
  used : ∀ j < 126, entryAt g p j = .empty ↔ u ≤ j

namespace Sound

variable {f : Flash} {a u : ℕ} (h : Sound f a u)
include h

theorem sameItems {g : Flash} (e : SameItems f g) (ho : Ordered g a) : Sound g a u where
  ordered := ho
  packed := e.packed h.packed
  distinct := e.distinct h.packed h.distinct
  used_le := h.used_le
  used := fun j hj => by rw [e.entry h.ordered.lt hj, h.used j hj]

/-- `writeItem` chooses page `a`. -/
theorem selPage_eq : selPage f = a := by
  have hlt := h.ordered.lt
  have hfull : ∀ {p}, p < a → stateAt f p ≠ PageState.active.word ∧ stateAt f p ≠ PageState.uninitialized.word := by
    intro p hp
    rw [h.ordered.full p hp]
    decide
  have hfresh : ∀ {p}, a < p → p < 8 → stateAt f p = PageState.uninitialized.word :=
    fun hp hp8 => (h.ordered.fresh _ hp hp8).stateAt
  rcases activePage_cases f with ⟨p, hp, he, ha⟩ | ⟨hn, p, hp, he, hu, hfirst⟩ | ⟨hn, hnu, -⟩
  · rw [selPage, he, Int.toNat_natCast]
    rcases Nat.lt_trichotomy p a with hpa | hpa | hpa
    · exact absurd ha (hfull hpa).1
    · exact hpa
    · rw [hfresh hpa hp] at ha
      exact absurd ha (by decide)
  · have hb := h.ordered.here.resolve_left (hn a hlt)
    rw [selPage, he, Int.toNat_natCast]
    rcases Nat.lt_trichotomy p a with hpa | hpa | hpa
    · exact absurd hu (hfull hpa).2
    · exact hpa
    · exact absurd hb.stateAt (hfirst a hpa)
  · rcases h.ordered.here with ha | hb
    · exact absurd ha (hn a hlt)
    · exact absurd hb.stateAt (hnu a hlt)

theorem prepared_selFlash : Prepared f (selFlash f) a u := by
  have hsame : SameItems f (selFlash f) ∧ Ordered (selFlash f) a := by
    rw [selFlash, h.selPage_eq]
    split_ifs with ha
    · exact ⟨sameItems_of (fun _ _ _ _ => rfl) fun _ _ _ _ _ => rfl, h.ordered⟩
    · have hb := h.ordered.here.resolve_left ha
      refine ⟨sameItems_initFlash hb _, h.ordered.lt, fun p hp => ?_, .inl (stateAt_initFlash _ _ _), fun p hp hp8 x h1 h2 => ?_⟩
      · rw [stateAt_initFlash_other f _ (by omega), h.ordered.full p hp]
      · rw [initFlash_otherPage f _ (by omega) h1 h2, h.ordered.fresh p hp hp8 x h1 h2]
  have hact := stateAt_selFlash f
  rw [h.selPage_eq] at hact
  exact ⟨hsame.1, hsame.2, hact, (h.sameItems hsame.1 hsame.2).used⟩

/-- The flash after `writeItem` left page `a` for the next one, which is erased. -/
theorem prepared_switch (ha : a + 1 < 8) (seqNumber : UInt32) :
    Prepared f (initFlash (fullFlash (selFlash f) a) (a + 1) seqNumber) (a + 1) 0 := by
  have hsel := h.prepared_selFlash
  have hb : Blank (fullFlash (selFlash f) a) (a + 1) := by
    intro x h1 h2
    rw [fullFlash_otherPage _ (by omega) h1 h2]
    exact hsel.ordered.fresh (a + 1) (by omega) ha x h1 h2
  refine ⟨(hsel.same.trans (sameItems_fullFlash _ a)).trans (sameItems_initFlash hb seqNumber),
    ⟨ha, fun p hp => ?_, .inl (stateAt_initFlash _ _ _), fun p hp hp8 x h1 h2 => ?_⟩, stateAt_initFlash _ _ _, fun j hj => ?_⟩
  · rw [stateAt_initFlash_other _ _ (by omega)]
    by_cases hpa : p = a
    · rw [hpa, fullFlash, stateAt_markFull hsel.active]
    · rw [stateAt_fullFlash_other _ hpa, hsel.ordered.full p (by omega)]
  · rw [initFlash_otherPage _ _ (by omega) h1 h2, fullFlash_otherPage _ (by omega) h1 h2]
    exact hsel.ordered.fresh p (by omega) hp8 x h1 h2
  · rw [entryAt, tableAt_initFlash, getEntryState_blank (by omega)]
    simp

end Sound

/-- In a page filled from its first entry on, room is found at the first free entry. -/
theorem findConsecutiveEntries_used {T : EntryTable} {u : ℕ} (hu : ∀ j < 126, getEntryState T j = .empty ↔ u ≤ j) (n : ℕ) :
    findConsecutiveEntries T n = if 1 ≤ n ∧ u + n ≤ 126 then some u else none := by
  rcases Nat.eq_zero_or_pos n with rfl | hn
  · rw [findConsecutiveEntries_zero, if_neg (by omega)]
  have hrun : u + n ≤ 126 → FreeRun T n u := fun h => ⟨h, fun j h1 h2 => (hu j (by omega)).2 h1⟩
  cases ht : findConsecutiveEntries T n with
  | none => rw [if_neg fun h => findConsecutiveEntries_none hn ht u (hrun h.2)]
  | some t =>
    obtain ⟨hfree, hfirst⟩ := findConsecutiveEntries_some hn ht
    have h126 : t + n ≤ 126 := hfree.1
    have hut := (hu t (by omega)).1 (hfree.2 t le_rfl (by omega))
    have htu : t ≤ u := Nat.le_of_not_lt fun hlt => hfirst u hlt (hrun (by omega))
    rw [if_pos ⟨hn, by omega⟩, show t = u by omega]

/-! ### Storing -/

/-- `g` is `f`, made ready, with the block of `item` and `rest` stored at entry `t` of page `p`. -/
structure Put (f g : Flash) (p t n : ℕ) (item : Item) (rest : Option (List UInt8)) : Prop where
  stores : ∃ h, Prepared f h p t ∧ Stores h g p t n
  ordered : Ordered g p
  item : itemAt g p t = item
  rest : ∀ x < 32 * (n - 1), g (slotAddr p t + 32 + x) = (rest.getD []).getD x 0xff

/-- The block is stored once the table words that hold its entries are written.
The words written are those from `t / 4` on, the right ones for `t < 4` only. -/
theorem Prepared.put {f h : Flash} {p t n m : ℕ} (hp : Prepared f h p t) (hf : Packed f) {item : Item}
    {rest : Option (List UInt8)} {T : EntryTable} (hn : 1 ≤ n) (ht : t < 4) (htn : t + n ≤ 126)
    (hspan : item.span.toNat = n) (hfit : ∀ bs, rest = some bs → bs.length ≤ 32 * (n - 1))
    (hT : setEntryStates (tableAt h p) t n .written = some T) (hm : (t + n - 1) / 16 < m) (hm8 : m ≤ 8) :
    Put f (storedFlash h p t item rest T m) p t n item rest := by
  have hlo : t / 4 + m ≤ 8 := by omega
  have hpage := hp.ordered.lt
  have hpk := hp.same.packed hf
  have hfree : ∀ j, t ≤ j → j < t + n → entryAt h p j = .empty := fun j h1 h2 => (hp.used j (by omega)).2 h1
  have hblank : ∀ x < 32 * n, h (slotAddr p t + x) = 0xff := by
    intro x hx
    refine hpk.blank p hpage (t + x / 32) (by omega) (hfree _ (by omega) (by omega)) _ ?_ ?_ <;>
      simp only [slotAddr] <;> omega
  have hother : ∀ q, q ≠ p → ∀ x, base q ≤ x → x < base q + 4096 → storedFlash h p t item rest T m x = h x :=
    fun q hq x h1 h2 => storedFlash_otherPage hn htn hfit hlo hq h1 h2
  have hslots : ∀ x, slotAddr p t ≤ x → storedFlash h p t item rest T m x = slotsFlash h p t item rest x :=
    fun x hx => tableFlash_outside _ T hlo (.inr (by simp only [slotAddr] at hx; omega))
  have hitem : itemAt (storedFlash h p t item rest T m) p t = item := by
    have hread : (storedFlash h p t item rest T m).read (slotAddr p t) 32 = item.encode := by
      refine List.ext_getElem (by simp) fun i h1 h2 => ?_
      have hi : i < 32 := by simpa using h1
      rw [Flash.getElem_read, hslots _ (by omega), slotsFlash, Flash.program_outside (by omega),
        Flash.program_blank (by simpa using hi) (hblank i (by omega)), List.getD_eq_getElem _ _ h2]
    rw [itemAt, hread, Item.decode_encode]
  refine ⟨⟨h, hp, hpage, hn, htn, by rw [spanAt, hitem, hspan], hfree, fun j hj he => ?_, fun j h1 h2 => ?_,
    fun q hq j hj ho => ?_, fun q hq x h1 h2 ho => ?_⟩, hp.ordered.congr (fun q hq => ?_) fun q hq hb x h1 h2 => ?_, hitem,
    fun x hx => ?_⟩
  · have := (hp.used j (by omega)).1 he
    omega
  · rw [entryAt_storedFlash hlo hT (by omega), if_pos (by omega), hfree j h1 h2, EntryState.empty_over]
  · by_cases hqp : q = p
    · subst hqp
      rw [entryAt_storedFlash hlo hT (by omega), if_neg (by omega)]
    · exact entryAt_page (by omega) (hother q hqp)
  · by_cases hqp : q = p
    · subst hqp
      rw [storedFlash, tableFlash_outside _ T hlo (.inr h1), slotsFlash_outside hn hfit]
      rcases ho with h | h | h
      · exact absurd rfl h
      · exact .inl h
      · simp only [slotAddr] at *
        omega
    · exact hother q hqp x (by omega) h2
  · exact stateAt_storedFlash hn htn hfit hlo q
  · have hqp : q ≠ p := by
      rintro rfl
      have hact := hp.active
      rw [hb.stateAt] at hact
      exact absurd hact (by decide)
    rw [hother q hqp x h1 h2, hb x h1 h2]
  · have hlen : (rest.getD []).length ≤ 32 * (n - 1) := by
      cases rest with
      | none => simp
      | some bs => exact hfit bs rfl
    have hitemOut : (h.program (slotAddr p t) item.encode) (slotAddr p t + 32 + x) = 0xff := by
      rw [Flash.program_outside (by rw [Item.length_encode]; omega), show slotAddr p t + 32 + x = slotAddr p t + (32 + x) by omega,
        hblank _ (by omega)]
    rw [hslots _ (by omega), slotsFlash]
    rcases Nat.lt_or_ge x (rest.getD []).length with hlt | hge
    · rw [Flash.program_blank hlt hitemOut]
    · rw [Flash.program_outside (by omega), hitemOut, List.getD_eq_default _ _ hge]

theorem getElem_itemAt_data (f : Flash) (p i : ℕ) {k : ℕ} (hk : k < 8) :
    (itemAt f p i).data[k] = f (slotAddr p i + 24 + k) := by
  change (Vector.ofFn fun j : Fin 8 => (f.read (slotAddr p i) 32).getD (24 + j) 0)[k] = _
  rw [Vector.getElem_ofFn, Flash.getD_read, if_pos (by omega), Nat.add_assoc]

namespace Put

variable {f g : Flash} {p t n : ℕ} {item : Item} {rest : Option (List UInt8)} (e : Put f g p t n item rest)
include e

theorem recordAt : recordAt g p t = ⟨(item.nsIndex, item.keyString), item.datatype,
    item.data.toList ++ (List.range (32 * (n - 1))).map fun x => (rest.getD []).getD x 0xff⟩ := by
  obtain ⟨h, -, hs⟩ := e.stores
  have hn := hs.pos
  have hdata : g.read (slotAddr p t + 24) 8 = item.data.toList := by
    rw [← e.item]
    refine List.ext_getElem (by simp) fun i h1 h2 => ?_
    have hi : i < 8 := by simpa using h1
    rw [Flash.getElem_read, Vector.getElem_toList, getElem_itemAt_data g p t hi]
  have hrest : g.read (slotAddr p t + 24 + 8) (32 * (n - 1)) =
      (List.range (32 * (n - 1))).map fun x => (rest.getD []).getD x 0xff :=
    List.map_congr_left fun x hx => e.rest x (List.mem_range.1 hx)
  rw [Nvs.recordAt, e.item, hs.span, show 32 * n - 24 = 8 + 32 * (n - 1) by omega, Flash.read_add, hdata, hrest]

/-- Storing appends the record to the log. -/
theorem logOf (hf : Packed f) : logOf g = (Nvs.logOf f).put ⟨(item.nsIndex, item.keyString), item.datatype,
    item.data.toList ++ (List.range (32 * (n - 1))).map fun x => (rest.getD []).getD x 0xff⟩ := by
  rw [← e.recordAt]
  obtain ⟨h, hp, hs⟩ := e.stores
  rw [hs.logOf (hp.same.packed hf), hp.same.logOf_same hf]
  intro q hq hpq i hi
  have hw := hi.2.1
  rw [(hp.ordered.fresh q hpq hq).entryAt (by have := hi.1; omega)] at hw
  cases hw

theorem sound {a u : ℕ} (hf : Sound f a u) (hcrc : item.crc32 = calculateCrc32 item) (hchunk : item.chunkIndex = 0xff)
    (hnew : ∀ q < 8, ∀ i, Head f q i → (itemAt f q i).nsIndex = item.nsIndex →
      (itemAt f q i).keyString = item.keyString → (itemAt f q i).datatype ≠ item.datatype) : Sound g p (t + n) := by
  obtain ⟨h, hp, hs⟩ := e.stores
  have hpk := hp.same.packed hf.packed
  refine ⟨e.ordered, hs.packed hpk (by rw [e.item, hcrc]) (by rw [e.item, hchunk]), ?_, hs.fits, fun j hj => ?_⟩
  · refine hs.distinct hpk (hp.same.distinct hf.packed hf.distinct) fun q hq i hi => ?_
    have hi' := (hp.same.head_same hf.packed hq).1 hi
    rw [hp.same.item hq hi.1, e.item]
    exact hnew q hq i hi'
  · by_cases hin : t ≤ j ∧ j < t + n
    · rw [hs.entry j hin.1 hin.2]
      exact ⟨fun h => (by cases h), fun h => by omega⟩
    · rw [hs.other p hs.page j hj (by omega), hp.used j hj]
      omega

end Put

/-! ### `writeItem` -/

/-- `writeItem` finds room among the first four entries of the chosen page, or
none there and goes on to a page that is not in use. -/
def RoomOk (f : Flash) (length : UInt32) : Prop :=
  match findConsecutiveEntries (tableAt (selFlash f) (selPage f)) (itemSpan length).toNat with
  | some t => t < 4
  | none => stateAt f (nextPage (selPage f)) = PageState.uninitialized.word

instance (f : Flash) (length : UInt32) : Decidable (RoomOk f length) := by
  unfold RoomOk
  split <;> infer_instance

/-- Where a block of `n` entries goes, the first `u` entries of page `a` being in use. -/
def place (a u n : ℕ) : ℕ × ℕ := if u + n ≤ 126 then (a, u) else (a + 1, 0)

theorem Sound.room {f : Flash} {a u : ℕ} (h : Sound f a u) (n : ℕ) :
    findConsecutiveEntries (tableAt (selFlash f) (selPage f)) n = if 1 ≤ n ∧ u + n ≤ 126 then some u else none := by
  rw [h.selPage_eq]
  exact findConsecutiveEntries_used h.prepared_selFlash.used n

/-- Room on the active page is among its first four entries. -/
theorem Sound.used_lt {f : Flash} {a u : ℕ} (h : Sound f a u) {length : UInt32} (hr : RoomOk f length)
    (hn : 1 ≤ (itemSpan length).toNat ∧ u + (itemSpan length).toNat ≤ 126) : u < 4 := by
  rw [RoomOk, h.room, if_pos hn] at hr
  exact hr

/-- Where the active page has no room there is a page behind it. -/
theorem Sound.next_lt {f : Flash} {a u : ℕ} (h : Sound f a u) {length : UInt32} (hr : RoomOk f length)
    (hn : ¬ (1 ≤ (itemSpan length).toNat ∧ u + (itemSpan length).toNat ≤ 126)) :
    a + 1 < 8 ∧ stateAt f (nextPage a) = PageState.uninitialized.word := by
  have ha := h.ordered.lt
  rw [RoomOk, h.room, if_neg hn, h.selPage_eq] at hr
  refine ⟨?_, hr⟩
  by_contra hlast
  have h0 : nextPage a = 0 := by rw [nextPage, show a = 7 by omega]
  rw [h0, h.ordered.full 0 (by omega)] at hr
  exact absurd hr (by decide)

section

variable {w : NvsWorld} {a u : ℕ} {nsIndex datatype : UInt8} {key : List UInt8} {data : Option (List UInt8)}
  {length : UInt32}

/-- The block of a value is stored at entry `t` of page `p`. -/
abbrev PutValue (f g : Flash) (p t : ℕ) (nsIndex datatype : UInt8) (key : List UInt8) (data : Option (List UInt8))
    (length : UInt32) : Prop :=
  Put f g p t (itemSpan length).toNat (newItem nsIndex datatype key data length 0xff) (payload data length)

/-- `storeItem` into a page made ready for it. -/
theorem wp_storeItem_prepared {f : Flash} {p t : ℕ} (hp : Prepared f w.flash p t) (hf : Packed f) (ht : t < 4)
    (hn : 1 ≤ (itemSpan length).toNat) (htn : t + (itemSpan length).toNat ≤ 126) (hfit : Fits data length) :
    wp (fun _ _ => True)
      (fun err w' => err = espOk ∧ t + (itemSpan length).toNat ≤ 32 ∧
        PutValue f w'.flash p t nsIndex datatype key data length ∧ w'.ram = updateCache nsIndex key (slotAddr p t) w.ram)
      (fun e w' => e = .index ∧ 32 < t + (itemSpan length).toNat ∧
        PutValue f w'.flash p t nsIndex datatype key data length ∧ w'.ram = w.ram)
      (storeItem (pageAddr p) (tableAt w.flash p) t nsIndex datatype key data length 0xff) w :=
  wp_storeItem hp.ordered.lt hn htn trivial (fun _ _ => trivial) (fun _ _ _ _ _ => trivial)
    (fun T hT hhi => ⟨rfl, by omega, hp.put hf hn ht htn rfl hfit hT (by omega) (by omega), rfl⟩)
    fun T hT hhi => ⟨rfl, by omega, hp.put hf hn ht htn rfl hfit hT (by omega) (by omega), rfl⟩

/-- How a `writeItem` returns from a sound store. -/
inductive Wrote (w w' : NvsWorld) (a u : ℕ) (nsIndex datatype : UInt8) (key : List UInt8) (data : Option (List UInt8))
    (length : UInt32) : EspErr → Prop
  | stored {p t : ℕ} (hplace : place a u (itemSpan length).toNat = (p, t)) (hwords : t + (itemSpan length).toNat ≤ 32)
      (put : PutValue w.flash w'.flash p t nsIndex datatype key data length)
      (ram : w'.ram = updateCache nsIndex key (slotAddr p t) w.ram) :
      Wrote w w' a u nsIndex datatype key data length espOk
  | noRoom (hspan : ¬ (1 ≤ (itemSpan length).toNat ∧ (itemSpan length).toNat ≤ 126))
      (prepared : Prepared w.flash w'.flash (a + 1) 0) (ram : w'.ram = w.ram) :
      Wrote w w' a u nsIndex datatype key data length espErrNvsNoFreePages

/-- How a `writeItem` fails from a sound store: the stack is used up before its
first step, or a table word behind the last one is asked for. -/
inductive WriteFailed (w w' : NvsWorld) (depth a u : ℕ) (nsIndex datatype : UInt8) (key : List UInt8)
    (data : Option (List UInt8)) (length : UInt32) : Defect → Prop
  | stack (hdepth : depth = 0) (same : w' = w) : WriteFailed w w' depth a u nsIndex datatype key data length .stack
  | index {p t : ℕ} (hplace : place a u (itemSpan length).toNat = (p, t)) (hdepth : depth ≠ 0)
      (hn : 1 ≤ (itemSpan length).toNat) (htn : t + (itemSpan length).toNat ≤ 126)
      (hwords : 32 < t + (itemSpan length).toNat)
      (put : PutValue w.flash w'.flash p t nsIndex datatype key data length) (ram : w'.ram = w.ram) :
      WriteFailed w w' depth a u nsIndex datatype key data length .index

/-- From a sound store `writeItem` either stores the item on a page made ready
for it, or finds no room on a fresh page. -/
theorem wp_writeItem_cases {Q : EspErr → NvsWorld → Prop} {E : Defect → NvsWorld → Prop} (env : Env) (depth : ℕ)
    (h : Sound w.flash a u) (hr : RoomOk w.flash length)
    (hstore : ∀ {p t : ℕ} {v : NvsWorld}, Prepared w.flash v.flash p t → v.ram = w.ram → t < 4 →
      1 ≤ (itemSpan length).toNat → t + (itemSpan length).toNat ≤ 126 → place a u (itemSpan length).toNat = (p, t) →
      wp (fun _ _ => True) Q E (storeItem (pageAddr p) (tableAt v.flash p) t nsIndex datatype key data length 0xff) v)
    (hnone : ∀ {v : NvsWorld}, Prepared w.flash v.flash (a + 1) 0 → v.ram = w.ram →
      ¬ (1 ≤ (itemSpan length).toNat ∧ (itemSpan length).toNat ≤ 126) → Q espErrNvsNoFreePages v) :
    wp (fun _ _ => True) Q E (writeItem env (depth + 1) nsIndex datatype key data length 0xff) w := by
  have hlt := h.ordered.lt
  rw [writeItem, wp_writeItemWith]
  refine ⟨fun _ => ⟨trivial, trivial, trivial⟩, ?_⟩
  rw [h.room, h.selPage_eq]
  by_cases hn : 1 ≤ (itemSpan length).toNat ∧ u + (itemSpan length).toNat ≤ 126
  · rw [if_pos hn]
    exact hstore (v := ⟨selFlash w.flash, w.ram⟩) h.prepared_selFlash rfl (h.used_lt hr hn) hn.1 hn.2 (if_pos hn.2)
  · rw [if_neg hn]
    obtain ⟨ha, hnext⟩ := h.next_lt hr hn
    have hnexta : nextPage a = a + 1 := Nat.mod_eq_of_lt ha
    have hprep := h.prepared_switch ha ((activePage w.flash).2 + 1)
    have hstate : stateAt (selFlash w.flash) (nextPage a) = PageState.uninitialized.word := by
      rw [← hnext, hnexta]
      exact stateAt_congr fun x h1 h2 => selFlash_otherPage _ (by rw [h.selPage_eq]; omega) h1 (by omega)
    simp only
    rw [wp_switchPage _ hlt, if_pos hstate, hnexta]
    refine ⟨trivial, trivial, trivial, trivial, ?_⟩
    rw [reads_readTable ha]
    simp only
    rw [findConsecutiveEntries_used hprep.used]
    by_cases hn' : 1 ≤ (itemSpan length).toNat ∧ 0 + (itemSpan length).toNat ≤ 126
    · rw [if_pos hn']
      exact hstore (v := ⟨_, w.ram⟩) hprep rfl (by omega) hn'.1 hn'.2 (if_neg fun h => hn ⟨hn'.1, h⟩)
    · rw [if_neg hn']
      exact hnone (v := ⟨_, w.ram⟩) hprep rfl (by omega)

theorem wp_writeItem_sound (env : Env) (depth : ℕ) (h : Sound w.flash a u) (hr : RoomOk w.flash length)
    (hfit : Fits data length) :
    wp (fun _ _ => True)
      (fun err w' => depth ≠ 0 ∧ Wrote w w' a u nsIndex datatype key data length err)
      (fun e w' => WriteFailed w w' depth a u nsIndex datatype key data length e)
      (writeItem env depth nsIndex datatype key data length 0xff) w := by
  cases depth with
  | zero => exact .stack rfl rfl
  | succ depth =>
    refine wp_writeItem_cases env depth h hr (fun {p t v} hp hram ht hn htn hplace => ?_)
      fun hprep hram hspan => ⟨by omega, .noRoom hspan hprep hram⟩
    refine wp_mono (wp_storeItem_prepared hp h.packed ht hn htn hfit) (fun _ _ h => h) ?_ ?_
    · rintro err w' ⟨rfl, hwords, hput, hram'⟩
      exact ⟨by omega, .stored hplace hwords hput (by rw [hram', hram])⟩
    · rintro e w' ⟨rfl, hwords, hput, hram'⟩
      exact .index hplace (by omega) hn htn hwords hput (by rw [hram', hram])

end

end Esp8266Sdk.Nvs
