import Esp8266Sdk.Nvs.CacheSpec

/-! The refinement theorem: on a sound flash with a right cache, a call that
meets its condition ends as the abstract store says and leaves a flash that holds
the abstract store after the call. -/

namespace Esp8266Sdk.Nvs

open Nor Prog Kv

/-! ### Lookups -/

/-- The answer of a lookup that found the block `x`. -/
def foundAt (f : Flash) (datatype : UInt8) : Option (ℕ × ℕ) → Found
  | some x => answer f datatype x.1 x.2
  | none => notFound

theorem typed_iff {item : Item} {datatype : UInt8} (hd : datatype ≠ ItemType.any.code) :
    item.typed datatype ↔ item.datatype = datatype := or_iff_right hd

/-- An erased entry reads as an item of no type that is asked for. -/
theorem BlankSlot.datatype {f : Flash} {p i : ℕ} (h : BlankSlot f p i) : (itemAt f p i).datatype = ItemType.any.code := by
  change (f.read (slotAddr p i) 32).getD 1 0 = _
  rw [Flash.getD_read, if_pos (by omega), h _ (by omega) (by omega)]
  rfl

/-- What the cached path answers, it answers from a block of the name and type. -/
theorem cachedAt_cases {f : Flash} {a u : ℕ} (hs : Sound f a u) {cache : Cache} (hcache : CacheOk cache f) (env : Env)
    (nsIndex : UInt8) {datatype : UInt8} (key : List UInt8) (hd : datatype ≠ ItemType.any.code) :
    cachedAt f nsIndex datatype key 0xff (getFromCache env nsIndex key cache) = none ∨
      ∃ p < 8, ∃ i, Head f p i ∧ (itemAt f p i).named nsIndex key ∧ (itemAt f p i).datatype = datatype ∧
        cachedAt f nsIndex datatype key 0xff (getFromCache env nsIndex key cache) = some (answer f datatype p i) := by
  rcases getFromCache_cases env nsIndex key cache with h0 | ⟨-, k, hk, -, hhash, haddr⟩
  · exact .inl (by rw [h0, cachedAt_zero])
  by_cases h0 : cache[k].address = 0
  · exact .inl (by rw [haddr, h0, cachedAt_zero])
  obtain ⟨-, p, i, hp, hi, haddr', hlive⟩ := hcache k hk h0
  rw [haddr, haddr', cachedAt_slot f nsIndex datatype key 0xff hp hi]
  split_ifs with hm
  · obtain ⟨hnamed, htyped, -⟩ := hm
    have hdt := (typed_iff hd).1 htyped
    have hhead : Head f p i := by
      refine (hlive ((nameHash_of_named hnamed).trans hhash.symm)).resolve_right fun he => hd ?_
      rw [← hdt, (hs.packed.blank p hp i hi he).datatype]
    exact .inr ⟨p, hp, i, hhead, hnamed, hdt, rfl⟩
  · exact .inl rfl

/-- The first block of the name has the type asked for. -/
def TypedFirst (f : Flash) (nsIndex datatype : UInt8) (key : List UInt8) : Prop :=
  ∀ x ∈ firstHead f nsIndex key, (itemAt f x.1 x.2).datatype = datatype

instance (f : Flash) (nsIndex datatype : UInt8) (key : List UInt8) : Decidable (TypedFirst f nsIndex datatype key) := by
  unfold TypedFirst
  cases firstHead f nsIndex key with
  | none => exact .isTrue (by simp)
  | some x => exact decidable_of_iff ((itemAt f x.1 x.2).datatype = datatype) (by simp)

/-- A lookup that takes no continuation entry for an item, and that the cache
does not answer from a block hidden behind one of another type. -/
structure RegularLookup (env : Env) (w : NvsWorld) (nsIndex datatype : UInt8) (key : List UInt8) : Prop where
  clear : ClearName w.flash nsIndex key
  typed : (cachedAt w.flash nsIndex datatype key 0xff (getFromCache env nsIndex key w.ram)).isSome →
    TypedFirst w.flash nsIndex datatype key

instance (env : Env) (w : NvsWorld) (nsIndex datatype : UInt8) (key : List UInt8) :
    Decidable (RegularLookup env w nsIndex datatype key) :=
  decidable_of_iff (ClearName w.flash nsIndex key ∧
    ((cachedAt w.flash nsIndex datatype key 0xff (getFromCache env nsIndex key w.ram)).isSome = true →
      TypedFirst w.flash nsIndex datatype key)) ⟨fun h => ⟨h.1, h.2⟩, fun h => ⟨h.1, h.2⟩⟩

variable {w : NvsWorld} {s : Store}

/-- A regular lookup answers the first block of the name. -/
theorem lookup_regular (env : Env) {a u : ℕ} (hs : Sound w.flash a u) (hcache : CacheOk w.ram w.flash) {nsIndex : UInt8}
    {datatype : UInt8} {key : List UInt8} (hd : datatype ≠ ItemType.any.code)
    (hc : RegularLookup env w nsIndex datatype key) :
    (lookup env w nsIndex datatype key 0xff).1 = foundAt w.flash datatype (firstHead w.flash nsIndex key) ∧
      CacheOk (lookup env w nsIndex datatype key 0xff).2 w.flash := by
  rw [lookup]
  rcases cachedAt_cases hs hcache env nsIndex key hd with hnone | ⟨p, hp, i, hhead, hnamed, hdt, hsome⟩
  · rw [hnone, scan_eq_firstHead hs.ordered hs.packed hc.clear datatype]
    cases hfirst : firstHead w.flash nsIndex key with
    | none => exact ⟨rfl, hcache⟩
    | some x =>
      obtain ⟨hp, hhead, -⟩ := firstHead_some hfirst
      refine ⟨rfl, ?_⟩
      simp only [Option.map_some]
      split_ifs
      · exact hcache.update hp hhead nsIndex key
      · exact hcache
  · rw [hsome]
    refine ⟨?_, hcache⟩
    have htyped := hc.typed (by rw [hsome]; rfl)
    cases hfirst : firstHead w.flash nsIndex key with
    | none =>
      have := List.find?_eq_none.1 hfirst (p, i) (mem_heads.2 ⟨hp, hhead⟩)
      exact absurd hnamed (by simpa using this)
    | some x =>
      obtain ⟨hp', hhead', hnamed'⟩ := firstHead_some hfirst
      have hdt' := htyped x hfirst
      -- the name and the type determine the block
      obtain ⟨rfl, rfl⟩ := hs.distinct p hp x.1 hp' i x.2 hhead hhead' (hnamed.1.trans hnamed'.1.symm)
        (hnamed.2.trans hnamed'.2.symm) (hdt.trans hdt'.symm)
      rfl

/-! ### Getters -/

theorem length_value {f : Flash} {p i : ℕ} : (recordAt f p i).value.length = 32 * spanAt f p i - 24 := by
  rw [recordAt, Flash.length_read]

theorem totalCap_eq {f : Flash} {p i : ℕ} (hs : 1 ≤ spanAt f p i) :
    totalCap (itemAt f p i) = .ofNat (recordAt f p i).value.length := by
  have hlt := (itemAt f p i).span.toNat_lt
  have hm := movedLength_toNat hs
  apply UInt32.toNat.inj
  rw [show totalCap (itemAt f p i) = movedLength (itemAt f p i).span from rfl, hm, UInt32.toNat_ofNat', length_value, spanAt]
  rw [spanAt] at hs
  omega

/-- The bytes of an item that lie inside its block. -/
theorem data_take {f : Flash} {p i k : ℕ} (hs : 1 ≤ spanAt f p i) (hk : k ≤ 8) :
    (itemAt f p i).data.toList.take k = (recordAt f p i).value.take k := by
  have hdata : (itemAt f p i).data.toList = f.read (slotAddr p i + 24) 8 := by
    refine List.ext_getElem (by simp) fun j h1 h2 => ?_
    rw [Flash.getElem_read, Vector.getElem_toList, getElem_itemAt_data f p i (by simpa using h1)]
  rw [hdata, recordAt, Flash.read_take _ _ _ _ hk, Flash.read_take _ _ _ _ (by omega)]

theorem toNat_min (a b : UInt32) : (min a b).toNat = min a.toNat b.toNat := by
  change (if a ≤ b then a else b).toNat = _
  rw [min_def]
  simp only [UInt32.le_iff_toNat_le]
  split_ifs <;> rfl

theorem copyAt_answer {f : Flash} {p i : ℕ} (hs : 1 ≤ spanAt f p i) (datatype : UInt8) {n : UInt32}
    (hn : n.toNat ≤ 32 * spanAt f p i - 24) :
    copyAt f (answer f datatype p i) n = (recordAt f p i).value.take n.toNat := by
  have h8 : (8 : UInt32).toNat = 8 := rfl
  have hitem : (answer f datatype p i).item = itemAt f p i := rfl
  have haddr : (answer f datatype p i).pageAddr + entryDataOffset + (answer f datatype p i).entryIdx * entrySize + 32 =
      slotAddr p i + 24 + 8 := by
    simp only [answer, entryDataOffset, entrySize, slotAddr]
  rw [copyAt, hitem, haddr, recordAt, Flash.read_take _ _ _ _ hn]
  split_ifs with hlt
  · have hlt' : 8 < n.toNat := UInt32.lt_iff_toNat_lt.1 hlt
    have hmin : min 8 n = 8 := UInt32.toNat.inj (by rw [toNat_min]; omega)
    have hsub : (n - 8).toNat = n.toNat - 8 := UInt32.toNat_sub_of_le _ _ (UInt32.le_iff_toNat_le.2 (by omega))
    rw [hmin, hsub, data_take hs (by omega), recordAt, Flash.read_take _ _ _ _ (by omega), h8,
      ← Flash.read_add, Nat.add_sub_cancel' (by omega)]
  · have hle : n.toNat ≤ 8 := Nat.le_of_not_lt fun h => hlt (UInt32.lt_iff_toNat_lt.2 h)
    have hmin : min 8 n = n := UInt32.toNat.inj (by rw [toNat_min]; omega)
    rw [hmin, List.append_nil, data_take hs hle, recordAt, Flash.read_take _ _ _ _ hn]

theorem Getter.code_ne_any (g : Getter) : g.itemType.code ≠ ItemType.any.code := by
  have hsz : ItemType.sz.code ≠ ItemType.any.code := by decide
  have hblob : ItemType.blob.code ≠ ItemType.any.code := by decide
  cases g with
  | scalar k => exact k.code_ne_any
  | str capacity => exact hsz
  | blob capacity => exact hblob

theorem Scalar.size_le (k : Scalar) : k.size ≤ 8 := by cases k <;> decide

/-- A getter answers alike from an item and a record that agree on the value. -/
theorem reply_eq_read {f : Flash} {r : Found} {e : Record} (g : Getter) (herr : r.err = espOk)
    (hkind : e.kind = g.itemType.code) (hcap : totalCap r.item = .ofNat e.value.length) (hlen : e.value.length < 2 ^ 31)
    (hdata : ∀ k ≤ 8, r.item.data.toList.take k = e.value.take k)
    (hcopy : ∀ length : UInt32, copyAt f r (min (.ofNat e.value.length) length) =
      e.value.take (min (.ofNat e.value.length) length).toNat) : g.reply f r = g.read (some e) := by
  simp only [Getter.reply, Getter.read, herr, hkind, hcap, ne_eq, not_true, if_false]
  cases g with
  | scalar k => simp only [hdata k.size k.size_le]
  | str capacity =>
    cases capacity with
    | none => rfl
    | some length =>
      have hlt : (min (.ofNat e.value.length) length).toNat < 2 ^ 31 := by
        rw [toNat_min, UInt32.toNat_ofNat', Nat.mod_eq_of_lt (by omega)]
        omega
      simp only [hlt, if_true, hcopy]
      all_goals
        generalize findTerminator _ 0 = o
        cases o <;> rfl
  | blob capacity =>
    cases capacity with
    | none => rfl
    | some length => simp only [hcopy]

/-- A getter reads from a block as from its record. -/
theorem reply_head {f : Flash} {p i : ℕ} (hf : Packed f) (hp : p < 8) (hhead : Head f p i) (g : Getter) :
    g.reply f (answer f g.itemType.code p i) = g.read (some (recordAt f p i)) := by
  have hpos := (hf.blocks p hp).pos hhead
  have hfits := (hf.blocks p hp).fits hhead
  have hlen := length_value (f := f) (p := p) (i := i)
  by_cases hdt : (itemAt f p i).datatype = g.itemType.code
  · refine reply_eq_read g (if_pos ((typed_iff g.code_ne_any).2 hdt)) hdt (totalCap_eq hpos) (by omega)
      (fun k hk => data_take hpos hk) fun length => copyAt_answer hpos _ ?_
    rw [toNat_min, UInt32.toNat_ofNat', hlen, Nat.mod_eq_of_lt (by omega)]
    exact Nat.min_le_left _ _
  · have herr : (answer f g.itemType.code p i).err = espErrNvsTypeMismatch :=
      if_neg fun h => hdt ((typed_iff g.code_ne_any).1 h)
    have hkind : (recordAt f p i).kind = (itemAt f p i).datatype := rfl
    have hne : espErrNvsTypeMismatch ≠ espOk := by decide
    simp only [Getter.reply, Getter.read, herr, hkind, hdt, hne, ne_eq, not_false_eq_true, if_true]

theorem reply_foundAt {f : Flash} (hf : Packed f) (g : Getter) (nsIndex : UInt8) (key : List UInt8) :
    g.reply f (foundAt f g.itemType.code (firstHead f nsIndex key)) = g.read ((logOf f).lookup (nsIndex, key)) := by
  rw [lookup_logOf]
  cases hfirst : firstHead f nsIndex key with
  | none => rfl
  | some x =>
    obtain ⟨hp, hhead, -⟩ := firstHead_some hfirst
    exact reply_head hf hp hhead g

/-! ### Calls -/

/-- Slot `k` of the cache does not point at a block of the namespace under the block's own hash. -/
def UncachedSlot (e : CacheEntry) (f : Flash) (nsIndex : UInt8) : Prop :=
  ∀ p < 8, ∀ i < 126, InNamespace f nsIndex p i → e.address = slotAddr p i → nameHash f p i ≠ e.hash

instance (e : CacheEntry) (f : Flash) (nsIndex : UInt8) : Decidable (UncachedSlot e f nsIndex) :=
  inferInstanceAs (Decidable (∀ _ < _, _))

/-- No cache slot points at a block of the namespace. `nvs_erase_all` would leave it there. -/
def Uncached (cache : Cache) (f : Flash) (nsIndex : UInt8) : Prop := ∀ k, ∀ hk : k < 64, UncachedSlot cache[k] f nsIndex

instance (cache : Cache) (f : Flash) (nsIndex : UInt8) : Decidable (Uncached cache f nsIndex) :=
  inferInstanceAs (Decidable (∀ _, ∀ _ : _ < _, _))

/-- A call that the code carries out as the abstract store does: regular, its
lookups regular, and leaving no cache slot behind that points at what was erased. -/
def Faithful (env : Env) (w : NvsWorld) : Call → Prop
  | .open name => name.bytes ≠ phyName → RegularLookup env w 0 ItemType.u8.code name.bytes ∧
      ((lookup env w 0 ItemType.u8.code name.bytes 0xff).1.err ≠ espOk →
        FreeName w.flash 0 ItemType.u8.code name.bytes ∧ RoomOk w.flash 1)
  | .get g handle key => RegularLookup env w (nsIndexOf handle) g.itemType.code key.bytes
  | .set s handle key => RegularSet w.flash s (nsIndexOf handle) key.bytes ∧ NoStale w.ram w.flash s.data s.length
  | .eraseKey handle key => Clear w.flash (nsIndexOf handle) ItemType.any.code key.bytes
  | .eraseAll handle => Uniform w.flash (nsIndexOf handle) ∧ Uncached w.ram w.flash (nsIndexOf handle)
  | _ => True

instance (env : Env) (w : NvsWorld) : (c : Call) → Decidable (Faithful env w c)
  | .open _ => inferInstanceAs (Decidable (_ → _))
  | .get .. => inferInstanceAs (Decidable (RegularLookup ..))
  | .set .. | .eraseAll _ => inferInstanceAs (Decidable (_ ∧ _))
  | .eraseKey .. => inferInstanceAs (Decidable (Clear ..))
  | .flashInit | .flashDeinit | .flashErase | .close _ | .commit _ => inferInstanceAs (Decidable True)

theorem Faithful.regular {env : Env} {c : Call} (h : Faithful env w c) : Regular env w c := by
  cases c with
  | «open» name => exact fun hphy => (h hphy).2
  | set s handle key => exact h.1
  | eraseKey handle key => exact h
  | eraseAll handle => exact h.1
  | _ => trivial

/-- The flash holds the store and the cache is right. -/
structure Refines (w : NvsWorld) (s : Store) : Prop where
  abs : Abs w.flash s
  cache : CacheOk w.ram w.flash

/-- What `writeItem` leaves in the cache. -/
theorem Wrote.cacheOk {w w' : NvsWorld} {a u : ℕ} {nsIndex datatype : UInt8} {key : List UInt8}
    {data : Option (List UInt8)} {length : UInt32} {err : EspErr} (hw : Wrote w w' a u nsIndex datatype key data length err)
    (hs : Sound w.flash a u) (hcache : CacheOk w.ram w.flash) (hr : RoomOk w.flash length)
    (hc : NoStale w.ram w.flash data length) : CacheOk w'.ram w'.flash := by
  cases hw with
  | stored hplace hwords put ram =>
    obtain ⟨_, _, hst⟩ := put.stores
    obtain ⟨hok, hhead⟩ := hcache.put hs put hr hplace hc
    rw [ram]
    exact hok.update hst.page hhead nsIndex key
  | noRoom hspan prepared ram =>
    rw [ram]
    refine hcache.congr fun k hk p hp i hi haddr hlive hh => ?_
    have hname : nameHash w'.flash p i = nameHash w.flash p i := by rw [nameHash, nameHash, prepared.same.item hp hi]
    rw [prepared.same.head_same hs.packed hp, prepared.same.entry hp hi]
    exact hlive (hname ▸ hh)

theorem noStale_of_span {c : Cache} {f : Flash} {data : Option (List UInt8)} {length : UInt32}
    (h : (itemSpan length).toNat = 1) : NoStale c f data length := by
  intro k hk j hj hc
  omega

/-- `nvs_open` of a name other than "phy". -/
theorem wp_open_refines (env : Env) (depth : ℕ) (h : Refines w s) {name : CString} (hphy : name.bytes ≠ phyName)
    (hc : Faithful env w (.open name)) :
    wp (fun _ _ => True)
      (fun r w' => (s.step depth (.open name)).1 = .ok r ∧ Refines w' (s.step depth (.open name)).2)
      (fun e _ => (s.step depth (.open name)).1 = .error e) (nvsOpen env depth name) w := by
  obtain ⟨hlook, hnew⟩ := hc hphy
  have hs := h.abs.sound
  have hu8 : ItemType.u8.code ≠ ItemType.any.code := by decide
  obtain ⟨hfound, hcache⟩ := lookup_regular env hs h.cache hu8 hlook
  have hlog : s.log.lookup (0, name.bytes) =
      (firstHead w.flash 0 name.bytes).map fun x => recordAt w.flash x.1 x.2 := by
    rw [h.abs.log, lookup_logOf]
  have hput : (lookup env w 0 ItemType.u8.code name.bytes 0xff).1.err ≠ espOk → wp (fun _ _ => True)
      (fun r w' => (s.put depth 1 (registration name.bytes)).1.map openReply = .ok r ∧
        Refines w' (s.put depth 1 (registration name.bytes)).2)
      (fun e _ => (s.put depth 1 (registration name.bytes)).1.map openReply = .error e) (do
        if (← writeItem env depth 0 ItemType.u8.code name.bytes (some [(10 : UInt8)]) 1 0xff) = espOk then
          return ⟨espOk, none, none, some (10 : UInt8).toUInt32⟩
        else return .code 0x1101) ⟨w.flash, (lookup env w 0 ItemType.u8.code name.bytes 0xff).2⟩ := by
    intro herr
    obtain ⟨hfree, hroom⟩ := hnew herr
    rw [wp_bind]
    refine wp_mono (wp_writeItem_abs env depth (w := ⟨w.flash, _⟩) h.abs hroom (fits_of_le _ (by decide)) name.nul_free
      hfree) (fun _ _ h => h) ?_ ?_
    · rintro err w' ⟨hr, habs, hw⟩
      have hr' : (s.put depth 1 (registration name.bytes)).1 = .ok err := hr
      have hcache' := hw.cacheOk hs hcache hroom (noStale_of_span rfl)
      rw [hr', Except.map]
      split_ifs with he
      · rw [wp_pure, openReply, if_pos he]
        exact ⟨rfl, habs, hcache'⟩
      · rw [wp_pure, openReply, if_neg he]
        exact ⟨rfl, habs, hcache'⟩
    · intro e w' hr
      have hr' : (s.put depth 1 (registration name.bytes)).1 = .error e := hr
      rw [hr', Except.map]
  rw [nvsOpen, if_neg hphy, wp_bind, wp_findItem, hfound]
  rw [hfound] at hput
  simp only [Store.step, hphy, if_false, hlog]
  cases hfirst : firstHead w.flash 0 name.bytes with
  | none =>
    rw [hfirst] at hput
    have hne : notFound.err ≠ espOk := by decide
    rw [foundAt] at hput ⊢
    simp only [hne, if_false, Option.map_none, Option.filter_none]
    exact hput hne
  | some x =>
    rw [hfirst] at hput
    by_cases hdt : (itemAt w.flash x.1 x.2).datatype = ItemType.u8.code
    · have he : (foundAt w.flash ItemType.u8.code (some x)).err = espOk := if_pos ((typed_iff hu8).2 hdt)
      have hkind : (recordAt w.flash x.1 x.2).kind = ItemType.u8.code := hdt
      obtain ⟨hp, hhead, -⟩ := firstHead_some hfirst
      have hpos := (hs.packed.blocks x.1 hp).pos hhead
      have hbyte : (recordAt w.flash x.1 x.2).value.getD 0 0 = (foundAt w.flash ItemType.u8.code (some x)).item.data[0] := by
        change (w.flash.read (slotAddr x.1 x.2 + 24) (32 * spanAt w.flash x.1 x.2 - 24)).getD 0 0 =
          (itemAt w.flash x.1 x.2).data[0]
        rw [getElem_itemAt_data _ _ _ (by omega), Flash.getD_read, if_pos (by omega)]
      simp only [he, if_true, Option.map_some, Option.filter_some, hkind, decide_true, wp_pure, hbyte]
      exact ⟨trivial, h.abs, hcache⟩
    · have hne : (foundAt w.flash ItemType.u8.code (some x)).err ≠ espOk := by
        rw [foundAt, answer, if_neg fun h => hdt ((typed_iff hu8).1 h)]
        exact (by decide : espErrNvsTypeMismatch ≠ espOk)
      have hkind : ¬ (recordAt w.flash x.1 x.2).kind = ItemType.u8.code := hdt
      simp only [hne, if_false, Option.map_some, Option.filter_some, hkind, decide_false, Bool.false_eq_true]
      exact hput hne

/-- A faithful call ends as on the abstract store, and what it leaves is the abstract store after it. -/
theorem call_refines (env : Env) (depth : ℕ) {c : Call} (h : Refines w s) (hc : Faithful env w c) :
    wp (fun _ _ => True) (fun r w' => (s.step depth c).1 = .ok r ∧ Refines w' (s.step depth c).2)
      (fun e _ => (s.step depth c).1 = .error e) (c.prog env depth) w := by
  have hs := h.abs.sound
  cases c with
  | flashInit =>
    apply wp_post (wp_flashInit_sound hs)
    rintro _ w' ⟨rfl, rfl⟩
    exact ⟨rfl, h⟩
  | flashErase =>
    apply wp_post erased_flashErase
    rintro _ w' ⟨rfl, hb, hram⟩
    refine ⟨rfl, abs_of_blank hb, ?_⟩
    rw [hram]
    exact h.cache.congr fun k hk p hp i hi _ _ _ => .inr ((hb p hp).entryAt (by omega))
  | «open» name =>
    by_cases hphy : name.bytes = phyName
    · rw [Call.prog, nvsOpen, if_pos hphy, Store.step, if_pos hphy]
      exact ⟨rfl, h⟩
    · exact wp_open_refines env depth h hphy hc
  | get g handle key =>
    obtain ⟨hfound, hcache⟩ := lookup_regular env hs h.cache g.code_ne_any hc
    rw [Call.prog, wp_getter, hfound, reply_foundAt hs.packed, ← h.abs.log, Store.step]
    cases g.read (s.log.lookup (nsIndexOf handle, key.bytes)) with
    | error e => rfl
    | ok r => exact ⟨rfl, h.abs, hcache⟩
  | set st handle key =>
    apply wp_post (wp_set_regular env depth h.abs hc.1)
    rintro r w' ⟨hr, habs, w₁, err, -, he, hw⟩
    exact ⟨hr, habs, hw.cacheOk (he.removes.sound hs) (he.cacheOk hs.packed h.cache)
      (hc.1.room.congr hs (he.removes.sound hs) he.removes.state) (hc.2.erased he hs)⟩
  | eraseKey handle key =>
    rw [Call.prog, nvsEraseKey, wp_bind]
    exact wp_post (wp_eraseOldItem hs.packed hc) fun _ w' he => ⟨rfl, he.abs_any h.abs, he.cacheOk hs.packed h.cache⟩
  | eraseAll handle =>
    apply wp_post (wp_nvsEraseAll hs.packed hc.1)
    rintro _ w' ⟨rfl, hrem, hram⟩
    refine ⟨rfl, h.abs.eraseAll hrem, ?_⟩
    rw [hram]
    exact h.cache.removes hrem hs.packed fun k hk p hp i hr haddr => hc.2 k hk p hp i hr.1.1 hr haddr
  | flashDeinit => exact ⟨rfl, h⟩
  | close handle => exact ⟨rfl, h⟩
  | commit handle => exact ⟨rfl, h⟩

theorem refines_powerOn {f : Flash} (h : Abs f s) : Refines (powerOn f) s := ⟨h, cacheOk_empty f⟩

end Esp8266Sdk.Nvs
