import Esp8266Sdk.Nvs.Abstraction
import Esp8266Sdk.Nvs.GetSpec

/-! The representation invariant over runs. A call is regular where no
continuation entry reads as an item the call erases, where a value it writes
finds room among the first four entries of a page, and where it stores no second
block under a name and type. Regular calls keep the invariant. -/

namespace Esp8266Sdk.Nvs

open Nor Prog Kv

/-! ### The condition -/

/-- The block count of the value was not cut off when it was narrowed. -/
instance (data : Option (List UInt8)) (length : UInt32) : Decidable (Fits data length) :=
  decidable_of_iff (((payload data length).getD []).length ≤ 32 * ((itemSpan length).toNat - 1)) (by
    rw [Fits]
    cases payload data length <;> simp)

/-- No block of another key is stored under the cut key. -/
def Unshared (f : Flash) (nsIndex datatype : UInt8) (key : List UInt8) : Prop :=
  ∀ p < 8, ∀ i < 126, Head f p i → (itemAt f p i).named nsIndex (key.take 15) ∧ (itemAt f p i).datatype = datatype →
    (itemAt f p i).keyString = key

instance (f : Flash) (nsIndex datatype : UInt8) (key : List UInt8) : Decidable (Unshared f nsIndex datatype key) :=
  inferInstanceAs (Decidable (∀ _ < _, _))

/-- A set that erases whole blocks only and stores one block in a free place. -/
structure RegularSet (f : Flash) (s : Setter) (nsIndex : UInt8) (key : List UInt8) : Prop where
  clear : Clear f nsIndex s.itemType.code key
  unshared : Unshared f nsIndex s.itemType.code key
  fits : Fits s.data s.length
  room : RoomOk f s.length

instance (f : Flash) (s : Setter) (nsIndex : UInt8) (key : List UInt8) : Decidable (RegularSet f s nsIndex key) :=
  decidable_of_iff (Clear f nsIndex s.itemType.code key ∧ Unshared f nsIndex s.itemType.code key ∧ Fits s.data s.length ∧
    RoomOk f s.length) ⟨fun ⟨h1, h2, h3, h4⟩ => ⟨h1, h2, h3, h4⟩, fun ⟨h1, h2, h3, h4⟩ => ⟨h1, h2, h3, h4⟩⟩

/-- A call that keeps the representation invariant. -/
def Regular (env : Env) (w : NvsWorld) : Call → Prop
  | .open name => name.bytes ≠ phyName → (lookup env w 0 ItemType.u8.code name.bytes 0xff).1.err ≠ espOk →
      FreeName w.flash 0 ItemType.u8.code name.bytes ∧ RoomOk w.flash 1
  | .set s handle key => RegularSet w.flash s (nsIndexOf handle) key.bytes
  | .eraseKey handle key => Clear w.flash (nsIndexOf handle) ItemType.any.code key.bytes
  | .eraseAll handle => Uniform w.flash (nsIndexOf handle)
  | _ => True

instance (env : Env) (w : NvsWorld) : (c : Call) → Decidable (Regular env w c)
  | .open _ => inferInstanceAs (Decidable (_ → _))
  | .set .. => inferInstanceAs (Decidable (RegularSet ..))
  | .eraseKey .. => inferInstanceAs (Decidable (Clear ..))
  | .eraseAll _ => inferInstanceAs (Decidable (Uniform ..))
  | .flashInit | .flashDeinit | .flashErase | .close _ | .commit _ | .get .. => inferInstanceAs (Decidable True)

/-! ### Single calls -/

theorem Scalar.code_ne_any (k : Scalar) : k.itemType.code ≠ ItemType.any.code := by cases k <;> decide

theorem Setter.code_ne_any (s : Setter) : s.itemType.code ≠ ItemType.any.code := by
  have hsz : ItemType.sz.code ≠ ItemType.any.code := by decide
  have hblob : ItemType.blob.code ≠ ItemType.any.code := by decide
  cases s with
  | scalar k value => exact k.code_ne_any
  | str value => exact hsz
  | blob value length => exact hblob

theorem RoomOk.congr {f g : Flash} {a u : ℕ} {length : UInt32} (h : RoomOk f length) (hf : Sound f a u) (hg : Sound g a u)
    (hs : ∀ p < 8, stateAt g p = stateAt f p) : RoomOk g length := by
  rw [RoomOk, hf.room, hf.selPage_eq] at h
  rw [RoomOk, hg.room, hg.selPage_eq, hs _ (nextPage_lt a)]
  exact h

/-- Once the old block is erased, the name is free. -/
theorem ErasedOld.freeName {w w' : NvsWorld} {nsIndex datatype : UInt8} {key : List UInt8}
    (e : ErasedOld w w' nsIndex datatype key) (hf : Packed w.flash) (hu : Unshared w.flash nsIndex datatype key) :
    FreeName w'.flash nsIndex datatype key := by
  intro p hp i hi hh hn
  obtain ⟨hold, hno⟩ := (e.removes.erases.head_iff hf hp).1 hh
  rw [e.removes.erases.item hp hi] at hn
  exact hno ⟨hold, ⟨hn.1.1, hu p hp i hi hold hn⟩, .inr hn.2⟩

variable {w : NvsWorld} {s : Store}

/-- `writeItem` of a regular set, once the old block is erased. -/
theorem RegularSet.wp_writeItem (env : Env) (depth : ℕ) (h : Abs w.flash s) {st : Setter} {handle : UInt32} {key : CString}
    (hc : RegularSet w.flash st (nsIndexOf handle) key.bytes) {w₁ : NvsWorld}
    (he : ErasedOld w w₁ (nsIndexOf handle) st.itemType.code key.bytes) :
    wp (fun _ _ => True)
      (fun err w' => (s.step depth (.set st handle key)).1 = .ok (.code err) ∧
        Abs w'.flash (s.step depth (.set st handle key)).2 ∧
        Wrote w₁ w' s.page s.used (nsIndexOf handle) st.itemType.code key.bytes st.data st.length err)
      (fun e _ => (s.step depth (.set st handle key)).1 = .error e)
      (writeItem env depth (nsIndexOf handle) st.itemType.code key.bytes st.data st.length 0xff) w₁ := by
  have habs := he.abs h st.code_ne_any
  have hroom := hc.room.congr h.sound (he.removes.sound h.sound) he.removes.state
  refine wp_mono (wp_writeItem_abs env depth habs hroom hc.fits key.nul_free (he.freeName h.sound.packed hc.unshared))
    (fun _ _ h => h) ?_ ?_
  · rintro err w' ⟨hr, hs, hw⟩
    refine ⟨?_, hs, hw⟩
    simp only [Store.step, hr, Except.map]
  · intro e w' hr
    simp only [Store.step, hr, Except.map]

/-- A regular set is the abstract one. -/
theorem wp_set_regular (env : Env) (depth : ℕ) (h : Abs w.flash s) {st : Setter} {handle : UInt32} {key : CString}
    (hc : RegularSet w.flash st (nsIndexOf handle) key.bytes) :
    wp (fun _ _ => True)
      (fun r w' => (s.step depth (.set st handle key)).1 = .ok r ∧ Abs w'.flash (s.step depth (.set st handle key)).2 ∧
        ∃ w₁ err, r = .code err ∧ ErasedOld w w₁ (nsIndexOf handle) st.itemType.code key.bytes ∧
          Wrote w₁ w' s.page s.used (nsIndexOf handle) st.itemType.code key.bytes st.data st.length err)
      (fun e _ => (s.step depth (.set st handle key)).1 = .error e) (st.prog env depth handle key) w := by
  rw [Setter.prog_eq, nvsSetValue, wp_bind]
  refine wp_post (wp_eraseOldItem h.sound.packed hc.clear) fun _ w₁ he => ?_
  rw [wp_bind]
  refine wp_post (hc.wp_writeItem env depth h he) ?_
  rintro err w' ⟨hr, hs, hw⟩
  exact ⟨hr, hs, w₁, err, rfl, he, hw⟩

theorem erased_flashErase {E : Defect → NvsWorld → Prop} :
    wp (fun _ _ => True) (fun r w' => r = .code espOk ∧ (∀ p < 8, Blank w'.flash p) ∧ w'.ram = w.ram) E nvsFlashErase w := by
  rw [nvsFlashErase, wp_bind]
  refine wp_post (wp_range (fun k _ w' => (∀ p < k, Blank w'.flash p) ∧ w'.ram = w.ram) (fun k _ _ w' h => ?_)
    ⟨fun p hp => by omega, rfl⟩) fun _ w' h => ⟨rfl, h⟩
  rw [wp_eraseSector, after_flash, after_ram, Op.apply_erase]
  refine ⟨trivial, fun p hp => ?_, h.2⟩
  by_cases hpk : p = k
  · rw [hpk]
    exact blank_erase _ k
  · intro x h1 h2
    rw [erase_otherPage hpk h1 h2]
    exact h.1 p (by omega) x h1 h2

theorem abs_of_blank {f : Flash} (h : ∀ p < 8, Blank f p) : Abs f .empty := by
  have hno : ∀ p < 8, ∀ i, ¬ Head f p i := by
    intro p hp i hi
    have hw := hi.2.1
    rw [(h p hp).entryAt (by have := hi.1; omega)] at hw
    cases hw
  refine ⟨⟨⟨by decide, fun p hp => absurd hp (Nat.not_lt_zero p), .inr (h 0 (by omega)), fun p _ hp => h p hp⟩,
    ⟨fun p hp => ⟨?_, ?_, ?_, ?_, ?_⟩, ?_, ?_, ?_, ?_⟩, ?_, Nat.zero_le _, fun j hj => ?_⟩, ?_⟩
  · exact fun hi => absurd hi (hno p hp _)
  · exact fun hi => absurd hi (hno p hp _)
  · exact fun hi => absurd hi (hno p hp _)
  · exact fun hi => absurd hi (hno p hp _)
  · intro j hj hw
    rw [(h p hp).entryAt (by omega)] at hw
    cases hw
  · exact fun p hp i hi => absurd hi (hno p hp i)
  · exact fun p hp i hi => absurd hi (hno p hp i)
  · intro p hp i hi _ x h1 h2
    exact h p hp x (by simp only [slotAddr] at *; omega) (by simp only [slotAddr] at *; omega)
  · intro p hp i j _ hj _
    exact (h p hp).entryAt (by omega)
  · exact fun p hp _ _ i _ hi => absurd hi (hno p hp i)
  · exact iff_of_true ((h 0 (by omega)).entryAt (by omega)) (Nat.zero_le j)
  · symm
    rw [Store.empty, List.eq_nil_iff_forall_not_mem]
    intro e he
    obtain ⟨p, hp, i, hi, -⟩ := mem_logOf.1 he
    exact hno p hp i hi

/-- On a sound flash `nvs_flash_init` finds the page to write to. -/
theorem wp_flashInit_sound {E : Defect → NvsWorld → Prop} {a u : ℕ} (h : Sound w.flash a u) :
    wp (fun _ _ => True) (fun r w' => r = .code espOk ∧ w' = w) E nvsFlashInit w := by
  have hne : (activePage w.flash).1 ≠ -1 := by
    rcases activePage_cases w.flash with ⟨p, -, he, -⟩ | ⟨-, p, -, he, -⟩ | ⟨hn, hnu, -⟩
    · omega
    · omega
    · rcases h.ordered.here with ha | hb
      · exact absurd ha (hn a h.ordered.lt)
      · exact absurd hb.stateAt (hnu a h.ordered.lt)
  rw [nvsFlashInit, wp_bind, reads_findActivePage]
  simp only [hne, if_false, wp_pure, and_self]

/-- A regular call keeps the invariant. -/
theorem call_sound (env : Env) (depth : ℕ) {c : Call} {a u : ℕ} (h : Sound w.flash a u) (hc : Regular env w c) :
    wp (fun _ _ => True) (fun _ w' => ∃ a' u', Sound w'.flash a' u') (fun _ _ => True) (c.prog env depth) w := by
  cases c with
  | flashInit =>
    apply wp_post (wp_flashInit_sound h)
    rintro _ w' ⟨-, rfl⟩
    exact ⟨a, u, h⟩
  | flashErase => exact wp_post erased_flashErase fun _ w' h => ⟨0, 0, (abs_of_blank h.2.1).sound⟩
  | «open» name =>
    rw [Call.prog, nvsOpen]
    split_ifs with hphy
    · exact ⟨a, u, h⟩
    · rw [wp_bind, wp_findItem]
      split_ifs with he
      · exact ⟨a, u, h⟩
      · obtain ⟨hfree, hroom⟩ := hc hphy he
        simp only [wp_bind]
        refine wp_mono (wp_writeItem_abs env depth (w := ⟨w.flash, _⟩) h.abs hroom (fits_of_le _ (by decide)) name.nul_free
          hfree) (fun _ _ h => h) ?_ fun _ _ _ => trivial
        rintro err w' ⟨-, hs, -⟩
        split_ifs <;> exact ⟨_, _, hs.sound⟩
  | get g handle key =>
    rw [Call.prog, wp_getter]
    split
    · exact ⟨a, u, h⟩
    · trivial
  | set st handle key =>
    exact wp_mono (wp_set_regular env depth h.abs hc) (fun _ _ h => h) (fun _ _ h => ⟨_, _, h.2.1.sound⟩) fun _ _ _ => trivial
  | eraseKey handle key =>
    rw [Call.prog, nvsEraseKey, wp_bind]
    exact wp_post (wp_eraseOldItem h.packed hc) fun _ _ he => ⟨a, u, he.removes.sound h⟩
  | eraseAll handle => exact wp_post (wp_nvsEraseAll h.packed hc) fun _ _ he => ⟨a, u, he.2.1.sound h⟩
  | flashDeinit => exact ⟨a, u, h⟩
  | close handle => exact ⟨a, u, h⟩
  | commit handle => exact ⟨a, u, h⟩

theorem Erased.abs {f : Flash} (h : Erased f) : Abs f .empty := abs_of_blank fun _ hp => h.blank hp

theorem Reach.sound {env : Env} {ok : NvsWorld → Call → Prop} (hok : ∀ w c, ok w c → Regular env w c)
    (hw : Reach env ok noCut w) : ∃ a u, Sound w.flash a u := by
  refine hw.invariant (I := fun w => ∃ a u, Sound w.flash a u) (fun f hf => ⟨0, 0, hf.abs.sound⟩)
    (fun w c depth r w' ⟨a, u, h⟩ hc hr => ?_) fun _ _ _ _ _ _ h => h.elim
  exact wp_ok (call_sound env depth h (hok w c hc)) hr

/-! ### The invariant -/

/-- The page is active or full. -/
def InUse (f : Flash) (p : ℕ) : Prop := stateAt f p = PageState.active.word ∨ stateAt f p = PageState.full.word

instance (f : Flash) (p : ℕ) : Decidable (InUse f p) := inferInstanceAs (Decidable (_ ∨ _))

/-- On every page in use the written entries are the disjoint blocks of sound
items and the empty entries are erased, and no two blocks of the partition have
the same namespace, key, type and chunk index. -/
structure Represented (f : Flash) : Prop where
  blocks : ∀ p < 8, InUse f p → Blocks f p (Head f p)
  crc : ∀ p < 8, InUse f p → ∀ i, Head f p i → (itemAt f p i).crc32 = calculateCrc32 (itemAt f p i)
  empty : ∀ p < 8, InUse f p → ∀ i < 126, entryAt f p i = .empty → BlankSlot f p i
  distinct : ∀ p < 8, ∀ q < 8, InUse f p → InUse f q → ∀ i j, Head f p i → Head f q j →
    (itemAt f p i).nsIndex = (itemAt f q j).nsIndex → (itemAt f p i).keyString = (itemAt f q j).keyString →
    (itemAt f p i).datatype = (itemAt f q j).datatype → (itemAt f p i).chunkIndex = (itemAt f q j).chunkIndex →
    p = q ∧ i = j

theorem Sound.represented {f : Flash} {a u : ℕ} (h : Sound f a u) : Represented f where
  blocks := fun p hp _ => h.packed.blocks p hp
  crc := fun p hp _ => h.packed.crc p hp
  empty := fun p hp _ => h.packed.blank p hp
  distinct := fun p hp q hq _ _ i j hi hj h1 h2 h3 _ => h.distinct p hp q hq i j hi hj h1 h2 h3

theorem not_represented {f : Flash} {p i : ℕ} (hp : p < 8) (hu : InUse f p) (hi : Head f p i) (h0 : spanAt f p i = 0) :
    ¬ Represented f := by
  intro h
  have := (h.blocks p hp hu).pos hi
  omega

end Esp8266Sdk.Nvs
