import Esp8266Sdk.Nvs.StepLists
import Esp8266Sdk.Nvs.RoundTrip

/-! Power cuts inside a set. The old value is erased before the new one is stored,
and the slots are written before the table calls them written. A cut is harmless
before the table word that erases the old value, while a page is made ready, and
after the table words of the new item. -/

namespace Esp8266Sdk.Nvs

open Nor Prog Kv

variable {f : Flash} {a u : ℕ}

/-! ### Making a page ready -/

theorem Prepared.sound {g : Flash} {p t : ℕ} (hp : Prepared f g p t) (h : Sound f a u) (ht : t ≤ 126) : Sound g p t where
  ordered := hp.ordered
  packed := hp.same.packed h.packed
  distinct := hp.same.distinct h.packed h.distinct
  used_le := ht
  used := hp.used

/-- A page marked full is left for the erased one behind it. -/
theorem Sound.full (h : Sound f a u) (hact : stateAt f a = PageState.active.word) (ha : a + 1 < 8) :
    Sound (fullFlash f a) (a + 1) 0 := by
  have hsame := sameItems_fullFlash f a
  have hblank : ∀ p, a < p → p < 8 → Blank (fullFlash f a) p := by
    intro p hp hp8 x h1 h2
    rw [fullFlash_otherPage f (by omega) h1 h2]
    exact h.ordered.fresh p hp hp8 x h1 h2
  refine ⟨⟨ha, fun p hp => ?_, .inr (hblank _ (by omega) ha), fun p hp => hblank p (by omega)⟩, hsame.packed h.packed,
    hsame.distinct h.packed h.distinct, Nat.zero_le _, fun j hj => ?_⟩
  · by_cases hpa : p = a
    · rw [hpa, fullFlash, stateAt_markFull hact]
    · rw [stateAt_fullFlash_other f hpa, h.ordered.full p (by omega)]
  · exact iff_of_true ((hblank _ (by omega) ha).entryAt (by omega)) (Nat.zero_le j)

/-- Erasing an erased page changes nothing, nor does writing its table. -/
theorem take_initOps {p : ℕ} (hb : Blank f p) (seqNumber : UInt32) (k : ℕ) :
    applyOps f ((initOps p seqNumber).take k) = f ∨ applyOps f ((initOps p seqNumber).take k) = initFlash f p seqNumber := by
  have herase : f.erase (base p) 4096 = f := by
    funext x
    rw [Flash.erase]
    split_ifs with hx
    · exact (hb x hx.1 hx.2).symm
    · rfl
  rcases k with _ | _ | _ | k
  · exact .inl rfl
  · exact .inl herase
  · exact .inr rfl
  · rw [List.take_of_length_le (by rw [initOps]; simp)]
    exact .inr (applyOps_initOps f p seqNumber)

theorem SameItems.refl (f : Flash) : SameItems f f := sameItems_of (fun _ _ _ _ => rfl) fun _ _ _ _ _ => rfl

/-- While a page is made ready the store stays sound, with the same items. -/
theorem Sound.take_prepOps (h : Sound f a u) {length : UInt32} (hr : RoomOk f length) (k : ℕ) :
    ∃ a' u', Sound (applyOps f ((prepOps f length).take k)) a' u' ∧ SameItems f (applyOps f ((prepOps f length).take k)) := by
  have hsel := h.selPage_eq
  have hprep := h.prepared_selFlash
  have hsound := hprep.sound h h.used_le
  have hselect : ∀ k, applyOps f ((selectOps f).take k) = f ∨ applyOps f ((selectOps f).take k) = selFlash f := by
    intro k
    rw [selectOps, selFlash, hsel]
    split_ifs with hact
    · exact .inl (by rw [List.take_nil, applyOps_nil])
    · exact take_initOps (h.ordered.here.resolve_left hact) _ k
  have hfirst : ∀ k, ∃ a' u', Sound (applyOps f ((selectOps f).take k)) a' u' ∧
      SameItems f (applyOps f ((selectOps f).take k)) := by
    intro k
    rcases hselect k with he | he <;> rw [he]
    · exact ⟨a, u, h, .refl f⟩
    · exact ⟨a, u, hsound, hprep.same⟩
  rw [prepOps, h.room, hsel]
  by_cases hn : 1 ≤ (itemSpan length).toNat ∧ u + (itemSpan length).toNat ≤ 126
  · rw [if_pos hn, Option.isSome_some, if_pos rfl, List.append_nil]
    exact hfirst k
  · rw [if_neg hn, Option.isSome_none, if_neg Bool.false_ne_true]
    obtain ⟨ha, -⟩ := h.next_lt hr hn
    have hnexta : nextPage a = a + 1 := Nat.mod_eq_of_lt ha
    rcases Nat.le_total k (selectOps f).length with hk | hk
    · rw [List.take_append_of_le_length hk]
      exact hfirst k
    · rw [applyOps_take_append _ _ _ hk, applyOps_selectOps]
      generalize k - (selectOps f).length = j
      cases j with
      | zero => exact ⟨a, u, hsound, hprep.same⟩
      | succ j =>
        have hfull := hsound.full hprep.active ha
        have hsame := hprep.same.trans (sameItems_fullFlash _ a)
        rw [switchOps, List.take_succ_cons, applyOps_cons, hnexta]
        change ∃ a' u', Sound (applyOps (fullFlash (selFlash f) a) _) a' u' ∧
          SameItems f (applyOps (fullFlash (selFlash f) a) _)
        have hb : Blank (fullFlash (selFlash f) a) (a + 1) := by
          intro x h1 h2
          rw [fullFlash_otherPage _ (by omega) h1 h2]
          exact hsound.ordered.fresh (a + 1) (by omega) ha x h1 h2
        rcases take_initOps hb ((activePage f).2 + 1) j with he | he <;> rw [he]
        · exact ⟨a + 1, 0, hfull, hsame⟩
        · have hswitch := h.prepared_switch ha ((activePage f).2 + 1)
          exact ⟨a + 1, 0, hswitch.sound h (by omega), hswitch.same⟩

/-! ### Erasing the old value -/

/-- Before the table word of the old block, the words written change no entry. -/
theorem Sound.take_eraseOps (h : Sound f a u) {nsIndex datatype : UInt8} {key : List UInt8}
    (hany : datatype ≠ ItemType.any.code) {q i : ℕ} (hq : q < 8) (ho : Old f nsIndex datatype key q i) {T : EntryTable}
    (hm : Marks f q (Old f nsIndex datatype key q) T) {k : ℕ} (hk : k ≤ 1 + i / 16) :
    Sound (applyOps f ((eraseOps q T).take k)) a u ∧ SameItems f (applyOps f ((eraseOps q T).take k)) := by
  have hi := ho.1.1
  rcases k with _ | k
  · exact ⟨h, .refl f⟩
  have hg : applyOps f ((eraseOps q T).take (k + 1)) = tableFlash ((dirtyStep q).apply f) q T 0 k := by
    rw [eraseOps, List.take_succ_cons, applyOps_cons, wordOps_take, Nat.min_eq_left (by omega), applyOps_wordOps]
  have hdirty : ∀ x, x < base q + 9 ∨ base q + 13 ≤ x → (dirtyStep q).apply f x = f x := fun x hx => by
    rw [dirtyStep, Op.apply_write, Flash.program_outside (by rw [length_le32]; omega)]
  have hout : ∀ x, x < base q + 4 ∨ base q + 64 ≤ x → tableFlash ((dirtyStep q).apply f) q T 0 k x = f x := fun x hx => by
    rw [tableFlash_outside _ T (by omega) (by omega), hdirty x (by omega)]
  have hentry : ∀ j < 126, entryAt (tableFlash ((dirtyStep q).apply f) q T 0 k) q j = entryAt f q j := by
    intro j hj
    have hd : entryAt ((dirtyStep q).apply f) q j = entryAt f q j := by
      rw [entryAt_eq _ q (by omega), entryAt_eq f q (by omega), hdirty _ (by omega)]
    rw [entryAt_tableFlash _ q T (by omega) (by omega), hd]
    split_ifs with hj16
    · rw [hm.kept j hj fun i' hi' h1 h2 => ?_, EntryState.over_self]
      have := (Old.unique h.distinct hany hq hq hi' ho).2
      omega
    · rfl
  rw [hg]
  have hsame : SameItems f (tableFlash ((dirtyStep q).apply f) q T 0 k) := by
    refine sameItems_of (fun p _ j hj => ?_) fun p _ x h1 h2 => hout x (by simp only [base] at *; omega)
    by_cases hpq : p = q
    · rw [hpq, hentry j hj]
    · exact entryAt_page (by omega) fun x h1 h2 => hout x (by simp only [base] at *; omega)
  refine ⟨h.sameItems hsame (h.ordered.congr (fun p _ => ?_) fun p hp hb x h1 h2 => ?_), hsame⟩
  · exact stateAt_congr fun x h1 h2 => hout x (by simp only [base] at *; omega)
  · have hpq : p ≠ q := by
      rintro rfl
      have hw := ho.1.2.1
      rw [hb.entryAt (by omega)] at hw
      cases hw
    rw [hout x (by simp only [base] at *; omega), hb x h1 h2]

/-! ### The flash of a cut set -/

/-- The cut comes before the table word that erases the old block. -/
def BeforeErase (f : Flash) (nsIndex datatype : UInt8) (key : List UInt8) (k : ℕ) : Prop :=
  ∀ p < 8, ∀ i < 126, Old f nsIndex datatype key p i → k ≤ 1 + i / 16

instance (f : Flash) (nsIndex datatype : UInt8) (key : List UInt8) (k : ℕ) : Decidable (BeforeErase f nsIndex datatype key k) :=
  inferInstanceAs (Decidable (∀ _ < _, _))

/-- The number of steps of `eraseOldItem`: the dirty mark and the eight table words of one page. -/
def eraseSteps (f : Flash) (nsIndex datatype : UInt8) (key : List UInt8) : ℕ :=
  if NoHit f nsIndex datatype key then 0 else 9

/-- The number of steps of `storeItem` up to the last table word that holds an entry of the item. -/
def storeSteps (f : Flash) (data : Option (List UInt8)) (length : UInt32) : ℕ :=
  2 + (payload data length).toList.length +
    ((findConsecutiveEntries (tableAt (selFlash f) (selPage f)) (itemSpan length).toNat).getD 0 +
      (itemSpan length).toNat - 1) / 16

/-- A string whose terminator is in reach of the search, or no string. -/
def Setter.Terminated : Setter → Prop
  | .str value => value.bytes.length < 1024
  | _ => True

instance : (s : Setter) → Decidable s.Terminated
  | .str value => inferInstanceAs (Decidable (value.bytes.length < 1024))
  | .scalar .. | .blob .. => inferInstanceAs (Decidable True)

/-- The points at which a set can be cut off: before the old block is erased and
the first slot is written, and behind the last table word of the new block. -/
def SafeSet (f : Flash) (depth : ℕ) (s : Setter) (nsIndex : UInt8) (key : List UInt8) (k : ℕ) : Prop :=
  BeforeErase f nsIndex s.itemType.code key k ∧ k ≤ eraseSteps f nsIndex s.itemType.code key + prepSteps f s.length ∨
    depth ≠ 0 ∧ s.Terminated ∧
      eraseSteps f nsIndex s.itemType.code key + prepSteps f s.length + storeSteps f s.data s.length ≤ k

instance (f : Flash) (depth : ℕ) (s : Setter) (nsIndex : UInt8) (key : List UInt8) (k : ℕ) :
    Decidable (SafeSet f depth s nsIndex key k) := inferInstanceAs (Decidable (_ ∨ _))

theorem Sound.prepSteps_eq (h : Sound f a u) (length : UInt32) : prepSteps f length =
    (if stateAt f a = PageState.active.word then 0 else 3) +
      if 1 ≤ (itemSpan length).toNat ∧ u + (itemSpan length).toNat ≤ 126 then 0 else 4 := by
  rw [prepSteps, h.room, h.selPage_eq]
  by_cases hn : 1 ≤ (itemSpan length).toNat ∧ u + (itemSpan length).toNat ≤ 126
  · rw [if_pos hn, if_pos hn, Option.isSome_some, if_pos rfl]
  · rw [if_neg hn, if_neg hn, Option.isSome_none, if_neg Bool.false_ne_true]

theorem Sound.storeSteps_eq (h : Sound f a u) {data : Option (List UInt8)} {length : UInt32} {p t : ℕ}
    (hn : 1 ≤ (itemSpan length).toNat) (hplace : place a u (itemSpan length).toNat = (p, t)) :
    storeSteps f data length = 2 + (payload data length).toList.length + (t + (itemSpan length).toNat - 1) / 16 := by
  rw [place] at hplace
  rw [storeSteps, h.room]
  split_ifs at hplace with hu <;> cases hplace
  · rw [if_pos ⟨hn, hu⟩, Option.getD_some]
  · rw [if_neg fun h => hu h.2, Option.getD_none]

/-- The steps of `storeItem` are all made, up to table words that hold no entry of the item. -/
theorem take_storeOps (f : Flash) (p t : ℕ) (item : Item) (rest : Option (List UInt8)) (T : EntryTable) (m : ℕ) {k : ℕ}
    (hk : 1 + rest.toList.length ≤ k) :
    applyOps f ((storeOps p t item rest T m).take k) =
      storedFlash f p t item rest T (min (k - (1 + rest.toList.length)) m) := by
  obtain ⟨k, rfl⟩ := Nat.exists_eq_add_of_le hk
  rw [storeOps, show 1 + rest.toList.length + k = (rest.toList.length + k) + 1 by omega, List.take_succ_cons, applyOps_cons,
    applyOps_take_append _ _ _ (by rw [List.length_map]; omega), wordOps_take, applyOps_wordOps, List.length_map, storedFlash,
    slotsFlash, show rest.toList.length + k - rest.toList.length = rest.toList.length + k + 1 - (1 + rest.toList.length) by omega]
  cases rest with
  | none => rw [Option.getD_none, program_nil]; rfl
  | some bs => rfl

theorem Setter.span_pos {s : Setter} {handle : UInt32} {key : CString} (hsize : (Call.set s handle key).valueSize ≤ 4000) :
    1 ≤ (itemSpan s.length).toNat ∧ (itemSpan s.length).toNat ≤ 126 := by
  have hlen := Setter.length_le hsize
  rcases Nat.lt_or_ge 8 s.length.toNat with h8 | h8
  · rw [itemSpan_toNat h8 (by omega)]
    omega
  · rw [itemSpan_small h8]
    decide

section

variable {w : NvsWorld} {s : Store} {st : Setter} {handle : UInt32} {key : CString} {k : ℕ}

/-- A set that is cut off at one of these points leaves the store as it was, or
with the new value in place of the old one. -/
theorem Abs.cut_set (env : Env) (depth : ℕ) (h : Abs w.flash s) (hc : RegularSet w.flash st (nsIndexOf handle) key.bytes)
    (hsize : (Call.set st handle key).valueSize ≤ 4000) (hk : SafeSet w.flash depth st (nsIndexOf handle) key.bytes k) :
    ∃ s', Abs ((st.prog env depth handle key).cut w k) s' ∧ (s'.log = s.log ∨ st.Terminated ∧
      s'.log = (s.log.drop fun e => e.name = (nsIndexOf handle, key.bytes) ∧ e.kind = st.itemType.code).put
        (newRecord (nsIndexOf handle) st.itemType.code key.bytes st.data st.length)) := by
  have hs := h.sound
  have hn := Setter.span_pos hsize
  have hany := st.code_ne_any
  have hkeep : ∀ {g : Flash}, (∃ a u, Sound g a u ∧ SameItems w.flash g) → ∃ s', Abs g s' ∧ (s'.log = s.log ∨
      st.Terminated ∧ s'.log = (s.log.drop fun e => e.name = (nsIndexOf handle, key.bytes) ∧ e.kind = st.itemType.code).put
        (newRecord (nsIndexOf handle) st.itemType.code key.bytes st.data st.length)) := by
    rintro g ⟨a, u, hg, hsame⟩
    refine ⟨_, hg.abs, .inl ?_⟩
    rw [h.log, ← hsame.logOf_same hs.packed]
  -- the steps of `eraseOldItem`, which may be cut off before the old block goes
  obtain ⟨E, w₁, herase, hE, hcutE, hskip⟩ : ∃ E w₁, Emits (eraseOldItem (nsIndexOf handle) st.itemType.code key.bytes) w E
      (.ok (), w₁) ∧ E.length = eraseSteps w.flash (nsIndexOf handle) st.itemType.code key.bytes ∧
      (BeforeErase w.flash (nsIndexOf handle) st.itemType.code key.bytes k → E = [] ∨ k ≤ E.length ∧
        ∃ a u, Sound (applyOps w.flash (E.take k)) a u ∧ SameItems w.flash (applyOps w.flash (E.take k))) ∧
      (E = [] → w₁ = w) := by
    rw [eraseSteps]
    split_ifs with hno
    · exact ⟨[], w, emits_eraseOldItem_noHit hno, rfl, fun _ => .inl rfl, fun _ => rfl⟩
    · obtain ⟨q, hq, i, hi, hw, hhit⟩ : ∃ q < 8, ∃ i < 126, entryAt w.flash q i = .written ∧
          Hit w.flash (nsIndexOf handle) st.itemType.code key.bytes q i := by
        simpa [NoHit] using hno
      have ho : Old w.flash (nsIndexOf handle) st.itemType.code key.bytes q i := ⟨hc.clear q hq i hi hw hhit, hhit⟩
      obtain ⟨T, hm, hemits⟩ := emits_eraseOldItem hs.packed hs.distinct hc.clear hany hq ho
      refine ⟨_, _, hemits, by simp [eraseOps], fun hb => .inr ?_, fun h => by cases h⟩
      have hk := hb q hq i hi ho
      exact ⟨by simp [eraseOps]; omega, _, _, hs.take_eraseOps hany hq ho hm hk⟩
  have he := wp_ok (wp_eraseOldItem (E := fun _ _ => True) hs.packed hc.clear) herase.run
  have hs₁ := he.removes.sound hs
  have hroom := hc.room.congr hs hs₁ he.removes.state
  have hw₁ := herase.flash
  rw [Setter.prog_eq, nvsSetValue]
  cases depth with
  | zero =>
    have hall : Emits (do
        eraseOldItem (nsIndexOf handle) st.itemType.code key.bytes
        return .code (← writeItem env 0 (nsIndexOf handle) st.itemType.code key.bytes st.data st.length 0xff) : NvsM Reply)
        w (E ++ []) (.error .stack, w₁) := herase.bind (Emits.fail _ _).bind_error
    rw [hall.cut, List.append_nil]
    obtain ⟨hb, -⟩ | ⟨hd, -⟩ := hk
    · rcases hcutE hb with rfl | ⟨-, hsafe⟩
      · rw [List.take_nil]
        exact hkeep ⟨_, _, hs, .refl _⟩
      · exact hkeep hsafe
    · exact absurd rfl hd
  | succ depth =>
    obtain ⟨p, t, T, r, hplace, ht4, htn, hprep, hT, hwrite⟩ := emits_writeItem st.data env depth (nsIndexOf handle)
      st.itemType.code key.bytes hs₁ hroom hn
    obtain ⟨r', hreply⟩ := hwrite.bind_pure Reply.code
    rw [(herase.bind hreply).cut]
    have hP : (prepOps w₁.flash st.length).length = prepSteps w.flash st.length := by
      rw [length_prepOps, hs₁.prepSteps_eq, hs.prepSteps_eq, he.removes.state _ hs.ordered.lt]
    obtain ⟨hb, hle⟩ | ⟨-, hterm, hge⟩ := hk
    · rcases hcutE hb with rfl | ⟨hkE, hsafe⟩
      · obtain rfl := hskip rfl
        rw [List.nil_append, List.take_append_of_le_length (by rw [hP]; simpa [← hE] using hle)]
        exact hkeep (hs.take_prepOps hc.room k)
      · rw [List.take_append_of_le_length hkE]
        exact hkeep hsafe
    · rw [applyOps_take_append _ _ _ (by omega), ← hw₁, applyOps_take_append _ _ _ (by omega), take_storeOps]
      all_goals
        rw [hs.storeSteps_eq hn.1 hplace] at hge
      · have hput : ∀ m, (t + (itemSpan st.length).toNat - 1) / 16 < m → m ≤ 8 →
            PutValue w₁.flash (storedFlash (applyOps w₁.flash (prepOps w₁.flash st.length)) p t
              (newItem (nsIndexOf handle) st.itemType.code key.bytes st.data st.length 0xff) (payload st.data st.length) T m)
              p t (nsIndexOf handle) st.itemType.code key.bytes st.data st.length :=
          fun m hm hm8 => hprep.put hs₁.packed hn.1 ht4 htn rfl hc.fits hT hm hm8
        exact ⟨_, (hput _ (by omega) (by omega)).abs (he.abs h hany) key.nul_free (he.freeName hs.packed hc.unshared),
          .inr ⟨hterm, rfl⟩⟩
      · omega

end

/-! ### Runs with power cuts -/

/-- Where power may be lost: inside a set at a safe point, else between two calls. -/
def SafeCut (depth : ℕ) (w : NvsWorld) : Call → ℕ → Prop
  | .set s handle key, k => (Call.set s handle key).valueSize ≤ 4000 ∧
      SafeSet w.flash depth s (nsIndexOf handle) key.bytes k
  | _, k => k = 0

variable {env : Env} {w w' : NvsWorld} {s : Store}

theorem Refines.cut (h : Refines w s) {c : Call} {depth k : ℕ} (hc : Faithful env w c) (hk : SafeCut depth w c k) :
    ∃ s', Refines (powerOn ((c.prog env depth).cut w k)) s' := by
  cases c with
  | set st handle key =>
    obtain ⟨s', habs, -⟩ := h.abs.cut_set env depth hc.1 hk.1 hk.2
    exact ⟨s', refines_powerOn habs⟩
  | _ =>
    obtain rfl := hk
    exact ⟨s, refines_powerOn h.abs⟩

/-- In every run of faithful calls with safe power cuts the flash holds a store. -/
theorem Reach.refines_cut (hw : Reach env (Faithful env) SafeCut w) : ∃ s, Refines w s :=
  hw.invariant (I := fun w => ∃ s, Refines w s) (fun _ hf => ⟨_, refines_powerOn hf.abs⟩)
    (fun _ _ _ _ _ h hc hr => ⟨_, (wp_ok (call_refines env _ h.choose_spec hc) hr).2⟩)
    fun _ _ _ _ h hc hk => h.choose_spec.cut hc hk

/-! ### The answers after a cut -/

theorem Refines.get (h : Refines w s) {g : Getter} {handle : UInt32} {key : CString} (hc : Faithful env w (.get g handle key)) :
    ((g.prog env handle key).run w).1 = g.read (s.log.lookup (nsIndexOf handle, key.bytes)) := h.run hc 0

/-- Records of the name have the one type its blocks have. -/
theorem Abs.kind_of_oneType (h : Abs f s) {nsIndex datatype : UInt8} {key : List UInt8} (ht : OneType f nsIndex datatype key) :
    ∀ e ∈ s.log, e.name = (nsIndex, key) → e.kind = datatype := by
  intro e he hname
  rw [h.log] at he
  obtain ⟨p, hp, i, hi, rfl⟩ := mem_logOf.1 he
  have hnamed := name_recordAt.1 hname
  exact ht p hp i hi.1 ⟨hp, hi.1, h.sound.ordered.pageLive hp hi, hi.2.1, hnamed, .inr (h.sound.packed.chunk p hp i hi)⟩

/-- The new record is found once the old one of the name is dropped. -/
theorem lookup_put_drop {l : Records} {name : UInt8 × List UInt8} {kind : UInt8} {e : Record} (he : e.name = name)
    (hk : ∀ x ∈ l, x.name = name → x.kind = kind) :
    ((l.drop fun x => x.name = name ∧ x.kind = kind).put e).lookup name = some e := by
  have hnone : (l.drop fun x => x.name = name ∧ x.kind = kind).lookup name = none := by
    rw [Log.lookup_eq_none]
    intro x hx hn
    obtain ⟨hmem, hno⟩ := Log.mem_drop.1 hx
    exact hno ⟨hn, hk x hmem hn⟩
  rw [Log.lookup_put, hnone, if_pos he, Option.none_or]

theorem newRecord_name (nsIndex datatype : UInt8) {key : List UInt8} (hkey : key.length ≤ 15) (data : Option (List UInt8))
    (length : UInt32) : (newRecord nsIndex datatype key data length).name = (nsIndex, key) := by
  rw [newRecord, List.take_of_length_le hkey]

/-- A block that was stored takes at most 32 entries. -/
theorem Store.log_put {depth n : ℕ} {e : Record} (hr : (s.put depth n e).1 = .ok espOk) :
    n ≤ 32 ∧ (s.put depth n e).2.log = s.log.put e := by
  have hfull : espErrNvsNoFreePages ≠ espOk := by decide
  unfold Store.put at hr ⊢
  split_ifs at hr ⊢
  · exact ⟨by omega, rfl⟩
  · exact ⟨by assumption, rfl⟩
  · exact absurd (Except.ok.inj hr) hfull

/-- What a set that returns `ESP_OK` leaves in the log. -/
theorem Store.log_set {depth : ℕ} {st : Setter} {handle : UInt32} {key : CString} {r : Reply}
    (hr : (s.step depth (.set st handle key)).1 = .ok r) (hok : r.err = espOk) :
    (itemSpan st.length).toNat ≤ 32 ∧ (s.step depth (.set st handle key)).2.log =
      (s.log.drop fun e => e.name = (nsIndexOf handle, key.bytes) ∧ e.kind = st.itemType.code).put
        (newRecord (nsIndexOf handle) st.itemType.code key.bytes st.data st.length) := by
  simp only [Store.step] at hr ⊢
  generalize hput : Store.put _ _ _ _ = x at hr ⊢
  rcases x with ⟨e | err, s'⟩
  · cases hr
  · obtain rfl : Reply.code err = r := Except.ok.inj hr
    obtain rfl : err = espOk := hok
    have hlog := Store.log_put (congrArg Prod.fst hput)
    rwa [hput] at hlog

/-- The matching getter reads back what was stored, unless it is a string whose
terminator is out of reach. -/
theorem read_terminated {st : Setter} {bs : List UInt8} (hv : st.Carries bs) (ht : st.Terminated)
    {handle : UInt32} {key : CString} (hsize : (Call.set st handle key).valueSize ≤ 4000) (nsIndex : UInt8) (k : List UInt8) :
    st.getter.read (some (newRecord nsIndex st.itemType.code k st.data st.length)) = .ok (st.echo bs) := by
  have hlen := hv.length
  have hdata := hv.data
  cases st with
  | scalar kind value =>
    refine read_newRecord hv ?_ nsIndex k
    rw [← hlen, Setter.length]
    cases kind <;> decide
  | str value =>
    refine read_newRecord hv ?_ nsIndex k
    obtain rfl : value.bytes ++ [0] = bs := Option.some.inj hdata
    rw [Setter.Terminated] at ht
    rw [List.length_append, List.length_singleton]
    exact ht
  | blob value length =>
    obtain rfl : value = some bs := hdata
    rw [Call.valueSize] at hsize
    rw [Setter.length] at hlen
    obtain rfl : length = .ofNat bs.length := UInt32.toNat.inj (by rw [hlen, toNat_ofNat_of_le (by omega)])
    have htake := take_dataArea hlen (by omega)
    have hmin : min (UInt32.ofNat (dataArea (some bs) (.ofNat bs.length)).length) (.ofNat bs.length) = .ofNat bs.length := by
      have h8136 : bs.length ≤ 8136 := by omega
      obtain ⟨hle, hmax, -⟩ := length_dataArea_eq_iff h8136
      refine UInt32.toNat.inj ?_
      rw [toNat_min, UInt32.toNat_ofNat', Nat.mod_eq_of_lt (by omega), toNat_ofNat_of_le (by omega), Nat.min_eq_right hle]
    rw [Setter.getter, newRecord, Setter.data, Setter.length, Setter.itemType, read_blob]
    simp only [hmin]
    rw [toNat_ofNat_of_le (by omega), htake]
    rfl

/-- What is asked of a set that was cut off: `w` is the world before it, `w'` the
one after the reboot. Lookups are to be faithful, as all calls of the run. -/
structure Recovers (env : Env) (w w' : NvsWorld) (st : Setter) (bs : List UInt8) (handle : UInt32) (key : CString) : Prop where
  /-- `nvs_flash_init` succeeds and changes nothing. -/
  init : nvsFlashInit.run w' = (.ok (.code espOk), w')
  /-- The key has its old result in all getters, or the new value. -/
  own : (∀ g : Getter, Faithful env w (.get g handle key) → Faithful env w' (.get g handle key) →
      ((g.prog env handle key).run w').1 = ((g.prog env handle key).run w).1) ∨
    (∀ g : Getter, Faithful env w' (.get g handle key) → ((g.prog env handle key).run w').1 =
      g.read (some (newRecord (nsIndexOf handle) st.itemType.code key.bytes st.data st.length))) ∧
    (Faithful env w' (.get st.getter handle key) → ((st.getter.prog env handle key).run w').1 = .ok (st.echo bs))
  /-- Other keys have their old results. -/
  others : ∀ (g : Getter) (handle' : UInt32) (key' : CString),
    (nsIndexOf handle', key'.bytes) ≠ (nsIndexOf handle, key.bytes) → Faithful env w (.get g handle' key') →
      Faithful env w' (.get g handle' key') → ((g.prog env handle' key').run w').1 = ((g.prog env handle' key').run w).1
  /-- A later set is read back. -/
  later : ∀ (st' : Setter) (bs' : List UInt8) (handle' : UInt32) (key' : CString) (depth : ℕ) (r : Reply) (w₁ : NvsWorld),
    st'.Carries bs' → key'.bytes.length ≤ 15 → (Call.set st' handle' key').valueSize ≤ 4000 →
      Faithful env w' (.set st' handle' key') → OneType w'.flash (nsIndexOf handle') st'.itemType.code key'.bytes →
      ((Call.set st' handle' key').prog env depth).run w' = (.ok r, w₁) → r.err = espOk →
      Faithful env w₁ (.get st'.getter handle' key') → ((st'.getter.prog env handle' key').run w₁).1 = .ok (st'.echo bs')

/-- In every run of faithful calls with safe power cuts, a set of the one type of
a key that is cut off at a safe point leaves the old result or the new value, all
other keys as they were, and a store that later sets can be made on. -/
theorem set_survives_cut (hw : Reach env (Faithful env) SafeCut w) {st : Setter} {bs : List UInt8} {handle : UInt32}
    {key : CString} (hkey : 1 ≤ key.bytes.length ∧ key.bytes.length ≤ 15) (hv : st.Carries bs)
    (hsize : (Call.set st handle key).valueSize ≤ 4000) (hc : Faithful env w (.set st handle key))
    (ht : OneType w.flash (nsIndexOf handle) st.itemType.code key.bytes) {depth k : ℕ}
    (hk : SafeSet w.flash depth st (nsIndexOf handle) key.bytes k) :
    Recovers env w (powerOn (((Call.set st handle key).prog env depth).cut w k)) st bs handle key := by
  obtain ⟨s, h⟩ := hw.refines_cut
  obtain ⟨s', habs, hlog⟩ := h.abs.cut_set env depth hc.1 hsize hk
  have h' : Refines (powerOn (((Call.set st handle key).prog env depth).cut w k)) s' := refines_powerOn habs
  have hname := newRecord_name (nsIndexOf handle) st.itemType.code hkey.2 st.data st.length
  refine ⟨run_flashInit habs.sound, ?_, fun g handle' key' hne hg hg' => ?_,
    fun st' bs' handle' key' depth' r w₁ hv' hkey' hsize' hc' ht' hr hok hg => ?_⟩
  · rcases hlog with hlog | ⟨hterm, hlog⟩
    · refine .inl fun g hg hg' => ?_
      rw [h.get hg, h'.get hg', hlog]
    · have hfound := lookup_put_drop hname (h.abs.kind_of_oneType ht)
      have hread : ∀ g : Getter, Faithful env _ (.get g handle key) → _ := fun g hg => by
        have hanswer := h'.get hg
        rw [hlog, hfound] at hanswer
        exact hanswer
      exact .inr ⟨hread, fun hg => (hread _ hg).trans (read_terminated hv hterm hsize _ _)⟩
  · rw [h.get hg, h'.get hg']
    rcases hlog with hlog | ⟨-, hlog⟩
    · rw [hlog]
    · rw [hlog, Log.lookup_put_other _ (by rw [hname]; exact hne.symm), Log.lookup_drop_other]
      rintro e - hn ⟨hn', -⟩
      exact hne (hn.symm.trans hn')
  · obtain ⟨hstep, hnext⟩ := wp_ok (call_refines env depth' h' hc') hr
    obtain ⟨hspan, hlog'⟩ := Store.log_set hstep hok
    rw [hnext.get hg, hlog', lookup_put_drop (newRecord_name _ _ hkey' _ _) (habs.kind_of_oneType ht')]
    exact read_newRecord hv' (hv'.length_le hsize' hspan) _ _

theorem set_survives_cut_factory :
    Recovers (.built []) factory (powerOn (((Call.set (.scalar .u8 7#8) 10 keyA).prog (.built []) 1).cut factory 2))
      (.scalar .u8 7#8) [7] 10 keyA :=
  set_survives_cut reach_factory (by decide) ⟨rfl, rfl⟩ (by decide)
    (refines_factory.faithful (.built []) (c := .set (.scalar .u8 7#8) 10 keyA) (by decide))
    (refines_factory.abs.oneType (by decide) (by decide)) (k := 2) (by decide +kernel)

/-- Cut off after the dirty mark and the table word of the old value, a set leaves
neither the old value nor the new one. -/
theorem set_cut_loses :
    let l := calls (.built []) [(1, .set (.scalar .u8 7#8) 10 keyA)] factory
    let w := powerOn (((Call.set (.scalar .u8 8#8) 10 keyA).prog (.built []) 1).cut l.2 2)
    l.1 = [.ok (.code espOk)] ∧
      (((Getter.scalar .u8).prog (.built []) 10 keyA).run l.2).1 = .ok ⟨espOk, some [7], none, none⟩ ∧
      (nvsFlashInit.run w).1 = .ok (.code espOk) ∧
      (((Getter.scalar .u8).prog (.built []) 10 keyA).run (nvsFlashInit.run w).2).1 = .ok (.code espErrNvsNotFound) := by
  decide +kernel

end Esp8266Sdk.Nvs
