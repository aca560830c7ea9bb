import Esp8266Sdk.Nvs.Frame
import Esp8266Sdk.Nvs.RoundTrip

/-! Names of any length. A key is cut to 15 bytes when it is stored, and compared
as a whole when it is looked up or erased: an accepted name holds its entry if
and only if nothing was cut off. -/

namespace Esp8266Sdk.Nvs

open Nor Prog Kv

/-- The namespace, type and key of the entry that a call stores or finds. The
name "phy" stands for the registry itself. -/
def Call.binds : Call → Option (UInt8 × UInt8 × CString)
  | .open name => if name.bytes = phyName then none else some (0, ItemType.u8.code, name)
  | .set s handle key => some (nsIndexOf handle, s.itemType.code, key)
  | _ => none

/-- The name that a call looks up, stores or erases. -/
def Call.names : Call → Option (UInt8 × List UInt8)
  | .open name => if name.bytes = phyName then none else some (0, name.bytes)
  | .get _ handle key | .set _ handle key | .eraseKey handle key => some (nsIndexOf handle, key.bytes)
  | _ => none

variable {env : Env} {w w' : NvsWorld} {nsIndex datatype : UInt8} {key : CString} {p t : ℕ}

/-- Entry `t` of page `p` starts the one item of the name. -/
structure Held (env : Env) (w : NvsWorld) (nsIndex datatype : UInt8) (key : CString) (p t : ℕ) : Prop where
  page : p < 8
  head : Head w.flash p t
  /-- A lookup of the name finds it. -/
  found : ∃ r w₁, (findItem env nsIndex datatype key.bytes 0xff).run w = (.ok r, w₁) ∧ r.err = espOk ∧
    r.item = itemAt w.flash p t ∧ r.pageAddr = base p ∧ r.entryIdx = t
  /-- There is no second one. -/
  single : ∀ q < 8, ∀ j, Head w.flash q j → (itemAt w.flash q j).named nsIndex (itemAt w.flash p t).keyString →
    (itemAt w.flash q j).datatype = datatype → q = p ∧ j = t
  /-- Erasing the key removes it. -/
  erased : ∀ handle, nsIndexOf handle = nsIndex → Faithful env w (.eraseKey handle key) →
    ∃ w₁, (nvsEraseKey handle key).run w = (.ok (.code espOk), w₁) ∧ entryAt w₁.flash p t = .erased
  /-- No lookup of another name reads it. -/
  unread : ∀ nsIndex' datatype', ∀ key' : CString, datatype' ≠ ItemType.any.code → (nsIndex', key'.bytes) ≠ (nsIndex, key.bytes) →
    ∀ r w₁, (findItem env nsIndex' datatype' key'.bytes 0xff).run w = (.ok r, w₁) → (r.pageAddr, r.entryIdx) ≠ (base p, t)
  /-- No call of another name overwrites or erases it. -/
  kept : ∀ c, Faithful env w c → ∀ n, c.names = some n → n ≠ (nsIndex, key.bytes) → ∀ depth,
    Head ((c.prog env depth).run w).2.flash p t ∧ recordAt ((c.prog env depth).run w).2.flash p t = recordAt w.flash p t

/-! ### Stored names are short -/

/-- All names in the store are cut. -/
def Store.Short (s : Store) : Prop := ∀ e ∈ s.log, e.name.2.length ≤ 15

namespace Store.Short

variable {s : Store} (h : s.Short)
include h

theorem put {e : Record} (he : e.name.2.length ≤ 15) (depth n : ℕ) : (s.put depth n e).2.Short := by
  have hput : ∀ x ∈ s.log.put e, x.name.2.length ≤ 15 := by
    intro x hx
    rcases Log.mem_put.1 hx with hx | rfl
    · exact h x hx
    · exact he
  unfold Store.put
  split_ifs <;> first | exact h | exact hput

theorem drop (P : Record → Prop) [DecidablePred P] : (s.drop P).Short := fun e he => h e (Log.mem_drop.1 he).1

theorem step (depth : ℕ) (c : Call) : (s.step depth c).2.Short := by
  have hrecord : ∀ nsIndex datatype k data length, (newRecord nsIndex datatype k data length).name.2.length ≤ 15 :=
    fun _ _ k _ _ => List.length_take_le 15 k
  cases c with
  | flashErase => exact fun e he => absurd he List.not_mem_nil
  | «open» name =>
    simp only [Store.step]
    split_ifs
    · exact h
    · split
      · exact h
      · exact h.put (hrecord _ _ _ _ _) depth 1
  | set st handle key => exact (h.drop _).put (hrecord _ _ _ _ _) depth _
  | eraseKey handle key => exact h.drop _
  | eraseAll handle => exact h.drop _
  | _ => exact h

end Store.Short

/-- In every run of faithful calls the flash holds a store of cut names. -/
theorem Reach.short (hw : Reach env (Faithful env) noCut w) : ∃ s, Refines w s ∧ s.Short := by
  refine hw.invariant (I := fun w => ∃ s, Refines w s ∧ s.Short)
    (fun f hf => ⟨_, refines_powerOn hf.abs, fun e he => absurd he List.not_mem_nil⟩)
    (fun w c depth r w' ⟨s, h, hs⟩ hc hr => ?_) fun _ _ _ _ _ _ h => h.elim
  exact ⟨_, (wp_ok (call_refines env depth h hc) hr).2, hs.step depth c⟩

/-! ### The entry of an accepted name -/

/-- A block that a lookup of its name answers. -/
structure Answers (env : Env) (w : NvsWorld) (nsIndex datatype : UInt8) (k : List UInt8) (p t : ℕ) : Prop where
  page : p < 8
  head : Head w.flash p t
  named : (itemAt w.flash p t).named nsIndex k
  typed : (itemAt w.flash p t).datatype = datatype
  lookup : (lookup env w nsIndex datatype k 0xff).1 = answer w.flash datatype p t

/-- An accepted `nvs_open` of a name that is not cut. -/
theorem wp_open_answers {E : Defect → NvsWorld → Prop} {s : Store} (h : Refines w s) (henv : env.cached = true)
    (hphy : key.bytes ≠ phyName) (hc : Faithful env w (.open key)) (hkey : key.bytes.length ≤ 15) (depth : ℕ)
    (hE : ∀ e w', E e w') :
    wp (fun _ _ => True) (fun r w' => r.err = espOk → ∃ p t, Answers env w' 0 ItemType.u8.code key.bytes p t) E
      (nvsOpen env depth key) w := by
  have hs := h.abs.sound
  have hu8 : ItemType.u8.code ≠ ItemType.any.code := by decide
  obtain ⟨hlook, hnew⟩ := hc hphy
  rw [nvsOpen, if_neg hphy, wp_bind, wp_findItem]
  split_ifs with he
  · -- the name is found, and found again
    rw [wp_pure]
    intro _
    have hfound := (lookup_regular env hs h.cache hu8 hlook).1
    cases hfirst : firstHead w.flash 0 key.bytes with
    | none =>
      rw [hfound, hfirst] at he
      exact absurd he (by decide : notFound.err ≠ espOk)
    | some x =>
      obtain ⟨hp, hhead, hnamed⟩ := firstHead_some hfirst
      rw [hfirst, foundAt] at hfound
      refine ⟨x.1, x.2, hp, hhead, hnamed, ?_, (lookup_twice ..).trans hfound⟩
      by_contra hne
      rw [hfound, answer, if_neg fun ht => hne ((typed_iff hu8).1 ht)] at he
      exact absurd he (by decide : espErrNvsTypeMismatch ≠ espOk)
  · obtain ⟨hfree, hroom⟩ := hnew he
    simp only [wp_bind]
    refine wp_mono (wp_writeItem_sound env depth (w := ⟨w.flash, _⟩) hs hroom (fits_of_le _ (by decide))) (fun _ _ h => h) ?_
      fun _ _ _ => hE _ _
    rintro err w' ⟨-, hw⟩
    cases hw with
    | stored hplace hwords put ram =>
      rw [if_pos rfl, wp_pure]
      intro _
      obtain ⟨hp, hhead, hnamed, htype, hlookup⟩ := PutValue.lookup put hs henv key.nul_free hkey ram
      exact ⟨_, _, hp, hhead, hnamed, htype, hlookup⟩
    | noRoom hspan prepared ram => exact absurd (by decide) hspan

/-- An accepted call of a name that is not cut leaves a block that answers it. -/
theorem answers_of_ok {s : Store} (h : Refines w s) (henv : env.cached = true) {c : Call} (hc : Faithful env w c)
    (hb : c.binds = some (nsIndex, datatype, key)) (hkey : key.bytes.length ≤ 15) {depth : ℕ} {r : Reply}
    (hr : (c.prog env depth).run w = (.ok r, w')) (hok : r.err = espOk) :
    ∃ p t, Answers env w' nsIndex datatype key.bytes p t := by
  cases c with
  | «open» name =>
    simp only [Call.binds, Option.ite_none_left_eq_some, Option.some.injEq, Prod.mk.injEq] at hb
    obtain ⟨hphy, rfl, rfl, rfl⟩ := hb
    exact wp_ok (wp_open_answers h henv hphy hc hkey depth fun _ _ => trivial) hr hok
  | set st handle k =>
    cases hb
    obtain ⟨-, -, w₂, p, t, -, hs₂, hput, hram⟩ := set_stored h.abs.sound hc.1 hr hok
    obtain ⟨hp, hhead, hnamed, htype, hlookup⟩ := PutValue.lookup hput hs₂ henv key.nul_free hkey hram
    exact ⟨p, t, hp, hhead, hnamed, htype, hlookup⟩
  | _ => cases hb

/-! ### Calls of other names -/

/-- The block stays as it is. -/
def Stays (f g : Flash) (p t : ℕ) : Prop := Head g p t ∧ recordAt g p t = recordAt f p t

theorem Removes.stays {f g : Flash} {R : ℕ → ℕ → Prop} (r : Removes f g R) (hf : Packed f) (hp : p < 8) (hhead : Head f p t)
    (hk : ¬ R p t) : Stays f g p t :=
  ⟨(r.erases.head_iff hf hp).2 ⟨hhead, hk⟩, r.erases.recordAt hf hp hhead⟩

/-- `writeItem` leaves the blocks stored before. -/
theorem wp_writeItem_stays (depth : ℕ) {a u : ℕ} (h : Sound w.flash a u) {k : List UInt8} {data : Option (List UInt8)}
    {length : UInt32} (hr : RoomOk w.flash length) (hfit : Fits data length) (hp : p < 8) (hhead : Head w.flash p t) :
    wp (fun _ _ => True) (fun _ w' => Stays w.flash w'.flash p t) (fun _ w' => Stays w.flash w'.flash p t)
      (writeItem env depth nsIndex datatype k data length 0xff) w := by
  have hput : ∀ {g : Flash} {q j : ℕ}, PutValue w.flash g q j nsIndex datatype k data length → Stays w.flash g p t := by
    intro g q j put
    have hold := Put.head_old put h.packed hp hhead
    exact ⟨hold.1, hold.2.1⟩
  refine wp_mono (wp_writeItem_sound env depth h hr hfit) (fun _ _ h => h) ?_ ?_
  · rintro err w' ⟨-, hw⟩
    cases hw with
    | stored hplace hwords put ram => exact hput put
    | noRoom hspan prepared ram =>
      exact ⟨(prepared.same.head_same h.packed hp).2 hhead, prepared.same.recordAt h.packed hp hhead⟩
  · intro err w' hw
    cases hw with
    | stack hdepth same =>
      rw [same]
      exact ⟨hhead, rfl⟩
    | index hplace hdepth hn htn hwords put ram => exact hput put

/-- A faithful call of another name leaves the block. -/
theorem call_stays {s : Store} (h : Refines w s) {c : Call} (hc : Faithful env w c) {n : UInt8 × List UInt8}
    (hn : c.names = some n) (hp : p < 8) (hhead : Head w.flash p t) (hne : ¬ (itemAt w.flash p t).named n.1 n.2) (depth : ℕ) :
    Stays w.flash ((c.prog env depth).run w).2.flash p t := by
  have hs := h.abs.sound
  have hself : Stays w.flash w.flash p t := ⟨hhead, rfl⟩
  apply run_snd (G := fun _ _ => True) (I := fun w' => Stays w.flash w'.flash p t)
  cases c with
  | «open» name =>
    rw [Call.prog, nvsOpen]
    split_ifs with hphy
    · exact hself
    · rw [wp_bind, wp_findItem]
      split_ifs with he
      · exact hself
      · obtain ⟨-, hroom⟩ := (hc hphy).2 he
        simp only [wp_bind]
        refine wp_mono (wp_writeItem_stays depth (w := ⟨w.flash, (lookup env w 0 ItemType.u8.code name.bytes 0xff).2⟩) hs hroom (fits_of_le _ (by decide)) hp hhead)
          (fun _ _ h => h) (fun err w' h => ?_) fun _ _ h => h
        split_ifs <;> exact h
  | get g handle k =>
    rw [Call.prog, wp_getter]
    split <;> exact hself
  | set st handle k =>
    cases hn
    rw [Call.prog, Setter.prog_eq, nvsSetValue, wp_bind]
    refine wp_post (wp_eraseOldItem hs.packed hc.1.clear) fun _ w₁ hold => ?_
    have hstays := hold.removes.stays hs.packed hp hhead fun h => hne h.2.1
    have hs₁ := hold.removes.sound hs
    rw [wp_bind]
    refine wp_mono (wp_writeItem_stays depth hs₁ (hc.1.room.congr hs hs₁ hold.removes.state) hc.1.fits hp hstays.1)
      (fun _ _ h => h) (fun _ _ h => ⟨h.1, h.2.trans hstays.2⟩) fun _ _ h => ⟨h.1, h.2.trans hstays.2⟩
  | eraseKey handle k =>
    cases hn
    rw [Call.prog, nvsEraseKey, wp_bind]
    exact wp_post (wp_eraseOldItem hs.packed hc) fun _ w₁ hold => hold.removes.stays hs.packed hp hhead fun h => hne h.2.1
  | _ => cases hn

/-! ### The condition -/

/-- The slots that the cache answers from, and the scan, are slots of pages. -/
theorem named_of_lookup {s : Store} (h : Refines w s) {k : List UInt8} (hd : datatype ≠ ItemType.any.code) {q j : ℕ}
    (hj : j < 126) (haddr : (lookup env w nsIndex datatype k 0xff).1.pageAddr = base q)
    (hentry : (lookup env w nsIndex datatype k 0xff).1.entryIdx = j) : (itemAt w.flash q j).named nsIndex k := by
  have hanswer : ∀ {q' j'}, (lookup env w nsIndex datatype k 0xff).1 = answer w.flash datatype q' j' →
      (itemAt w.flash q' j').named nsIndex k → (itemAt w.flash q j).named nsIndex k := by
    intro q' j' he hnamed
    rw [he] at haddr hentry
    obtain rfl := base_inj.1 haddr
    obtain rfl : j' = j := hentry
    exact hnamed
  rcases cachedAt_cases h.abs.sound h.cache env nsIndex k hd with hnone | ⟨p, hp, i, hhead, hnamed, -, hsome⟩
  · cases hscan : scan w.flash nsIndex datatype k 0xff with
    | none =>
      have hzero : 0 ≠ base q := by
        rw [base]
        omega
      rw [lookup, hnone, hscan] at haddr
      exact absurd haddr hzero
    | some r =>
      obtain ⟨q', j', hfirst, rfl⟩ := scan_eq_some_iff.1 hscan
      exact hanswer (by rw [lookup, hnone, hscan]) hfirst.1.2.2.2.2.1
  · exact hanswer (by rw [lookup, hsome]) hnamed

/-- A block that answers its name is held by it. -/
theorem Answers.held {s : Store} (h : Refines w s) (ha : Answers env w nsIndex datatype key.bytes p t) :
    Held env w nsIndex datatype key p t where
  page := ha.page
  head := ha.head
  found := by
    refine ⟨_, _, run_findItem .., ?_, ?_, ?_, ?_⟩ <;> rw [ha.lookup]
    · exact if_pos (.inr ha.typed)
    all_goals rfl
  single := fun q hq j hj hn ht =>
    h.abs.sound.distinct q hq p ha.page j t hj ha.head (hn.1.trans ha.named.1.symm) hn.2 (ht.trans ha.typed.symm)
  erased := by
    rintro handle rfl hc
    have hrun := wp_run (wp_eraseOldItem (E := fun _ _ => False) h.abs.sound.packed hc)
    rcases hr : (eraseOldItem (nsIndexOf handle) ItemType.any.code key.bytes).run w with ⟨e | ⟨⟩, w₁⟩
    · rw [hr] at hrun
      exact hrun.elim
    · rw [hr] at hrun
      have hpos := (h.abs.sound.packed.blocks p ha.page).pos ha.head
      refine ⟨w₁, ?_, hrun.removes.erases.gone p ha.page t t ⟨ha.head, ha.named, .inl rfl⟩ le_rfl (by omega)⟩
      rw [nvsEraseKey, run_bind, hr]
      rfl
  unread := by
    intro nsIndex' datatype' key' hd hne r w₁ hr heq
    rw [run_findItem] at hr
    injection hr with hr
    injection hr with hr
    subst hr
    injection heq with haddr hentry
    have hn := named_of_lookup h hd ha.head.1 haddr hentry
    exact hne (Prod.ext (hn.1.symm.trans ha.named.1) (hn.2.symm.trans ha.named.2))
  kept := fun c hc n hn hne depth => call_stays h hc hn ha.page ha.head
    (fun hnamed => hne (Prod.ext (hnamed.1.symm.trans ha.named.1) (hnamed.2.symm.trans ha.named.2))) depth

/-- Only a name that is not cut holds an entry. -/
theorem Held.length_le {s : Store} (h : Refines w s) (hs : s.Short) (hd : datatype ≠ ItemType.any.code)
    (ht : Held env w nsIndex datatype key p t) : key.bytes.length ≤ 15 := by
  obtain ⟨r, w₁, hr, -, -, haddr, hentry⟩ := ht.found
  rw [run_findItem] at hr
  injection hr with hr
  injection hr with hr
  subst hr
  have hnamed := named_of_lookup h hd ht.head.1 haddr hentry
  have hshort := hs (recordAt w.flash p t) (by rw [h.abs.log]; exact mem_logOf.2 ⟨p, ht.page, t, ht.head, rfl⟩)
  rwa [name_recordAt.2 hnamed] at hshort

theorem Call.binds_ne_any {c : Call} (hb : c.binds = some (nsIndex, datatype, key)) : datatype ≠ ItemType.any.code := by
  have hu8 : ItemType.u8.code ≠ ItemType.any.code := by decide
  cases c with
  | «open» name =>
    simp only [Call.binds, Option.ite_none_left_eq_some, Option.some.injEq, Prod.mk.injEq] at hb
    obtain ⟨-, -, rfl, -⟩ := hb
    exact hu8
  | set st handle k =>
    cases hb
    exact st.code_ne_any
  | _ => cases hb

/-- In every run of faithful calls: an accepted name holds its entry if and only
if it has at most 15 bytes. -/
theorem accepted_held_iff (henv : env.cached = true) (hw : Reach env (Faithful env) noCut w) {c : Call}
    (hc : Faithful env w c) (hb : c.binds = some (nsIndex, datatype, key)) {depth : ℕ} {r : Reply}
    (hr : (c.prog env depth).run w = (.ok r, w')) (hok : r.err = espOk) :
    (∃ p t, Held env w' nsIndex datatype key p t) ↔ key.bytes.length ≤ 15 := by
  obtain ⟨s, h, hs⟩ := hw.short
  have h' := (wp_ok (call_refines env depth h hc) hr).2
  constructor
  · rintro ⟨p, t, ht⟩
    exact ht.length_le h' (hs.step depth c) (Call.binds_ne_any hb)
  · intro hkey
    obtain ⟨p, t, ha⟩ := answers_of_ok h henv hc hb hkey hr hok
    exact ⟨p, t, ha.held h'⟩

theorem accepted_held_iff_factory : ∃ w',
    ((Call.set (.scalar .u8 7#8) 10 keyA).prog (.built []) 1).run factory = (.ok (.code espOk), w') ∧
      ((∃ p t, Held (.built []) w' 10 ItemType.u8.code keyA p t) ↔ keyA.bytes.length ≤ 15) := by
  have hc := refines_factory.faithful (.built []) (c := .set (.scalar .u8 7#8) 10 keyA) (by decide)
  have hr := run_eq ((refines_factory.run hc 1).trans (show _ = Except.ok (.code espOk) by decide))
  exact ⟨_, hr, accepted_held_iff rfl reach_factory hc rfl hr rfl⟩

/-- A key of 16 bytes. -/
def longKey : CString := ⟨List.replicate 16 0x61, by decide⟩

/-- The key of 16 bytes is accepted and not found; its first 15 bytes read the
value. Opening a namespace of this name twice stores two entries. -/
theorem long_name_accepted :
    let w₁ := ((Call.set (.scalar .u8 7#8) 10 longKey).prog (.built []) 1).run factory
    let cut : CString := ⟨List.replicate 15 0x61, by decide⟩
    let l := calls (.built []) [(1, .open longKey), (1, .open longKey)] factory
    w₁.1 = .ok (.code espOk) ∧ (((Getter.scalar .u8).prog (.built []) 10 longKey).run w₁.2).1 = .ok (.code espErrNvsNotFound) ∧
      (((Getter.scalar .u8).prog (.built []) 10 cut).run w₁.2).1 = .ok ⟨espOk, some [7], none, none⟩ ∧
      (l.1 = [.ok ⟨espOk, none, none, some 10⟩, .ok ⟨espOk, none, none, some 10⟩] ∧
        itemAt l.2.flash 0 0 = itemAt l.2.flash 0 1 ∧ entryAt l.2.flash 0 1 = .written) ∧
      ¬ ∃ p t, Held (.built []) w₁.2 10 ItemType.u8.code longKey p t := by
  intro w₁ cut l
  have h : (w₁.1 = .ok (.code espOk) ∧
      (((Getter.scalar .u8).prog (.built []) 10 longKey).run w₁.2).1 = .ok (.code espErrNvsNotFound)) ∧
      (((Getter.scalar .u8).prog (.built []) 10 cut).run w₁.2).1 = .ok ⟨espOk, some [7], none, none⟩ := by decide +kernel
  have hopen : l.1 = [.ok ⟨espOk, none, none, some 10⟩, .ok ⟨espOk, none, none, some 10⟩] ∧
      itemAt l.2.flash 0 0 = itemAt l.2.flash 0 1 ∧ entryAt l.2.flash 0 1 = .written := by decide +kernel
  refine ⟨h.1.1, h.1.2, h.2, hopen, ?_⟩
  rintro ⟨p, t, ht⟩
  obtain ⟨r, w₂, hr, hok, -⟩ := ht.found
  have herr : ((findItem (.built []) 10 ItemType.u8.code longKey.bytes 0xff).run w₁.2).1.map Found.err =
      .ok espErrNvsNotFound := by decide +kernel
  have hne : espOk ≠ espErrNvsNotFound := by decide
  rw [hr, Except.map, hok] at herr
  injection herr with herr
  exact hne herr

end Esp8266Sdk.Nvs
