import Esp8266Sdk.Wear.Requests

/-! Mounting. Whatever point a power cut left the flash at, mounting finds the
position and the data, on a partition that was never used and on one whose copies
of the state were being rewritten. Copying the records of a copy runs out of the
partition when it has 48 sectors or more; the mount then fails, but the copies
are the same by then, and the next one succeeds. -/

namespace Esp8266Sdk.Wear

open Nor Prog Flash

variable {g : Geometry} {n ss : ℕ} {f f' : Flash} {deviceId : UInt32} {turn pos : ℕ} {c : Flash} {w : WlWorld}
  {G : WlWorld → Op → Prop} {E : EspErr → WlWorld → Prop}

/-! ### Rules -/

theorem wp_orElse {Q : Unit → WlWorld → Prop} {p q : WlM Unit} {e : EspErr}
    (h : wp G Q (fun e' w => if e' = e then wp G Q E q w else Q () w) p w) : wp G Q E (orElse p q e) w := by
  induction p generalizing w with
  | ret a => exact h
  | fail e' =>
    rw [orElse]
    by_cases he : e' = e
    · rw [if_pos he]
      exact (if_pos he).mp h
    · rw [if_neg he]
      exact (if_neg he).mp h
  | get k ih => exact ih _ h
  | put s k ih => exact ih h
  | read a m k ih => exact ih _ h
  | step op k ih => exact ⟨h.1, ih h.2⟩

/-- A read that may lie outside the partition. -/
theorem wp_drvRead_any {Q : List UInt8 → WlWorld → Prop} {size a k : ℕ} (hQ : Q (w.flash.read a k) w) (hE : ∀ e, E e w) :
    wp G Q E (drvRead size a k) w := by
  unfold drvRead
  split_ifs
  · exact hE _
  · exact hE _
  · exact hQ

theorem wp_drvWrite_any {Q : Unit → WlWorld → Prop} {size a : ℕ} {bs : List UInt8} (hG : G w (.write a bs))
    (hQ : Q () { w with flash := w.flash.program a bs }) (hE : ∀ e, E e w) : wp G Q E (drvWrite size a bs) w := by
  unfold drvWrite
  split_ifs
  · exact hE _
  · exact hE _
  · exact ⟨hG, hQ⟩

/-! ### The position -/

theorem wp_recoverPos (hg : Fits g n ss) (hs : Settled g n f deviceId turn pos) {b : Bool} {Q : Unit → WlWorld → Prop}
    (hQ : Q () ⟨f, ⟨live n deviceId turn pos 0, b⟩⟩) : wp G Q E (recoverPos g) ⟨f, ⟨stored n deviceId turn, b⟩⟩ := by
  have h1 := hg.first
  have h3 := hg.full
  have hr := hg.records
  have hlt := hg.lt
  have hp := hs.pos_le
  have hmax : (live n deviceId turn 0 0).maxPos.toNat = n + 1 := live_maxPos hg
  rw [live_zero] at hmax
  have hreads : Reads (search (List.range (n + 1)) fun i => (do
      let buf ← drvRead g.fullMemSize (recordAddr g.addrState1 i) wrSize
      return if okBuffSet deviceId i buf then none else some i : WlM (Option ℕ)))
      fun f => (List.range (n + 1)).findSome? fun i =>
        if okBuffSet deviceId i (f.read (recordAddr g.addrState1 i) wrSize) then none else some i := by
    refine Reads.search fun i hi => ?_
    have hi : i < n + 1 := List.mem_range.1 hi
    intro G Q E w
    rw [wp_bind, wp_drvRead (by simp only [recordAddr, stateBytes, wrSize]; omega) hg.small]
    rfl
  have hset (i : ℕ) (hi : f.read (recordAddr g.addrState1 i) wrSize = okBuff deviceId i) :
      okBuffSet deviceId i (f.read (recordAddr g.addrState1 i) wrSize) = true := by
    rw [hi, okBuffSet_okBuff]
  have hunset (i : ℕ) (hi : f.read (recordAddr g.addrState1 i) wrSize = blank wrSize) :
      okBuffSet deviceId i (f.read (recordAddr g.addrState1 i) wrSize) = false := by
    rw [hi, okBuffSet_blank]
  have hfound : ((List.range (n + 1)).findSome? fun i =>
      if okBuffSet deviceId i (f.read (recordAddr g.addrState1 i) wrSize) then none else some i).getD n = pos := by
    have hat (h : f.read (recordAddr g.addrState1 pos) wrSize = blank wrSize) : ((List.range (n + 1)).findSome? fun i =>
        if okBuffSet deviceId i (f.read (recordAddr g.addrState1 i) wrSize) then none else some i) = some pos := by
      refine findSome?_range_eq_some.2 ⟨pos, by omega, ?_, ?_⟩
      · simp [hunset pos h]
      · intro j hj
        simp [hset j (hs.records.set j hj)]
    rcases Nat.lt_or_ge pos n with h | h
    · rw [hat (hs.records.unset pos le_rfl h), Option.getD_some]
    · obtain rfl : pos = n := by omega
      rcases hs.records.last hp with hl | hl
      · rw [hat hl, Option.getD_some]
      · -- the record of the last position is there, its move is not
        have hnone : ((List.range (pos + 1)).findSome? fun i =>
            if okBuffSet deviceId i (f.read (recordAddr g.addrState1 i) wrSize) then none else some i) = none := by
          refine findSome?_range_eq_none.2 fun i hi => ?_
          rcases Nat.lt_or_ge i pos with hlt | hge
          · simp [hset i (hs.records.set i hlt)]
          · obtain rfl : i = pos := by omega
            simp [hset i hl]
        rw [hnone, Option.getD_none]
  have hne : (.ofNat pos : UInt32) ≠ (stored n deviceId turn).maxPos := by
    intro e
    have e := congrArg UInt32.toNat e
    rw [hmax, UInt32.toNat_ofNat_of_lt' (by simp only [UInt32.size]; omega)] at e
    omega
  rw [recoverPos, wp_bind, wp_getState]
  dsimp only
  rw [hmax, wp_bind]
  refine (hreads _ _ _ _).2 ?_
  dsimp only
  rw [show n + 1 - 1 = n from rfl, hfound, if_neg hne, wp_setState]
  exact hQ

/-! ### The second copy -/

/-- The flash is the same below the configuration. -/
def SameState (g : Geometry) (f f' : Flash) : Prop := ∀ x < g.addrCfg, f' x = f x

/-- No record stands behind the first copy, so only what lies behind it can be taken for one, and that goes behind
the second. -/
theorem wp_copyRecords (hg : Fits g n ss) (he : f.read (g.addrState1 + stateBytes) (ss * 4096 - stateBytes) =
      blank (ss * 4096 - stateBytes)) {ram : WlFlash} (hE : ∀ e f', SameState g f f' → E e ⟨f', ram⟩) :
    wp (fun w op => SameState g f (op.apply w.flash)) (fun _ w' => w'.ram = ram ∧ SameState g f w'.flash) E
      (copyRecords g g.addrState1 g.addrState2 deviceId) ⟨f, ram⟩ := by
  have h1 := hg.first
  have h2 := hg.second
  have hc := hg.cfg
  have hr := hg.records
  rw [copyRecords]
  refine wp_range (fun _ _ w' => w'.ram = ram ∧ SameState g f w'.flash) ?_ ⟨rfl, fun _ _ => rfl⟩
  rintro k - _ ⟨f', _⟩ ⟨rfl, hf⟩
  rw [wp_bind]
  refine wp_drvRead_any ?_ fun e => hE e f' hf
  by_cases hset : okBuffSet deviceId k (f'.read (recordAddr g.addrState1 k) wrSize) = true
  · rw [if_pos hset]
    have hk : g.addrCfg ≤ recordAddr g.addrState2 k := by
      by_contra hlt
      have hblank : f'.read (recordAddr g.addrState1 k) wrSize = blank wrSize := by
        have hb := read_eq_blank_iff.1 he
        refine read_eq_blank_iff.2 fun x hx hx' => ?_
        simp only [recordAddr, stateBytes, wrSize] at *
        rw [hf x (by omega), hb x (by omega) (by omega)]
      rw [hblank, okBuffSet_blank] at hset
      exact absurd hset Bool.false_ne_true
    have hf' : SameState g f (f'.program (recordAddr g.addrState2 k) (f'.read (recordAddr g.addrState1 k) wrSize)) :=
      fun x hx => (program_outside (.inl (by omega))).trans (hf x hx)
    exact wp_drvWrite_any hf' ⟨rfl, hf'⟩ fun e => hE e f' hf
  · rw [if_neg hset]
    exact ⟨rfl, hf⟩

theorem Settled.sameState (hg : Fits g n ss) (h : Settled g n f deviceId turn pos) (e : SameState g f f') :
    Settled g n f' deviceId turn pos := by
  have hc := hg.cfg
  have hr := hg.records
  exact h.congr hg fun x _ hx => e x (by omega)

/-- The flash holds the data `c`, and both copies of the state are right. -/
def Steady (g : Geometry) (n : ℕ) (f c : Flash) : Prop :=
  ∃ deviceId turn pos, Settled g n f deviceId turn pos ∧ Same n (view n turn pos f) c

theorem Steady.durable (h : Steady g n f c) : Durable g n ss f c := by
  obtain ⟨deviceId, turn, pos, hs, hc⟩ := h
  exact ⟨deviceId, turn, pos, .inl hs, hc⟩

theorem Up.steady (h : Up g n w c) : Steady g n w.flash c := by
  obtain ⟨deviceId, turn, pos, a, -, -, hs, hc⟩ := h
  exact ⟨deviceId, turn, pos, hs, hc⟩

/-- The second copy is written again from the first. -/
theorem wp_repair (hg : Fits g n ss) (h : Pending g n ss f deviceId turn) (hc : Same n (view n turn 0 f) c) {ram : WlFlash} :
    wp (fun w op => Durable g n ss (op.apply w.flash) c)
      (fun _ w' => w'.ram = ram ∧ Settled g n w'.flash deviceId turn 0 ∧ Same n (view n turn 0 w'.flash) c)
      (fun _ w' => Steady g n w'.flash c) (do
        writeCopy g g.addrState2 (stored n deviceId turn)
        copyRecords g g.addrState1 g.addrState2 deviceId) ⟨f, ram⟩ := by
  have h1 := hg.first
  have h2 := hg.second
  have h3 := hg.full
  have h4 := hg.copies
  have h5 := hg.cfg
  have hr := hg.records
  have hs := h.rewrite hg
  have he := h.erase hg
  have hl : (stored n deviceId turn).encode.length = stateBytes := WlState.length_encode _
  have hc₁ : Same n (view n turn 0 (f.erase g.addrState2 g.stateSize)) c :=
    (view_congr hg.pages fun x hx => erase_outside (.inl (by omega))).trans hc
  have hc₂ : Same n (view n turn 0
      ((f.erase g.addrState2 g.stateSize).program g.addrState2 (stored n deviceId turn).encode)) c :=
    (view_congr hg.pages fun x hx => program_outside (.inl (by omega))).trans hc₁
  have hempty : ((f.erase g.addrState2 g.stateSize).program g.addrState2 (stored n deviceId turn).encode).read
      (g.addrState1 + stateBytes) (ss * 4096 - stateBytes) = blank (ss * 4096 - stateBytes) := by
    rw [read_program_outside (.inl (by rw [stateBytes]; omega)), he.empty]
  rw [wp_bind, wp_writeCopy hg (by omega) (by omega)]
  set f₂ := (f.erase g.addrState2 g.stateSize).program g.addrState2 (stored n deviceId turn).encode
  have hstay {f' : Flash} (e : SameState g f₂ f') : Settled g n f' deviceId turn 0 ∧ Same n (view n turn 0 f') c :=
    ⟨hs.sameState hg e, (view_congr hg.pages fun x hx => e x (by omega)).trans hc₂⟩
  refine ⟨⟨deviceId, turn, 0, .inr ⟨rfl, he⟩, hc₁⟩, ⟨deviceId, turn, 0, .inl hs, hc₂⟩, ?_⟩
  have hfail (e : EspErr) (f' : Flash) (h : SameState g f₂ f') : Steady g n f' c := ⟨deviceId, turn, 0, hstay h⟩
  refine wp_mono (wp_copyRecords hg hempty hfail) ?_ ?_ fun _ _ h => h
  · intro _ _ e
    exact ⟨deviceId, turn, 0, .inl (hstay e).1, (hstay e).2⟩
  · rintro _ w' ⟨hram, e⟩
    exact ⟨hram, hstay e⟩

/-! ### The first mount -/

/-- A partition whose copies of the state are erased. -/
def Fresh (g : Geometry) (f : Flash) : Prop :=
  f.read g.addrState1 stateBytes = blank stateBytes ∧ f.read g.addrState2 stateBytes = blank stateBytes

/-- The flash holds the data `c` or was never mounted and has them behind its first page. -/
def Ready (g : Geometry) (n ss : ℕ) (f c : Flash) : Prop :=
  Durable g n ss f c ∨ Fresh g f ∧ Same n (view n 0 0 f) c

theorem freshState_eq (hg : Fits g n ss) (random : UInt32) : freshState g random = stored n random 0 := by
  have hd : g.flashSize / sectorSize = n := by
    rw [hg.data, sectorSize, Nat.mul_div_cancel _ (by decide)]
  rw [freshState, hd, if_pos (by decide)]
  rfl

theorem wp_initSections (hg : Fits g n ss) (h : Fresh g f) (hc : Same n (view n 0 0 f) c) {random : UInt32} {ram : WlFlash} :
    wp (fun w op => Ready g n ss (op.apply w.flash) c)
      (fun _ w' => w'.ram = { ram with state := stored n random 0 } ∧ Settled g n w'.flash random 0 0 ∧
        Same n (view n 0 0 w'.flash) c) E (initSections g random) ⟨f, ram⟩ := by
  have h1 := hg.first
  have h2 := hg.second
  have h3 := hg.full
  have h4 := hg.copies
  have h5 := hg.cfg
  have h6 := hg.cfgSize
  have hr := hg.records
  have hl : (stored n random 0).encode.length = stateBytes := WlState.length_encode _
  have hpages {f₁ f₂ : Flash} (hc : Same n (view n 0 0 f₁) c) (e : ∀ x < (n + 1) * 4096, f₂ x = f₁ x) :
      Same n (view n 0 0 f₂) c := (view_congr hg.pages e).trans hc
  have hpend : Pending g n ss ((f.erase g.addrState1 g.stateSize).program g.addrState1 (stored n random 0).encode) random 0 :=
    rewrite_first hg hg.pages (.inl h.2)
  have hfresh : Fresh g (f.erase g.addrState1 g.stateSize) :=
    ⟨read_erase_inside le_rfl (by rw [stateBytes]; omega), by rw [read_erase_outside (.inr (by omega)), h.2]⟩
  have hc₁ : Same n (view n 0 0 (f.erase g.addrState1 g.stateSize)) c :=
    hpages hc fun x hx => erase_outside (.inl (by omega))
  have hc₂ : Same n (view n 0 0 ((f.erase g.addrState1 g.stateSize).program g.addrState1 (stored n random 0).encode)) c :=
    hpages hc₁ fun x hx => program_outside (.inl (by omega))
  rw [initSections, freshState_eq hg, writeState]
  simp only [wp_bind]
  rw [wp_setState, wp_writeCopy hg (by omega) (by omega), wp_writeCopy hg (by omega) (by omega)]
  simp only
  set f₂ := (f.erase g.addrState1 g.stateSize).program g.addrState1 (stored n random 0).encode
  have hc₃ : Same n (view n 0 0 (f₂.erase g.addrState2 g.stateSize)) c :=
    hpages hc₂ fun x hx => erase_outside (.inl (by omega))
  have hc₄ : Same n (view n 0 0 ((f₂.erase g.addrState2 g.stateSize).program g.addrState2 (stored n random 0).encode)) c :=
    hpages hc₃ fun x hx => program_outside (.inl (by omega))
  have hs := hpend.rewrite hg
  set f₄ := (f₂.erase g.addrState2 g.stateSize).program g.addrState2 (stored n random 0).encode
  -- the configuration lies behind the state
  have hs₅ : Settled g n (f₄.erase g.addrCfg g.cfgSize) random 0 0 :=
    hs.sameState hg fun x hx => erase_outside (.inl hx)
  have hc₅ : Same n (view n 0 0 (f₄.erase g.addrCfg g.cfgSize)) c :=
    hpages hc₄ fun x hx => erase_outside (.inl (by omega))
  have hs₆ : Settled g n ((f₄.erase g.addrCfg g.cfgSize).program g.addrCfg (configImage g)) random 0 0 :=
    hs₅.sameState hg fun x hx => program_outside (.inl hx)
  have hc₆ : Same n (view n 0 0 ((f₄.erase g.addrCfg g.cfgSize).program g.addrCfg (configImage g))) c :=
    hpages hc₅ fun x hx => program_outside (.inl (by omega))
  have hcfg : (configImage g).length = 48 := rfl
  rw [wp_drvEraseRange (by omega) hg.small (by omega) (by omega), wp_drvWrite (by omega) hg.small]
  have hsettled {f' : Flash} (hs : Settled g n f' random 0 0) (hc : Same n (view n 0 0 f') c) : Ready g n ss f' c :=
    .inl ⟨random, 0, 0, .inl hs, hc⟩
  refine ⟨.inr ⟨hfresh, hc₁⟩, .inl ⟨random, 0, 0, .inr ⟨rfl, hpend⟩, hc₂⟩, .inl ⟨random, 0, 0, .inr ⟨rfl, hpend.erase hg⟩, hc₃⟩,
    hsettled hs hc₄, hsettled hs₅ hc₅, hsettled hs₆ hc₆, rfl, hs₆, hc₆⟩

/-! ### Mounting -/

/-- Only the outcome on the copies counts. -/
theorem wp_init (hg : Fits g n ss) {random : UInt32} {ram : WlFlash} {Q : Unit → WlWorld → Prop}
    (h : wp G (fun _ w => Q () { w with ram := { w.ram with initialized := true } }) E
      (initCopies g random (.decode (f.read g.addrState1 stateBytes)) (.decode (f.read g.addrState2 stateBytes)))
      ⟨f, ⟨.decode (f.read g.addrState1 stateBytes), false⟩⟩) : wp G Q E (init g random) ⟨f, ram⟩ := by
  have h1 := hg.first
  have h2 := hg.second
  have h3 := hg.full
  have hr := hg.records
  unfold init
  simp only [wp_bind]
  change wp _ _ _ (drvRead _ _ _) _
  rw [wp_drvRead (by rw [stateBytes]; omega) hg.small, wp_setState, wp_drvRead (by rw [stateBytes]; omega) hg.small]
  exact h

theorem crcOf_stored : (stored n deviceId turn).crcOf WlState.crcLenV2 = (stored n deviceId turn).crc := WlState.crcOf_sealed _

theorem version_stored : (stored n deviceId turn).version = currentVersion := rfl

theorem wp_init_settled (hg : Fits g n ss) (hs : Settled g n f deviceId turn pos) {random : UInt32} {ram : WlFlash}
    {Q : Unit → WlWorld → Prop} (hQ : Q () ⟨f, ⟨live n deviceId turn pos 0, true⟩⟩) :
    wp G Q E (init g random) ⟨f, ram⟩ := by
  apply wp_init hg
  rw [hs.first, hs.second, WlState.decode_encode]
  unfold initCopies
  rw [if_pos ⟨crcOf_stored, crcOf_stored⟩, if_neg (not_not.2 version_stored), if_neg (not_not.2 rfl)]
  exact wp_recoverPos hg hs hQ

/-- The repair within a mount. -/
theorem wp_repair_bind (hg : Fits g n ss) (h : Pending g n ss f deviceId turn) (hc : Same n (view n turn 0 f) c) {ram : WlFlash}
    {Q : Unit → WlWorld → Prop} {k : WlM Unit} (hG : ∀ w op, Durable g n ss (op.apply w.flash) c → G w op)
    (hE : ∀ e w, Steady g n w.flash c → E e w)
    (hk : ∀ f', Settled g n f' deviceId turn 0 → Same n (view n turn 0 f') c → wp G Q E k ⟨f', ram⟩) :
    wp G Q E (do
      writeCopy g g.addrState2 (stored n deviceId turn)
      copyRecords g g.addrState1 g.addrState2 (stored n deviceId turn).deviceId
      k) ⟨f, ram⟩ := by
  rw [wp_bind]
  refine wp_mono ((wp_bind _ _ _).1 (wp_repair hg h hc)) hG (fun _ w' hw' => ?_) hE
  rw [wp_bind]
  refine wp_mono hw' hG ?_ hE
  rintro _ ⟨f', _⟩ ⟨rfl, hs, hc'⟩
  exact hk f' hs hc'

theorem wp_init_pending (hg : Fits g n ss) (h : Pending g n ss f deviceId turn) (hc : Same n (view n turn 0 f) c)
    {random : UInt32} {ram : WlFlash} :
    wp (fun w op => Durable g n ss (op.apply w.flash) c) (fun _ w' => Up g n w' c) (fun _ w' => Steady g n w'.flash c)
      (init g random) ⟨f, ram⟩ := by
  have h2 := hg.second
  have h3 := hg.full
  have hr := hg.records
  have hup {f' : Flash} (hs : Settled g n f' deviceId turn 0) (hc' : Same n (view n turn 0 f') c) :
      Up g n ⟨f', ⟨live n deviceId turn 0 0, true⟩⟩ c := ⟨deviceId, turn, 0, 0, rfl, by decide, hs, hc'⟩
  rcases h.second with hb | ⟨old, hold, ho⟩
  · -- the second copy is erased
    apply wp_init hg
    rw [h.first, hb, WlState.decode_encode]
    unfold initCopies
    rw [if_neg (fun h => crcOf_blank h.2), if_neg (fun h => h.1 crcOf_stored), if_pos crcOf_stored]
    refine wp_repair_bind hg h hc (fun _ _ h => h) (fun _ _ h => h) fun f' hs hc' => ?_
    rw [wp_bind, wp_drvRead (by rw [stateBytes]; omega) hg.small, hs.second, WlState.decode_encode, wp_bind, wp_setState,
      wp_bind, wp_getState]
    exact hup hs hc'
  · by_cases he : old = turn
    · -- it is the same already
      subst he
      have hs : Settled g n f deviceId old 0 := by
        have h1 := hg.first
        have hrec (i : ℕ) (hi : i ≤ n) : f.read (recordAddr g.addrState1 i) wrSize = blank wrSize :=
          h.records hg (by simp only [recordAddr, stateBytes, wrSize]; omega)
        exact ⟨h.turn_lt, Nat.zero_le n, h.first, ho, fun i hi => absurd hi (Nat.not_lt_zero i), fun i _ hi => hrec i hi.le,
          fun _ => .inl (hrec n le_rfl)⟩
      exact wp_init_settled hg hs (hup hs hc)
    · have hlt := hg.lt
      have ht := h.turn_lt
      have hne : (.ofNat turn : UInt32) ≠ .ofNat old := by
        intro e
        have e := congrArg UInt32.toNat e
        rw [UInt32.toNat_ofNat_of_lt' (by simp only [UInt32.size]; omega),
          UInt32.toNat_ofNat_of_lt' (by simp only [UInt32.size]; omega)] at e
        exact he e.symm
      apply wp_init hg
      rw [h.first, ho, WlState.decode_encode, WlState.decode_encode]
      unfold initCopies
      rw [if_pos ⟨crcOf_stored, crcOf_stored⟩, if_neg (not_not.2 version_stored), if_pos (crc_stored_ne hne)]
      refine wp_repair_bind hg h hc (fun _ _ h => h) (fun _ _ h => h) fun f' hs hc' => ?_
      exact wp_recoverPos hg hs (hup hs hc')

theorem wp_init_fresh (hg : Fits g n ss) (h : Fresh g f) (hc : Same n (view n 0 0 f) c) {random : UInt32} {ram : WlFlash} :
    wp (fun w op => Ready g n ss (op.apply w.flash) c) (fun _ w' => Stands g n w' c random 0 0 0) (fun _ _ => False)
      (init g random) ⟨f, ram⟩ := by
  have h2 := hg.second
  have h3 := hg.full
  have hr := hg.records
  have hv : (WlState.decode (blank stateBytes)).version ≠ 1 := by decide
  apply wp_init hg
  rw [h.1, h.2]
  unfold initCopies
  rw [if_neg (fun h => crcOf_blank h.1), if_pos ⟨crcOf_blank, crcOf_blank⟩, wp_bind]
  apply wp_orElse
  rw [updateV1V2, wp_bind, wp_getState, wp_bind, wp_drvRead (by rw [stateBytes]; omega) hg.small]
  dsimp only
  rw [if_neg (fun h => hv h.2.2.2.1), wp_fail, if_pos rfl]
  refine wp_post (wp_initSections hg h hc) ?_
  rintro _ ⟨f', _⟩ ⟨rfl, hs, hc'⟩
  exact wp_recoverPos hg hs ⟨rfl, by decide, hs, hc'⟩

/-- Mounting finds the data. Where it fails, the copies of the state are the same. -/
theorem wp_init_ready (hg : Fits g n ss) (h : Ready g n ss f c) {random : UInt32} {ram : WlFlash} :
    wp (fun w op => Ready g n ss (op.apply w.flash) c) (fun _ w' => Up g n w' c) (fun _ w' => Steady g n w'.flash c)
      (init g random) ⟨f, ram⟩ := by
  rcases h with ⟨deviceId, turn, pos, hs | ⟨rfl, hp⟩, hc⟩ | ⟨hf, hc⟩
  · exact wp_init_settled hg hs ⟨deviceId, turn, pos, 0, rfl, by decide, hs, hc⟩
  · exact wp_mono (wp_init_pending hg hp hc) (fun _ _ h => .inl h) (fun _ _ h => h) fun _ _ h => h
  · exact wp_mono (wp_init_fresh hg hf hc) (fun _ _ h => h) (fun _ _ h => ⟨random, 0, 0, 0, h⟩) fun _ _ h => h.elim

end Esp8266Sdk.Wear
