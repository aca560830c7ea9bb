import Esp8266Sdk.Wear.View

/-! Access to a mounted store. Every function keeps the invariant, does to the data
what its name says and nothing else, and whatever flash step it is cut behind, the
flash still holds the data, unless the first copy of the state is erased. -/

namespace Esp8266Sdk.Wear

open Nor Prog Flash

variable {g : Geometry} {n ss : ℕ} {f f' : Flash} {deviceId : UInt32} {turn pos : ℕ} {a : UInt32} {c : Flash}

/-! ### The state in RAM -/

theorem sealed_crc (s : WlState) (crc : UInt32) : ({ s with crc } : WlState).sealed = s.sealed := by
  have h : ({ s with crc } : WlState).crcOf WlState.crcLenV2 = s.crcOf WlState.crcLenV2 := by
    rw [WlState.crcOf, WlState.take_encode, WlState.crcOf]
  rw [WlState.sealed, h]
  rfl

theorem live_zero : live n deviceId turn 0 0 = stored n deviceId turn := rfl

theorem live_next : (live n deviceId turn pos a).pos + 1 = .ofNat (pos + 1) := (UInt32.ofNat_add pos 1).symm

/-- The state that is written when the gap comes back to the first page. -/
theorem turned_live (hg : Fits g n ss) (ht : turn < n) :
    turned { live n deviceId turn pos 0 with pos := (live n deviceId turn pos 0).pos + 1 } =
      stored n deviceId (if turn + 1 ≥ n then 0 else turn + 1) := by
  have hlt := hg.lt
  have hs : (live n deviceId turn pos 0).moveCount + 1 = .ofNat (turn + 1) := (UInt32.ofNat_add turn 1).symm
  have hd : (live n deviceId turn pos 0).maxPos - 1 = .ofNat n := by
    change (.ofNat (1 + n) : UInt32) - 1 = .ofNat n
    rw [Nat.add_comm, UInt32.ofNat_add]
    exact UInt32.add_sub_cancel _ _
  have hm : (.ofNat (turn + 1) : UInt32) ≥ .ofNat n ↔ turn + 1 ≥ n := by
    refine UInt32.le_iff_toNat_le.trans ?_
    rw [UInt32.toNat_ofNat_of_lt' (by simp only [UInt32.size]; omega),
      UInt32.toNat_ofNat_of_lt' (by simp only [UInt32.size]; omega)]
  have hc : (if (live n deviceId turn pos 0).moveCount + 1 ≥ (live n deviceId turn pos 0).maxPos - 1 then 0
      else (live n deviceId turn pos 0).moveCount + 1) = .ofNat (if turn + 1 ≥ n then 0 else turn + 1) := by
    rw [hs, hd]
    by_cases h : turn + 1 ≥ n
    · rw [if_pos (hm.2 h), if_pos h]
      rfl
    · rw [if_neg (mt hm.1 h), if_neg h]
  rw [turned]
  dsimp only
  rw [hc]
  exact sealed_crc ⟨0, .ofNat (1 + n), _, 0, updaterate, .ofNat sectorSize, currentVersion, deviceId, .replicate 7 0, 0⟩
    (stored n deviceId turn).crc

/-! ### Moving a page -/

theorem durable_gap (hg : Fits g n ss) (hs : Settled g n f' deviceId turn pos) (hc : Same n (view n turn pos f) c)
    (e : ∀ x < (n + 1) * 4096, x / 4096 ≠ pos → f' x = f x) : Durable g n ss f' c :=
  ⟨deviceId, turn, pos, .inl hs, (view_gap hg.pages e).trans hc⟩

theorem same_moved (hg : Fits g n ss) (ht : turn < n) (hp : pos ≤ n) (hc : Same n (view n turn pos f) c)
    (e : ∀ x < (n + 1) * 4096, f' x = copied f pos (behind n pos) 4096 x) :
    Same n (view n (moved n pos turn).2 (moved n pos turn).1 f') c :=
  ((view_congr hg.pages e).trans (view_copied ht hp)).trans hc

theorem moved_of_lt (h : pos < n) : moved n pos turn = (pos + 1, turn) := if_neg (by omega)

theorem moved_last : moved n n turn = (0, if turn + 1 ≥ n then 0 else turn + 1) := if_pos le_rfl

/-- Once the record is stored, the next position is found, and at the last one the position itself. -/
theorem durable_recorded (hg : Fits g n ss) (hp : pos ≤ n) (hs : Settled g n f' deviceId turn (min (pos + 1) n))
    (hc : Same n (view n turn pos f) c) (e : ∀ x < (n + 1) * 4096, f' x = copied f pos (behind n pos) 4096 x) :
    Durable g n ss f' c := by
  rcases Nat.lt_or_ge pos n with h | h
  · rw [min_eq_left (by omega)] at hs
    have hm := same_moved hg hs.turn_lt hp hc e
    rw [moved_of_lt h] at hm
    exact ⟨deviceId, turn, pos + 1, .inl hs, hm⟩
  · obtain rfl : pos = n := by omega
    rw [min_eq_right (by omega)] at hs
    exact durable_gap hg hs hc fun x hx hne => (e x hx).trans (copied_other f hne)

theorem wp_moveBlock (hg : Fits g n ss) (hs : Settled g n f deviceId turn pos) (hc : Same n (view n turn pos f) c)
    {ram : WlFlash} :
    wp (Keeps g n ss c) (fun _ w' => w'.ram = ram ∧ Settled g n w'.flash deviceId turn (min (pos + 1) n) ∧
      ∀ x < (n + 1) * 4096, w'.flash x = copied f pos (behind n pos) 4096 x) (fun _ _ => False)
      (moveBlock g (live n deviceId turn pos 0)) ⟨f, ram⟩ := by
  have h1 := hg.first
  have h2 := hg.second
  have h3 := hg.full
  have hr := hg.records
  have hp := hs.pos_le
  have hsmall := hg.small
  have hlt := hg.lt
  have hne : behind n pos ≠ pos := by
    have hn := hg.pages
    unfold behind
    split_ifs <;> omega
  have hbn : behind n pos ≤ n := by
    unfold behind
    split_ifs <;> omega
  have hbehind : (if pos + 1 ≥ n + 1 then 0 else pos + 1) = behind n pos := rfl
  have hstays (m : ℕ) : Settled g n (copied f pos (behind n pos) m) deviceId turn pos :=
    hs.congr hg fun x hx _ => copied_other f (by omega)
  have hkeep (m : ℕ) : Durable g n ss (copied f pos (behind n pos) m) c :=
    durable_gap hg (hstays m) hc fun x _ hne => copied_other f hne
  rw [moveBlock, live_pos hg hp, live_maxPos hg, hbehind]
  simp only [sectorSize, tempBuffSize, Nat.reduceDiv]
  rw [wp_bind, wp_drvEraseRange (by omega) hsmall (by decide) (by omega)]
  simp only [Keeps, Op.apply_erase, copied_zero f pos (behind n pos)]
  refine ⟨.inr (hkeep 0), ?_⟩
  rw [wp_bind]
  -- the invariant of the loop is the number of bytes copied
  refine wp_post (wp_range (fun k _ w' => w' = ⟨copied f pos (behind n pos) (k * 32), ram⟩) ?_ rfl) ?_
  · rintro k hk _ _ rfl
    rw [wp_bind, wp_drvRead (by omega) hsmall, wp_drvWrite (by rw [length_read]; omega) hsmall]
    simp only [Keeps, Op.apply_write, copied_step f hne (show k * 32 + 32 ≤ 4096 by omega)]
    refine ⟨.inr (hkeep _), ?_⟩
    rw [Nat.succ_mul]
  · rintro _ _ rfl
    have hrec : recordAddr g.addrState1 pos + 16 ≤ g.addrState2 := by
      simp only [recordAddr, stateBytes, wrSize]
      omega
    have hrec2 : recordAddr g.addrState2 pos + 16 ≤ g.fullMemSize := by
      simp only [recordAddr, stateBytes, wrSize]
      omega
    have hlo : (n + 1) * 4096 ≤ recordAddr g.addrState1 pos := by
      simp only [recordAddr]
      omega
    have hlo2 : (n + 1 + ss) * 4096 + 64 ≤ recordAddr g.addrState2 pos := by
      simp only [recordAddr, stateBytes]
      omega
    have hfirst := (hstays 4096).record hg
    have e (x : ℕ) (hx : x < (n + 1) * 4096) :
        (copied f pos (behind n pos) 4096).program (recordAddr g.addrState1 pos) (okBuff deviceId pos) x =
          copied f pos (behind n pos) 4096 x := program_outside (.inl (by omega))
    rw [wp_bind, wp_drvWrite (by rw [length_okBuff, wrSize]; omega) hsmall]
    refine ⟨.inr (durable_recorded hg hp hfirst hc e), ?_⟩
    set f₁ := (copied f pos (behind n pos) 4096).program (recordAddr g.addrState1 pos) (okBuff deviceId pos)
    have hsecond : Settled g n (f₁.program (recordAddr g.addrState2 pos) (okBuff deviceId pos)) deviceId turn
        (min (pos + 1) n) :=
      hfirst.congr hg fun x _ hx => program_outside (.inl (by omega))
    have e2 (x : ℕ) (hx : x < (n + 1) * 4096) : f₁.program (recordAddr g.addrState2 pos) (okBuff deviceId pos) x =
        copied f pos (behind n pos) 4096 x := (program_outside (.inl (by omega))).trans (e x hx)
    rw [wp_drvWrite (by rw [length_okBuff, wrSize]; omega) hsmall]
    exact ⟨.inr (durable_recorded hg hp hsecond hc e2), rfl, hsecond, e2⟩

theorem wp_writeCopy (hg : Fits g n ss) {addr : ℕ} {st : WlState} {G : WlWorld → Op → Prop} {Q : Unit → WlWorld → Prop}
    {E : EspErr → WlWorld → Prop} {w : WlWorld} (ha : addr % 4096 = 0) (h : addr + g.stateSize ≤ g.fullMemSize) :
    wp G Q E (writeCopy g addr st) w ↔ G w (.erase addr g.stateSize) ∧
      G { w with flash := w.flash.erase addr g.stateSize } (.write addr st.encode) ∧
      Q () { w with flash := (w.flash.erase addr g.stateSize).program addr st.encode } := by
  have h4 := hg.copies
  have hr := hg.records
  have hl : st.encode.length = 64 := WlState.length_encode _
  rw [writeCopy, wp_bind, wp_drvEraseRange h hg.small (by omega) ha, wp_drvWrite (by omega) hg.small]

/-- Both copies of a new turn. -/
theorem wp_writeState (hg : Fits g n ss) {old : ℕ} (hs : Settled g n f deviceId old pos) (ht : turn < n)
    (hc : Same n (view n turn 0 f) c) {ram : WlFlash} :
    wp (Keeps g n ss c) (fun _ w' => w'.ram = { ram with state := stored n deviceId turn } ∧
      Settled g n w'.flash deviceId turn 0 ∧ Same n (view n turn 0 w'.flash) c) (fun _ _ => False)
      (writeState g (stored n deviceId turn)) ⟨f, ram⟩ := by
  have h1 := hg.first
  have h2 := hg.second
  have h3 := hg.full
  have h4 := hg.copies
  have hr := hg.records
  have hdata {f₁ f₂ : Flash} (h : Same n (view n turn 0 f₁) c) (e : ∀ x < (n + 1) * 4096, f₂ x = f₁ x) :
      Same n (view n turn 0 f₂) c := (view_congr hg.pages e).trans h
  have hpend := hs.rewrite hg ht
  have hc₁ : Same n
      (view n turn 0 ((f.erase g.addrState1 g.stateSize).program g.addrState1 (stored n deviceId turn).encode)) c :=
    hdata hc fun x hx => (program_outside (.inl (by omega))).trans (erase_outside (.inl (by omega)))
  rw [writeState, wp_bind, wp_setState, wp_bind, wp_writeCopy hg (by omega) (by omega), wp_writeCopy hg (by omega) (by omega)]
  set f₁ := (f.erase g.addrState1 g.stateSize).program g.addrState1 (stored n deviceId turn).encode
  have hc₂ : Same n (view n turn 0 (f₁.erase g.addrState2 g.stateSize)) c :=
    hdata hc₁ fun x hx => erase_outside (.inl (by omega))
  have hc₃ : Same n (view n turn 0
      ((f₁.erase g.addrState2 g.stateSize).program g.addrState2 (stored n deviceId turn).encode)) c :=
    hdata hc₂ fun x hx => program_outside (.inl (by omega))
  refine ⟨.inl (read_erase_inside le_rfl (by rw [stateBytes]; omega)), ?_, ?_, ?_, rfl, hpend.rewrite hg, hc₃⟩
  · exact .inr ⟨deviceId, turn, 0, .inr ⟨rfl, hpend⟩, hc₁⟩
  · exact .inr ⟨deviceId, turn, 0, .inr ⟨rfl, hpend.erase hg⟩, hc₂⟩
  · exact .inr ⟨deviceId, turn, 0, .inl (hpend.rewrite hg), hc₃⟩

theorem wp_updateWL_count {w : WlWorld} (hw : Stands g n w c deviceId turn pos a) (h : a + 1 < updaterate)
    {G : WlWorld → Op → Prop} :
    wp G (fun _ w' => Stands g n w' c deviceId turn pos (a + 1)) (fun _ _ => False) (updateWL g) w := by
  obtain ⟨f, ram⟩ := w
  obtain ⟨rfl, -, hs, hc⟩ := hw
  rw [updateWL, wp_bind, wp_getState]
  change wp _ _ _ (if a + 1 < updaterate then setState (live n deviceId turn pos (a + 1)) else _) _
  rw [if_pos h]
  exact ⟨rfl, h, hs, hc⟩

theorem last_iff (hg : Fits g n ss) (hp : pos ≤ n) :
    (live n deviceId turn pos 0).pos + 1 ≥ (live n deviceId turn pos 0).maxPos ↔ pos = n := by
  have hlt := hg.lt
  rw [live_next]
  refine UInt32.le_iff_toNat_le.trans ?_
  rw [live_maxPos hg, UInt32.toNat_ofNat_of_lt' (by simp only [UInt32.size]; omega)]
  omega

theorem wp_updateWL_move (hg : Fits g n ss) {w : WlWorld} (hw : Stands g n w c deviceId turn pos a) (h : ¬ a + 1 < updaterate) :
    wp (Keeps g n ss c) (fun _ w' => Stands g n w' c deviceId (moved n pos turn).2 (moved n pos turn).1 0) (fun _ _ => False)
      (updateWL g) w := by
  obtain ⟨f, ram⟩ := w
  obtain ⟨rfl, -, hs, hc⟩ := hw
  have hp := hs.pos_le
  have ht := hs.turn_lt
  rw [updateWL, wp_bind, wp_getState]
  change wp _ _ _ (if a + 1 < updaterate then setState (live n deviceId turn pos (a + 1)) else _) _
  rw [if_neg h, wp_bind, wp_setState, wp_bind]
  refine wp_post (wp_moveBlock hg hs hc) ?_
  rintro _ ⟨f₁, ram⟩ ⟨rfl, hs₁, e⟩
  have hm := same_moved hg ht hp hc e
  change wp _ _ _ (if (live n deviceId turn pos 0).pos + 1 ≥ (live n deviceId turn pos 0).maxPos then
    writeState g (turned { live n deviceId turn pos 0 with pos := (live n deviceId turn pos 0).pos + 1 }) else
    setState { live n deviceId turn pos 0 with pos := (live n deviceId turn pos 0).pos + 1 }) _
  by_cases hn : pos = n
  · rw [if_pos ((last_iff hg hp).2 hn), turned_live hg ht]
    subst hn
    rw [moved_last] at hm ⊢
    have hn := hg.pages
    have ht' : (if turn + 1 ≥ pos then 0 else turn + 1) < pos := by split_ifs <;> omega
    refine wp_post (wp_writeState hg hs₁ ht' hm) ?_
    rintro _ ⟨f₂, ram⟩ ⟨rfl, hs₂, hc₂⟩
    exact ⟨rfl, by decide, hs₂, hc₂⟩
  · rw [if_neg (mt (last_iff hg hp).1 hn), wp_setState, live_next]
    rw [moved_of_lt (by omega)] at hm ⊢
    rw [min_eq_left (by omega)] at hs₁
    exact ⟨rfl, by decide, hs₁, hm⟩

theorem wp_updateWL (hg : Fits g n ss) {w : WlWorld} (hw : Up g n w c) :
    wp (Keeps g n ss c) (fun _ w' => Up g n w' c) (fun _ _ => False) (updateWL g) w := by
  obtain ⟨deviceId, turn, pos, a, hw⟩ := hw
  by_cases h : a + 1 < updaterate
  · exact wp_post (wp_updateWL_count hw h) fun _ _ h => ⟨deviceId, turn, pos, a + 1, h⟩
  · exact wp_post (wp_updateWL_move hg hw h) fun _ _ h => ⟨deviceId, _, _, 0, h⟩

end Esp8266Sdk.Wear
