import Esp8266Sdk.Wear.Refinement

/-! How often the sectors are erased. The erases of a run are counted on its flash
steps. Every sixteenth erase moves the gap, so the gap and the rotation are those
after a sixteenth of the erases, and a user who erases one and the same page
again and again wears all sectors of the data alike. -/

namespace Esp8266Sdk.Wear

open Nor Prog Flash

variable {g : Geometry} {n ss : ℕ} {f c : Flash} {deviceId : UInt32} {turn pos p : ℕ} {a : UInt32} {w w' : WlWorld} {α β : Type}
  {G : WlWorld → Op → Prop} {Q : α → WlWorld → Prop}

/-- How often a run erases sector `p`. -/
def eraseCount (p : ℕ) (q : WlM α) (w : WlWorld) : ℕ := ((q.steps w).map Prod.snd).count (.erase (p * 4096) 4096)

/-! ### Counting -/

theorem eraseCount_bind {q : WlM α} {k : α → WlM β} {m : ℕ} (hq : wp G Q (fun _ _ => False) q w)
    (hk : ∀ a w', Q a w' → eraseCount p (k a) w' = m) : eraseCount p (q >>= k) w = eraseCount p q w + m := by
  rcases hr : q.run w with ⟨e | b, w'⟩
  · have h := wp_run hq
    rw [hr] at h
    exact h.elim
  · have hm := hk b w' (wp_ok hq hr)
    rw [eraseCount, steps_bind, hr, List.map_append, List.count_append, ← hm]
    rfl

/-- Other steps do not count. -/
theorem eraseCount_eq_zero {q : WlM α} {E : EspErr → WlWorld → Prop}
    (h : wp (fun _ op => op ≠ .erase (p * 4096) 4096) Q E q w) : eraseCount p q w = 0 := by
  rw [eraseCount, List.count_eq_zero]
  intro hm
  obtain ⟨s, hs, he⟩ := List.mem_map.1 hm
  exact wp_steps h s hs he

/-- A run of the one step `op`. -/
theorem eraseCount_single {q : WlM α} {op : Op} {k : WlM α} (h : q = .step op k) (hk : ∀ w, eraseCount p k w = 0) :
    eraseCount p q w = if op = .erase (p * 4096) 4096 then 1 else 0 := by
  have hk := hk { w with flash := op.apply w.flash }
  rw [eraseCount] at hk
  subst h
  rw [eraseCount, Prog.steps, List.map_cons, List.count_cons, hk, Nat.zero_add]
  simp only [beq_iff_eq]

theorem eraseCount_guarded (hw : Up g n w c) {q : WlM α} : eraseCount p (guarded q) w = eraseCount p q w := by
  obtain ⟨f, ram⟩ := w
  obtain ⟨deviceId, turn, pos, a, rfl, -⟩ := hw
  rfl

theorem eraseCount_getState {k : WlState → WlM α} : eraseCount p (getState >>= k) w = eraseCount p (k w.ram.state) w := rfl

theorem erase_eq_iff {q : ℕ} : Op.erase (q * 4096) 4096 = .erase (p * 4096) 4096 ↔ q = p := by
  rw [Op.erase.injEq]
  omega

theorem eraseCount_drvEraseRange {size q : ℕ} (h : q * 4096 + 4096 ≤ size) (hs : size ≤ 2 ^ 24) :
    eraseCount p (drvEraseRange size (q * 4096) 4096) w = if q = p then 1 else 0 := by
  have he : drvEraseRange size (q * 4096) 4096 = .step (.erase (q * 4096) 4096) (.ret ()) := by
    rw [drvEraseRange, if_neg (by omega), if_neg (by rw [size32]; omega), if_neg (by rw [sectorSize]; omega),
      if_neg (by rw [sectorSize]; omega)]
  rw [eraseCount_single he fun _ => rfl]
  simp only [erase_eq_iff]

/-! ### Moves -/

theorem eraseCount_moveBlock (hg : Fits g n ss) (hp : pos ≤ n) :
    eraseCount p (moveBlock g (live n deviceId turn pos 0)) w = if pos = p then 1 else 0 := by
  have hfull := hg.data_le
  have hany {size b : ℕ} {bs : List UInt8} {w : WlWorld} :
      wp (fun _ op => op ≠ .erase (p * 4096) 4096) (fun _ _ => True) (fun _ _ => True) (drvWrite size b bs) w :=
    wp_drvWrite_any (fun h => Op.noConfusion h) trivial fun _ => trivial
  rw [moveBlock, live_pos hg hp]
  simp only [sectorSize]
  have herase : wp (fun _ _ => True) (fun _ _ => True) (fun _ _ => False)
      (drvEraseRange g.fullMemSize (pos * 4096) 4096) w := by
    rw [wp_drvEraseRange (by omega) hg.small (by decide) (by omega)]
    exact ⟨trivial, trivial⟩
  rw [eraseCount_bind herase (m := 0), eraseCount_drvEraseRange (by omega) hg.small, Nat.add_zero]
  -- the rest only writes
  intro _ w' _
  apply eraseCount_eq_zero (Q := fun _ _ => True) (E := fun _ _ => True)
  rw [wp_bind]
  refine wp_post (wp_range (fun _ _ _ => True) ?_ trivial) ?_
  · intro k _ _ w _
    rw [wp_bind]
    exact wp_drvRead_any hany fun _ => trivial
  · intro _ w _
    rw [wp_bind]
    exact wp_post hany fun _ _ _ => hany

theorem eraseCount_writeState (hg : Fits g n ss) (hp : p ≤ n) (st : WlState) : eraseCount p (writeState g st) w = 0 := by
  have h1 := hg.first
  have h2 := hg.second
  have h3 := hg.full
  have h4 := hg.copies
  apply eraseCount_eq_zero (Q := fun _ _ => True) (E := fun _ _ => True)
  rw [writeState, wp_bind, wp_setState, wp_bind, wp_writeCopy hg (by omega) (by omega), wp_writeCopy hg (by omega) (by omega)]
  refine ⟨fun h => ?_, fun h => Op.noConfusion h, fun h => ?_, fun h => Op.noConfusion h, trivial⟩
  · rw [Op.erase.injEq] at h
    omega
  · rw [Op.erase.injEq] at h
    omega

theorem eraseCount_updateWL_count (hw : Stands g n w c deviceId turn pos a) (h : a + 1 < updaterate) :
    eraseCount p (updateWL g) w = 0 := eraseCount_eq_zero (wp_updateWL_count hw h)

/-- A move erases the gap. -/
theorem eraseCount_updateWL_move (hg : Fits g n ss) (hw : Stands g n w c deviceId turn pos a) (h : ¬ a + 1 < updaterate)
    (hp : p ≤ n) : eraseCount p (updateWL g) w = if pos = p then 1 else 0 := by
  obtain ⟨f, ram⟩ := w
  obtain ⟨rfl, -, hs, hc⟩ := hw
  have hget : eraseCount p (updateWL g) ⟨f, ⟨live n deviceId turn pos a, true⟩⟩ =
      eraseCount p (do
        moveBlock g (live n deviceId turn pos 0)
        if (live n deviceId turn pos 0).pos + 1 ≥ (live n deviceId turn pos 0).maxPos then
          writeState g (turned { live n deviceId turn pos 0 with pos := (live n deviceId turn pos 0).pos + 1 })
        else setState { live n deviceId turn pos 0 with pos := (live n deviceId turn pos 0).pos + 1 })
        ⟨f, ⟨live n deviceId turn pos 0, true⟩⟩ := by
    change eraseCount p (if a + 1 < updaterate then setState (live n deviceId turn pos (a + 1)) else _) _ = _
    rw [if_neg h]
    rfl
  rw [hget, eraseCount_bind (m := 0) (wp_moveBlock hg hs hc), eraseCount_moveBlock hg hs.pos_le, Nat.add_zero]
  intro _ w' _
  split_ifs
  · exact eraseCount_writeState hg hp _
  · rfl

/-! ### Erasing again and again -/

/-- A store after `i` erases. -/
def Worn (g : Geometry) (n : ℕ) (deviceId : UInt32) (i : ℕ) (w : WlWorld) : Prop :=
  ∃ c, Stands g n w c deviceId (after n (i / 16)).2 (after n (i / 16)).1 (.ofNat (i % 16))

theorem count_iff (i : ℕ) : (.ofNat (i % 16) : UInt32) + 1 < updaterate ↔ ¬ 16 ∣ i + 1 := by
  have h1 : (.ofNat (i % 16) : UInt32) + 1 = .ofNat (i % 16 + 1) := (UInt32.ofNat_add _ 1).symm
  have h2 : updaterate = .ofNat 16 := rfl
  rw [h1, h2, UInt32.lt_iff_toNat_lt, UInt32.toNat_ofNat_of_lt' (by simp only [UInt32.size]; omega),
    UInt32.toNat_ofNat_of_lt' (by decide)]
  omega

theorem wp_updateWL_worn (hg : Fits g n ss) {i : ℕ} (hw : Worn g n deviceId i w) :
    wp (fun _ _ => True) (fun _ w' => Worn g n deviceId (i + 1) w') (fun _ _ => False) (updateWL g) w := by
  obtain ⟨c, hw⟩ := hw
  by_cases h : 16 ∣ i + 1
  · have hq : (i + 1) / 16 = i / 16 + 1 := by omega
    have hr : (i + 1) % 16 = 0 := by omega
    refine wp_mono (wp_updateWL_move hg hw (fun hlt => (count_iff i).1 hlt h)) (fun _ _ _ => trivial) ?_ fun _ _ h => h
    intro _ w' hw'
    refine ⟨c, ?_⟩
    rw [hq, hr]
    exact hw'
  · have hq : (i + 1) / 16 = i / 16 := by omega
    have hr : (i + 1) % 16 = i % 16 + 1 := by omega
    refine wp_post (wp_updateWL_count hw ((count_iff i).2 h)) ?_
    intro _ w' hw'
    refine ⟨c, ?_⟩
    rw [hq, hr, UInt32.ofNat_add]
    exact hw'

theorem eraseCount_updateWL (hg : Fits g n ss) {i : ℕ} (hw : Worn g n deviceId i w) (hp : p ≤ n) :
    eraseCount p (updateWL g) w = if 16 ∣ i + 1 then if (after n (i / 16)).1 = p then 1 else 0 else 0 := by
  obtain ⟨c, hw⟩ := hw
  by_cases h : 16 ∣ i + 1
  · rw [if_pos h]
    exact eraseCount_updateWL_move hg hw (fun hlt => (count_iff i).1 hlt h) hp
  · rw [if_neg h]
    exact eraseCount_updateWL_count hw ((count_iff i).2 h)

theorem Worn.up {i : ℕ} (h : Worn g n deviceId i w) : ∃ c, Up g n w c := by
  obtain ⟨c, hw⟩ := h
  exact ⟨c, deviceId, _, _, _, hw⟩

/-- One erase of page `l`. -/
theorem wp_eraseSector_worn (hg : Fits g n ss) {i l : ℕ} (hw : Worn g n deviceId i w) (hl : l < n) :
    wp (fun _ _ => True) (fun _ w' => Worn g n deviceId (i + 1) w') (fun _ _ => False) (eraseSector g l) w := by
  obtain ⟨c, hup⟩ := hw.up
  rw [eraseSector, hup.run_guarded, wp_bind]
  refine wp_post (wp_updateWL_worn hg hw) ?_
  rintro _ w' ⟨c', hw'⟩
  exact (wp_erasePage hg hw' hl).2 ⟨trivial, _, hw'.erase hg hl⟩

theorem eraseCount_eraseSector (hg : Fits g n ss) {i l : ℕ} (hw : Worn g n deviceId i w) (hl : l < n) (hp : p ≤ n) :
    eraseCount p (eraseSector g l) w = (if 16 ∣ i + 1 then if (after n (i / 16)).1 = p then 1 else 0 else 0) +
      if place n (after n ((i + 1) / 16)).1 (after n ((i + 1) / 16)).2 l = p then 1 else 0 := by
  obtain ⟨c, hup⟩ := hw.up
  rw [eraseSector, eraseCount_guarded hup, eraseCount_bind (wp_updateWL_worn hg hw), eraseCount_updateWL hg hw hp]
  rintro _ ⟨f', ram⟩ ⟨c', rfl, -, hs, -⟩
  have hfull := hg.data_le
  have hplace : place n (after n ((i + 1) / 16)).1 (after n ((i + 1) / 16)).2 l < n + 1 := place_lt hg.pages
  rw [eraseCount_getState, drvEraseSector]
  simp only [sectorSize]
  rw [sector_addr hg hs.turn_lt hs.pos_le hl]
  exact eraseCount_drvEraseRange (by omega) hg.small

/-- Erasing the pages `l 0`, `l 1`, ..., `l (m - 1)`. -/
def eraseSectors (g : Geometry) (l : ℕ → ℕ) (m : ℕ) : WlM Unit := (List.range m).foldlM (fun _ i => eraseSector g (l i)) ()

theorem wp_eraseSectors (hg : Fits g n ss) {l : ℕ → ℕ} {m : ℕ} (hl : ∀ i < m, l i < n) (hw : Worn g n deviceId 0 w) :
    wp (fun _ _ => True) (fun _ w' => Worn g n deviceId m w') (fun _ _ => False) (eraseSectors g l m) w :=
  wp_range (fun i _ w => Worn g n deviceId i w) (fun i hi _ _ hw => wp_eraseSector_worn hg hw (hl i hi)) hw

theorem eraseSectors_succ (g : Geometry) (l : ℕ → ℕ) (m : ℕ) :
    eraseSectors g l (m + 1) = eraseSectors g l m >>= fun _ => eraseSector g (l m) := by
  rw [eraseSectors, List.range_succ, List.foldlM_append]
  simp only [List.foldlM_cons, List.foldlM_nil, bind_pure]
  rfl

/-- The erases of a sector, for a move and for a page that stands on it. -/
theorem eraseCount_eraseSectors (hg : Fits g n ss) {l : ℕ → ℕ} {m : ℕ} (hl : ∀ i < m, l i < n) (hw : Worn g n deviceId 0 w)
    (hp : p ≤ n) : eraseCount p (eraseSectors g l m) w = ∑ i ∈ Finset.range m,
      ((if 16 ∣ i + 1 then if (after n (i / 16)).1 = p then 1 else 0 else 0) +
        if place n (after n ((i + 1) / 16)).1 (after n ((i + 1) / 16)).2 (l i) = p then 1 else 0) := by
  induction m with
  | zero => rfl
  | succ m ih =>
    have hbefore := wp_eraseSectors hg (fun i hi => hl i (by omega)) hw (m := m)
    rw [eraseSectors_succ, eraseCount_bind hbefore fun _ w' hw' => eraseCount_eraseSector hg hw' (hl m (by omega)) hp,
      ih fun i hi => hl i (by omega), Finset.sum_range_succ]

/-- One page, in as many erases as it takes to bring every page to every sector. -/
theorem eraseCount_round (hg : Fits g n ss) {l : ℕ} (hl : l < n) (hw : Worn g n deviceId 0 w) (hp : p ≤ n) :
    eraseCount p (eraseSectors g (fun _ => l) (n * (n + 1) * 16)) w = 17 * n := by
  have hn := hg.pages
  have hgap := gap_level hn hp
  have hpage := place_level hl hp
  rw [Finset.card_filter] at hpage
  have hends := sum_block_ends (show 0 < 16 by decide) (fun j => if (after n j).1 = p then 1 else 0) (n * (n + 1))
  have hblocks := sum_blocks (show 0 < 16 by decide) (fun j => if place n (after n j).1 (after n j).2 l = p then 1 else 0)
    (n * (n + 1))
  -- the page is erased behind the move, one block later
  have hshift : (∑ i ∈ Finset.range (n * (n + 1) * 16),
      if place n (after n ((i + 1) / 16)).1 (after n ((i + 1) / 16)).2 l = p then 1 else 0) =
      ∑ i ∈ Finset.range (n * (n + 1) * 16), if place n (after n (i / 16)).1 (after n (i / 16)).2 l = p then 1 else 0 := by
    have h := (Finset.sum_range_succ' (fun i => if place n (after n (i / 16)).1 (after n (i / 16)).2 l = p then 1 else 0)
      (n * (n + 1) * 16)).symm.trans (Finset.sum_range_succ _ _)
    simp only [Nat.mul_div_cancel _ (show 0 < 16 by decide), after_round hn, Nat.zero_div] at h
    exact Nat.add_right_cancel h
  rw [eraseCount_eraseSectors hg (fun _ _ => hl) hw hp, Finset.sum_add_distrib, hends, hgap, hshift, hblocks, hpage]
  omega

theorem fresh_mounts (hg : Fits g n ss) {size : ℕ} (h : config size = .ok g) (hf : Fresh g f) (random : UInt32)
    (ram : WlFlash) :    ∃ w, (mount size random).run ⟨f, ram⟩ = (.ok (), w) := by
  have hok : wp (fun _ _ => True) (fun a _ => .ok a = (.ok () : Except EspErr Unit))
      (fun e _ => .error e = (.ok () : Except EspErr Unit)) (init g random) ⟨f, ram⟩ :=
    wp_mono (wp_init_fresh hg hf fun _ _ => rfl) (fun _ _ _ => trivial) (fun _ _ _ => rfl) fun _ _ h => h.elim
  rw [mount_eq h]
  exact ⟨_, run_eq (run_fst_eq hok)⟩

theorem mount_worn (hg : Fits g n ss) {size : ℕ} (h : config size = .ok g) (hf : Fresh g f) {random : UInt32} {ram : WlFlash}
    (hr : (mount size random).run ⟨f, ram⟩ = (.ok (), w)) : Worn g n random 0 w := by
  rw [mount_eq h] at hr
  refine ⟨view n 0 0 f, wp_ok (wp_init_fresh hg hf fun _ _ => rfl) hr⟩

/-- A user who only ever erases one page wears all sectors of the data alike. -/
theorem erase_level {size : ℕ} (hm : size % 4096 = 0) (hs : size ≤ 2 ^ 24) (h : config size = .ok g) (hf : Fresh g f)
    {random : UInt32} {ram : WlFlash} (hr : (mount size random).run ⟨f, ram⟩ = (.ok (), w)) {l p : ℕ} (hl : l < Wear.pages g)
    (hp : p ≤ Wear.pages g) :
    ((eraseSectors g (fun _ => l) (Wear.pages g * (Wear.pages g + 1) * 16)).run w).1 = .ok () ∧
      eraseCount p (eraseSectors g (fun _ => l) (Wear.pages g * (Wear.pages g + 1) * 16)) w = 17 * Wear.pages g := by
  obtain ⟨n, ss, hg⟩ := config_fits hm hs h
  rw [hg.pages_eq] at hl hp ⊢
  have hw := mount_worn hg h hf hr
  refine ⟨?_, eraseCount_round hg hl hw hp⟩
  have hrun (m : ℕ) := wp_eraseSectors (m := m) hg (fun _ (_ : _ < m) => hl) hw
  exact run_fst_eq (wp_mono (hrun _) (fun _ _ _ => trivial) (fun _ _ _ => rfl) fun _ _ h => h.elim)

theorem erase_level_smallest : ∃ g w, config 20480 = .ok g ∧
    (mount 20480 0).run ⟨fun _ => 0xff, ⟨stored 0 0 0, false⟩⟩ = (.ok (), w) ∧ 0 < Wear.pages g ∧
    ((eraseSectors g (fun _ => 0) (Wear.pages g * (Wear.pages g + 1) * 16)).run w).1 = .ok () ∧
    eraseCount 0 (eraseSectors g (fun _ => 0) (Wear.pages g * (Wear.pages g + 1) * 16)) w = 17 * Wear.pages g := by
  obtain ⟨g, h⟩ := config_smallest
  obtain ⟨n, ss, -, hg, hf, -, -⟩ := erased_up (by decide) (by decide) h
  have hn : 0 < Wear.pages g := by
    rw [hg.pages_eq]
    exact hg.pages
  obtain ⟨w, hr⟩ := fresh_mounts hg h hf 0 ⟨stored 0 0 0, false⟩
  exact ⟨_, w, h, hr, hn, erase_level (by decide) (by decide) h hf hr hn (Nat.zero_le _)⟩

end Esp8266Sdk.Wear
