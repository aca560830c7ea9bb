import Esp8266Sdk.Wear.Mount

/-! Whole runs of the store, with power cuts and mounts between them. The answers
a user gets are those of a flash without wear levelling, on which a cut request
does some of its pages and no more. The power is not cut between erasing the first
copy of the state and writing it. -/

namespace Esp8266Sdk.Wear

open Nor Prog Flash

/-! ### Runs of the store -/

/-- What a user sees of a request. -/
inductive Entry where
  | answered (r : Request) (v : Except EspErr (List UInt8))
  | cut (r : Request)

/-- Mounting after the power is back, with attempts that fail or are cut themselves. -/
inductive PowerOn (size : ℕ) : Flash → WlWorld → Prop where
  | mounted {f : Flash} {ram : WlFlash} {random : UInt32} {w : WlWorld} :
      (mount size random).run ⟨f, ram⟩ = (.ok (), w) → PowerOn size f w
  | again {f : Flash} {ram : WlFlash} {random : UInt32} {k : ℕ} {w : WlWorld} :
      PowerOn size ((mount size random).cut ⟨f, ram⟩ k) w → PowerOn size f w

/-- The runs of a store of `n` pages and what its user sees of them. -/
inductive Run (size n : ℕ) (g : Geometry) (w : WlWorld) : List Entry → WlWorld → Prop where
  | start : Run size n g w [] w
  | request {l : List Entry} {w₁ w₂ : WlWorld} {r : Request} {v : Except EspErr (List UInt8)} :
      Run size n g w l w₁ → r.Legal n → (r.run g).run w₁ = (v, w₂) → Run size n g w (l ++ [.answered r v]) w₂
  | cut {l : List Entry} {w₁ w₂ : WlWorld} {r : Request} {k : ℕ} :
      Run size n g w l w₁ → r.Legal n → ¬ Broken g ((r.run g).cut w₁ k) → PowerOn size ((r.run g).cut w₁ k) w₂ →
      Run size n g w (l ++ [.cut r]) w₂

/-- The same on a flash without wear levelling. -/
inductive FlatRun (c : Flash) : List Entry → Flash → Prop where
  | start : FlatRun c [] c
  | request {l : List Entry} {c₁ : Flash} (r : Request) :
      FlatRun c l c₁ → FlatRun c (l ++ [.answered r (.ok (r.answer c₁))]) (applyOps c₁ r.ops)
  | cut {l : List Entry} {c₁ : Flash} (r : Request) (j : ℕ) :
      FlatRun c l c₁ → FlatRun c (l ++ [.cut r]) (applyOps c₁ (r.ops.take j))

/-! ### Refinement -/

variable {size : ℕ} {g : Geometry} {n ss : ℕ} {f c : Flash} {w w' : WlWorld} {l : List Entry}

theorem mount_eq (h : config size = .ok g) (random : UInt32) : mount size random = init g random :=
  congrArg (mountAs random) h

theorem Ready.powerOn (hg : Fits g n ss) (h : config size = .ok g) (hf : Ready g n ss f c) (hp : PowerOn size f w) :
    Up g n w c := by
  induction hp with
  | mounted hr =>
    rw [mount_eq h] at hr
    exact wp_ok (wp_init_ready hg hf) hr
  | again _ ih =>
    refine ih ?_
    rw [mount_eq h]
    exact wp_cut (I := fun f => Ready g n ss f c) (fun _ _ h => h) (wp_init_ready hg hf) hf _

/-- A cut request leaves some of its pages done. -/
theorem Request.cut_ready (hg : Fits g n ss) (hw : Up g n w c) {r : Request} (hr : r.Legal n) {k : ℕ}
    (hb : ¬ Broken g ((r.run g).cut w k)) : ∃ j, Ready g n ss ((r.run g).cut w k) (applyOps c (r.ops.take j)) := by
  have h := wp_cut (I := fun f => Broken g f ∨ ∃ j, Durable g n ss f (applyOps c (r.ops.take j))) (fun _ _ h => h)
    (r.wp_run hg hw hr) (.inr ⟨0, hw.durable⟩) k
  obtain ⟨j, hj⟩ := h.resolve_left hb
  exact ⟨j, .inl hj⟩

theorem Request.run_up (hg : Fits g n ss) (hw : Up g n w c) {r : Request} (hr : r.Legal n) {v : Except EspErr (List UInt8)}
    (h : (r.run g).run w = (v, w')) : v = .ok (r.answer c) ∧ Up g n w' (applyOps c r.ops) := by
  have hspec := Prog.wp_run (r.wp_run hg hw hr)
  rw [h] at hspec
  cases v with
  | error e => exact hspec.elim
  | ok v => exact ⟨congrArg _ hspec.1, hspec.2⟩

/-- Every run from a mounted store has a flat one with the same answers. -/
theorem Up.flat (hg : Fits g n ss) (h : config size = .ok g) (hw : Up g n w c) (hr : Run size n g w l w') :
    ∃ c', FlatRun c l c' ∧ Up g n w' c' := by
  induction hr with
  | start => exact ⟨c, .start, hw⟩
  | request _ hr hrun ih =>
    obtain ⟨c₁, hflat, hup⟩ := ih
    obtain ⟨rfl, hup'⟩ := Request.run_up hg hup hr hrun
    exact ⟨_, hflat.request _, hup'⟩
  | cut _ hr hb hp ih =>
    obtain ⟨c₁, hflat, hup⟩ := ih
    obtain ⟨j, hj⟩ := Request.cut_ready hg hup hr hb
    exact ⟨_, hflat.cut _ j, hj.powerOn hg h hp⟩

/-! ### Mounts that succeed -/

theorem Settled.not_broken {deviceId : UInt32} {turn pos : ℕ} (hs : Settled g n f deviceId turn pos) : ¬ Broken g f := by
  intro hb
  have e : WlState.decode (blank stateBytes) = stored n deviceId turn := by
    rw [← hb, hs.first, WlState.decode_encode]
  apply crcOf_blank
  rw [e]
  exact crcOf_stored

theorem Steady.mounts (hg : Fits g n ss) (h : config size = .ok g) (hf : Steady g n f c) (random : UInt32) (ram : WlFlash) :
    ∃ w, (mount size random).run ⟨f, ram⟩ = (.ok (), w) := by
  obtain ⟨deviceId, turn, pos, hs, -⟩ := hf
  have hwp : wp (fun _ _ => True) (fun _ _ => True) (fun _ _ => False) (init g random) ⟨f, ram⟩ :=
    wp_init_settled hg hs trivial
  have hspec := Prog.wp_run hwp
  rw [mount_eq h]
  rcases hr : (init g random).run ⟨f, ram⟩ with ⟨e | ⟨⟩, w⟩
  · rw [hr] at hspec
    exact hspec.elim
  · exact ⟨w, rfl⟩

/-- Of two mounts one succeeds. -/
theorem Ready.mounts (hg : Fits g n ss) (h : config size = .ok g) (hf : Ready g n ss f c) (random random' : UInt32)
    (ram ram' : WlFlash) : (∃ w, (mount size random).run ⟨f, ram⟩ = (.ok (), w)) ∨ ∃ e w w',
      (mount size random).run ⟨f, ram⟩ = (.error e, w) ∧ (mount size random').run ⟨w.flash, ram'⟩ = (.ok (), w') := by
  have hwp : wp (fun w op => Ready g n ss (op.apply w.flash) c) (fun _ w' => Up g n w' c) (fun _ w' => Steady g n w'.flash c)
      (init g random) ⟨f, ram⟩ := wp_init_ready hg hf
  have hspec := Prog.wp_run hwp
  rw [← mount_eq h] at hspec
  rcases hr : (mount size random).run ⟨f, ram⟩ with ⟨e | ⟨⟩, w⟩
  · rw [hr] at hspec
    obtain ⟨w', hw'⟩ := Steady.mounts hg h hspec random' ram'
    exact .inr ⟨e, w, w', rfl, hw'⟩
  · exact .inl ⟨w, rfl⟩

theorem PowerOn.failed {random : UInt32} {ram : WlFlash} {e : EspErr} {w₁ : WlWorld}
    (h : (mount size random).run ⟨f, ram⟩ = (.error e, w₁)) (hp : PowerOn size w₁.flash w) : PowerOn size f w := by
  have hr := replay_steps (mount size random) ⟨f, ram⟩
  have hcut : (mount size random).cut ⟨f, ram⟩ ((mount size random).steps ⟨f, ram⟩).length = w₁.flash := by
    rw [Prog.cut, List.take_length, hr, h]
  exact .again (hcut ▸ hp)

theorem Ready.powers (hg : Fits g n ss) (h : config size = .ok g) (hf : Ready g n ss f c) : ∃ w, PowerOn size f w := by
  have ram : WlFlash := ⟨stored 0 0 0, false⟩
  rcases hf.mounts hg h 0 0 ram ram with ⟨w, hw⟩ | ⟨e, w₁, w, hw₁, hw⟩
  · exact ⟨w, .mounted hw⟩
  · exact ⟨w, .failed hw₁ (.mounted hw)⟩

/-- A store on an erased partition. -/
theorem erased_up (hm : size % 4096 = 0) (hs : size ≤ 2 ^ 24) (h : config size = .ok g) : ∃ n ss w, Fits g n ss ∧
    Fresh g (fun _ => 0xff) ∧ PowerOn size (fun _ => 0xff) w ∧ Up g n w (view n 0 0 fun _ => 0xff) := by
  obtain ⟨n, ss, hg⟩ := config_fits hm hs h
  have hf : Fresh g (fun _ => 0xff) := ⟨read_eq_blank_iff.2 fun _ _ _ => rfl, read_eq_blank_iff.2 fun _ _ _ => rfl⟩
  have hready : Ready g n ss (fun _ => 0xff) (view n 0 0 fun _ => 0xff) := .inr ⟨hf, fun _ _ => rfl⟩
  obtain ⟨w, hw⟩ := hready.powers hg h
  exact ⟨n, ss, w, hg, hf, hw, hready.powerOn hg h hw⟩

/-- The smallest partition. -/
theorem config_smallest : ∃ g, config 20480 = .ok g := ⟨_, rfl⟩

/-! ### From the first mount on -/

/-- The pages of a partition. -/
def pages (g : Geometry) : ℕ := g.flashSize / sectorSize

theorem Fits.pages_eq (hg : Fits g n ss) : Wear.pages g = n := by
  rw [Wear.pages, hg.data, sectorSize, Nat.mul_div_cancel _ (by decide)]

/-- The store is a flash without wear levelling, from the first mount of an erased partition on. -/
theorem run_flat (hm : size % 4096 = 0) (hs : size ≤ 2 ^ 24) (h : config size = .ok g) (hf : Fresh g f)
    (hp : PowerOn size f w) (hr : Run size (Wear.pages g) g w l w') :
    ∃ c', FlatRun (view (Wear.pages g) 0 0 f) l c' := by
  obtain ⟨n, ss, hg⟩ := config_fits hm hs h
  rw [hg.pages_eq] at hr ⊢
  have hup := Ready.powerOn hg h (.inr ⟨hf, fun _ _ => rfl⟩) hp
  obtain ⟨c', hflat, -⟩ := hup.flat hg h hr
  exact ⟨c', hflat⟩

theorem run_flat_smallest : ∃ g w w' v, config 20480 = .ok g ∧
    Run 20480 (Wear.pages g) g w [.answered .flush v, .cut (.eraseRange 0 4096)] w' ∧
    ∃ c', FlatRun (view (Wear.pages g) 0 0 fun _ => 0xff) [.answered .flush v, .cut (.eraseRange 0 4096)] c' := by
  obtain ⟨g, h⟩ := config_smallest
  obtain ⟨n, ss, w, hg, hf, hp, hup⟩ := erased_up (by decide) (by decide) h
  have hn := hg.pages
  have hl : (Request.eraseRange 0 4096).Legal (Wear.pages g) := by
    rw [hg.pages_eq]
    exact ⟨rfl, rfl, by omega⟩
  obtain ⟨-, hup'⟩ := Request.run_up hg hup (r := .flush) trivial (Prod.eta _).symm
  obtain ⟨deviceId, turn, pos, a, -, -, hs, -⟩ := id hup'
  have hcut : ((Request.eraseRange 0 4096).run g).cut ((Request.flush.run g).run w).2 0 =
      ((Request.flush.run g).run w).2.flash := rfl
  have hb : ¬ Broken g (((Request.eraseRange 0 4096).run g).cut ((Request.flush.run g).run w).2 0) := by
    rw [hcut]
    exact hs.not_broken
  have hready : Ready g n ss (((Request.eraseRange 0 4096).run g).cut ((Request.flush.run g).run w).2 0) _ := .inl hup'.durable
  obtain ⟨w', hw'⟩ := hready.powers hg h
  have hr := (Run.start.request (r := .flush) trivial (Prod.eta _).symm).cut hl hb hw'
  exact ⟨_, w, w', _, h, hr, run_flat (by decide) (by decide) h hf hp hr⟩

end Esp8266Sdk.Wear
