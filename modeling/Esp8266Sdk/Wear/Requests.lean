import Esp8266Sdk.Nor.Trace
import Esp8266Sdk.Wear.Access

/-! The requests of the access interface. Each one does to the data what the
same request does to a flash without wear levelling, page by page, so that a
power cut leaves a prefix of its pages done. -/

namespace Esp8266Sdk.Wear

open Nor Prog Flash

variable {g : Geometry} {n ss : ℕ} {f : Flash} {deviceId : UInt32} {turn pos : ℕ} {a : UInt32} {c c' : Flash}
  {w : WlWorld} {op : Op} {l l' : List Op}

theorem size32_eq {a : ℕ} (h : a < 2 ^ 32) : size32 a = a := Nat.mod_eq_of_lt h

theorem Fits.size32_eq (hg : Fits g n ss) {x : ℕ} (h : x ≤ n * 4096) : size32 x = x := by
  have hlt := hg.lt
  exact Wear.size32_eq (by omega)

theorem Fits.data_le (hg : Fits g n ss) : (n + 1) * 4096 ≤ g.fullMemSize := by
  have h3 := hg.full
  omega

/-! ### Durability up to a prefix -/

theorem Durable.same (h : Durable g n ss f c) (e : Same n c c') : Durable g n ss f c' := by
  obtain ⟨deviceId, turn, pos, hs, hc⟩ := h
  exact ⟨deviceId, turn, pos, hs, hc.trans e⟩

/-- A step leaves a flash that is broken or holds the data after some of the steps `l`. -/
def Within (g : Geometry) (n ss : ℕ) (c : Flash) (l : List Op) (w : WlWorld) (op : Op) : Prop :=
  Broken g (op.apply w.flash) ∨ ∃ j, Durable g n ss (op.apply w.flash) (applyOps c (l.take j))

theorem Keeps.within (h : Keeps g n ss c w op) (l : List Op) : Within g n ss c l w op :=
  h.imp_right fun h => ⟨0, h⟩

theorem Within.left (h : Within g n ss c l w op) (l' : List Op) : Within g n ss c (l ++ l') w op := by
  refine h.imp_right ?_
  rintro ⟨j, h⟩
  refine ⟨min j l.length, ?_⟩
  rw [List.take_append_of_le_length (min_le_right _ _), List.take_eq_take_min] at *
  rwa [min_assoc, min_self]

theorem Within.right (h : Within g n ss (applyOps c l) l' w op) : Within g n ss c (l ++ l') w op := by
  refine h.imp_right ?_
  rintro ⟨j, h⟩
  refine ⟨l.length + j, ?_⟩
  rwa [applyOps_take_append _ _ _ (Nat.le_add_right _ _), Nat.add_sub_cancel_left]

theorem Within.done (h : Durable g n ss (op.apply w.flash) (applyOps c l)) : Within g n ss c l w op :=
  .inr ⟨l.length, by rwa [List.take_length]⟩

/-! ### Pages -/

theorem Up.run_guarded {α : Type} (hw : Up g n w c) {G : WlWorld → Op → Prop} {Q : α → WlWorld → Prop}
    {E : EspErr → WlWorld → Prop} {p : WlM α} : wp G Q E (guarded p) w ↔ wp G Q E p w := by
  obtain ⟨f, ram⟩ := w
  obtain ⟨deviceId, turn, pos, a, rfl, -⟩ := hw
  exact Iff.rfl

theorem wp_piece (hg : Fits g n ss) (hw : Up g n w c) {x : ℕ} {bs : List UInt8} (hx : x < n * 4096)
    (hl : x % 4096 + bs.length ≤ 4096) :
    wp (Within g n ss c [.write x bs]) (fun _ w' => Up g n w' (c.program x bs)) (fun _ _ => False)
      (do let st ← getState; drvWrite g.fullMemSize (calcAddr g st x) bs) w := by
  obtain ⟨f, ram⟩ := w
  obtain ⟨deviceId, turn, pos, a, rfl, ha, hs, hc⟩ := hw
  have hp : place n pos turn (x / 4096) < n + 1 := place_lt hg.pages
  have hfull := hg.data_le
  have hend : place n pos turn (x / 4096) * 4096 + x % 4096 + bs.length ≤ (n + 1) * 4096 := by omega
  have hs' : Settled g n (f.program (place n pos turn (x / 4096) * 4096 + x % 4096) bs) deviceId turn pos :=
    hs.congr hg fun y hy _ => program_outside (.inr (by omega))
  have hc' := (view_program hx hl).trans (hc.program x bs)
  rw [wp_bind, wp_getState]
  simp only
  rw [calcAddr_live hg hs.turn_lt hs.pos_le hx, wp_drvWrite (by omega) hg.small]
  exact ⟨.done ⟨deviceId, turn, pos, .inl hs', hc'⟩, deviceId, turn, pos, a, rfl, ha, hs', hc'⟩

/-- The sector that is erased for page `i`. -/
theorem sector_addr (hg : Fits g n ss) (ht : turn < n) (hp : pos ≤ n) {i : ℕ} (hi : i < n) :
    size32 (calcAddr g (live n deviceId turn pos a) (size32 (i * 4096)) / 4096 * 4096) = place n pos turn i * 4096 := by
  have hlt := hg.lt
  have hplace : place n pos turn i < n + 1 := place_lt hg.pages
  have hin : i * 4096 ≤ n * 4096 := Nat.mul_le_mul_right _ hi.le
  have haddr : calcAddr g (live n deviceId turn pos a) (i * 4096) = place n pos turn i * 4096 := by
    rw [calcAddr_live hg ht hp (by omega), Nat.mul_div_cancel _ (by decide), Nat.mul_mod_left, Nat.add_zero]
  rw [hg.size32_eq hin, haddr, Nat.mul_div_cancel _ (by decide)]
  exact size32_eq (by omega)

/-- What `eraseSector` does behind `updateWL`. -/
theorem wp_erasePage (hg : Fits g n ss) (hw : Stands g n w c deviceId turn pos a) {i : ℕ} (hi : i < n)
    {G : WlWorld → Op → Prop} {Q : Unit → WlWorld → Prop} {E : EspErr → WlWorld → Prop} :
    wp G Q E (do
      let st ← getState
      drvEraseSector g.fullMemSize (calcAddr g st (size32 (i * sectorSize)) / sectorSize)) w ↔
    G w (.erase (place n pos turn i * 4096) 4096) ∧
      Q () { w with flash := w.flash.erase (place n pos turn i * 4096) 4096 } := by
  have hfull := hg.data_le
  obtain ⟨f, ram⟩ := w
  obtain ⟨rfl, -, hs, -⟩ := hw
  have hp : place n pos turn i < n + 1 := place_lt hg.pages
  rw [wp_bind, wp_getState]
  simp only [sectorSize, drvEraseSector]
  rw [sector_addr hg hs.turn_lt hs.pos_le hi, wp_drvEraseRange (by omega) hg.small (by decide) (by omega)]

theorem Stands.erase (hg : Fits g n ss) (hw : Stands g n w c deviceId turn pos a) {i : ℕ} (hi : i < n) :
    Stands g n { w with flash := w.flash.erase (place n pos turn i * 4096) 4096 } (c.erase (i * 4096) 4096)
      deviceId turn pos a := by
  obtain ⟨hram, ha, hs, hc⟩ := hw
  have hp : place n pos turn i < n + 1 := place_lt hg.pages
  exact ⟨hram, ha, hs.congr hg fun y hy _ => erase_outside (.inr (by omega)),
    (view_erase hi).trans (hc.erase (i * 4096) 4096)⟩

theorem wp_eraseSector (hg : Fits g n ss) (hw : Up g n w c) {i : ℕ} (hi : i < n) :
    wp (Within g n ss c [.erase (i * 4096) 4096]) (fun _ w' => Up g n w' (c.erase (i * 4096) 4096)) (fun _ _ => False)
      (eraseSector g i) w := by
  rw [eraseSector, hw.run_guarded, wp_bind]
  refine wp_mono (wp_updateWL hg hw) (fun _ _ h => h.within _) ?_ fun _ _ h => h
  rintro _ w' ⟨deviceId, turn, pos, a, hw'⟩
  have hup : Up g n { w' with flash := w'.flash.erase (place n pos turn i * 4096) 4096 } (c.erase (i * 4096) 4096) :=
    ⟨deviceId, turn, pos, a, hw'.erase hg hi⟩
  exact (wp_erasePage hg hw' hi).2 ⟨.done hup.durable, hup⟩

/-- A loop over pages. -/
theorem wp_pages {body : ℕ → WlM Unit} {ops : ℕ → List Op} {k : ℕ} (h : ∀ i < k, ∀ c w, Up g n w c →
      wp (Within g n ss c (ops i)) (fun _ w' => Up g n w' (applyOps c (ops i))) (fun _ _ => False) (body i) w)
    (hw : Up g n w c) :
    wp (Within g n ss c ((List.range k).flatMap ops)) (fun _ w' => Up g n w' (applyOps c ((List.range k).flatMap ops)))
      (fun _ _ => False) ((List.range k).foldlM (fun _ i => body i) ()) w := by
  induction k with
  | zero => exact hw
  | succ k ih =>
    rw [List.range_succ, List.foldlM_append, List.flatMap_append, List.flatMap_singleton, wp_bind]
    refine wp_mono (ih fun i hi => h i (by omega)) (fun _ _ h => h.left _) ?_ fun _ _ h => h
    intro _ w' hw'
    have hk := h k (by omega) _ w' hw'
    simp only [List.foldlM_cons, List.foldlM_nil, bind_pure]
    rw [applyOps_append]
    exact wp_mono hk (fun _ _ h => h.right) (fun _ _ h => h) fun _ _ h => h

/-! ### Requests -/

/-- A request of a user of the store. -/
inductive Request where
  | eraseRange (startAddress size : ℕ)
  | write (destAddr : ℕ) (src : ℕ → UInt8) (size : ℕ)
  | read (srcAddr size : ℕ)
  | flush

namespace Request

/-- The request on the store. -/
def run (g : Geometry) : Request → WlM (List UInt8)
  | eraseRange a size => do Wear.eraseRange g a size; return []
  | write a src size => do Wear.write g a src size; return []
  | read a size => Wear.read g a size
  | flush => do Wear.flush g; return []

/-- What the callers keep: whole pages are erased, and a request across pages starts with one. -/
def Legal (n : ℕ) : Request → Prop
  | eraseRange a size => a % 4096 = 0 ∧ size % 4096 = 0 ∧ a + size ≤ n * 4096
  | write a _ size => 0 < size ∧ a + size ≤ n * 4096 ∧ (a % 4096 = 0 ∨ a % 4096 + size ≤ 4096)
  | read a size => 0 < size ∧ a + size ≤ n * 4096 ∧ (a % 4096 = 0 ∨ a % 4096 + size ≤ 4096)
  | flush => True

/-- The bytes of page `i` of a request, of which page `(size - 1) / 4096` is the last. -/
def pageSize (size i : ℕ) : ℕ := if i = (size - 1) / 4096 then size - i * 4096 else 4096

/-- The steps of the request on a flash without wear levelling, one for each page. -/
def ops : Request → List Op
  | eraseRange a size => (List.range (size / 4096)).flatMap fun i => [.erase ((a / 4096 + i) * 4096) 4096]
  | write a src size => (List.range ((size - 1) / 4096 + 1)).flatMap fun i =>
      [.write (a + i * 4096) (Flash.read src (i * 4096) (pageSize size i))]
  | read .. => []
  | flush => []

/-- What the request returns. -/
def answer (c : Flash) : Request → List UInt8
  | read a size => c.read a size
  | _ => []

end Request

/-! ### What the requests do -/

/-- Each page of a request lies in the data and does not reach the next one. -/
theorem page_legal {x size i : ℕ} (h0 : 0 < size) (h1 : x + size ≤ n * 4096) (h2 : x % 4096 = 0 ∨ x % 4096 + size ≤ 4096)
    (hi : i ≤ (size - 1) / 4096) :
    x + i * 4096 < n * 4096 ∧ (x + i * 4096) % 4096 + Request.pageSize size i ≤ 4096 := by
  unfold Request.pageSize
  rw [Nat.add_mul_mod_self_right]
  split_ifs <;> omega

theorem Fits.pieceCount_eq (hg : Fits g n ss) {size : ℕ} (h0 : 0 < size) (h : size ≤ n * 4096) :
    pieceCount size = (size - 1) / 4096 := by
  have hlt := hg.lt
  have hs : size < 2 ^ 32 := by omega
  rw [pieceCount, diff32_eq h0 hs, sectorSize]

theorem Fits.lastSize_eq (hg : Fits g n ss) {size : ℕ} (h : size ≤ n * 4096) :
    diff32 size ((size - 1) / 4096 * 4096) = Request.pageSize size ((size - 1) / 4096) := by
  have hlt := hg.lt
  have hs : size < 2 ^ 32 := by omega
  rw [diff32_eq (by omega) hs, Request.pageSize, if_pos rfl]

theorem wp_eraseRange (hg : Fits g n ss) (hw : Up g n w c) {x size : ℕ} (h : (Request.eraseRange x size).Legal n) :
    wp (Within g n ss c (Request.eraseRange x size).ops) (fun _ w' => Up g n w' (applyOps c (Request.eraseRange x size).ops))
      (fun _ _ => False) (eraseRange g x size) w := by
  obtain ⟨hx, hm, hend⟩ := h
  have hlt := hg.lt
  have hcount : size32 (size + 4096 - 1) / 4096 = size / 4096 := by
    rw [size32_eq (by omega)]
    omega
  rw [eraseRange, hw.run_guarded]
  simp only [sectorSize]
  rw [hcount]
  exact wp_pages (fun i hi c w hw => wp_eraseSector hg hw (by omega)) hw

theorem wp_write (hg : Fits g n ss) (hw : Up g n w c) {x size : ℕ} {src : ℕ → UInt8} (h : (Request.write x src size).Legal n) :
    wp (Within g n ss c (Request.write x src size).ops) (fun _ w' => Up g n w' (applyOps c (Request.write x src size).ops))
      (fun _ _ => False) (write g x src size) w := by
  obtain ⟨h0, h1, h2⟩ := h
  have hpage (i : ℕ) (hi : i ≤ (size - 1) / 4096) {c : Flash} {w : WlWorld} (hw : Up g n w c) :
      wp (Within g n ss c [.write (x + i * 4096) (Flash.read src (i * 4096) (Request.pageSize size i))])
        (fun _ w' => Up g n w' (c.program (x + i * 4096) (Flash.read src (i * 4096) (Request.pageSize size i))))
        (fun _ _ => False) (do
          let st ← getState
          drvWrite g.fullMemSize (calcAddr g st (size32 (x + i * 4096)))
            (Flash.read src (i * 4096) (Request.pageSize size i))) w := by
    obtain ⟨hin, hoff⟩ := page_legal h0 h1 h2 hi
    rw [hg.size32_eq hin.le]
    exact wp_piece hg hw hin (by rwa [length_read])
  rw [write, hw.run_guarded, hg.pieceCount_eq h0 (by omega)]
  simp only [sectorSize]
  rw [hg.lastSize_eq (by omega), wp_bind, Request.ops, List.range_succ, List.flatMap_append, List.flatMap_singleton]
  refine wp_mono (wp_pages (fun i hi c w hw => ?_) hw) (fun _ _ h => h.left _) ?_ fun _ _ h => h
  · have hp : Request.pageSize size i = 4096 := if_neg hi.ne
    have hi := hpage i hi.le hw
    simp only [hp] at hi ⊢
    exact hi
  · intro _ w' hw'
    rw [applyOps_append]
    exact wp_mono (hpage _ le_rfl hw') (fun _ _ h => h.right) (fun _ _ h => h) fun _ _ h => h

/-- A page of the data is read from its place. -/
theorem read_page (hc : Same n (view n turn pos f) c) {x k : ℕ} (hx : x < n * 4096)
    (hk : x % 4096 + k ≤ 4096) : f.read (place n pos turn (x / 4096) * 4096 + x % 4096) k = c.read x k := by
  apply List.map_congr_left
  intro i hi
  have hi : i < k := List.mem_range.1 hi
  rw [← hc (x + i) (by omega), view]
  have hq : (x + i) / 4096 = x / 4096 := by omega
  have hr : (x + i) % 4096 = x % 4096 + i := by omega
  rw [hq, hr, Nat.add_assoc]

theorem wp_read (hg : Fits g n ss) (hw : Up g n w c) {x size : ℕ} (h : (Request.read x size).Legal n)
    {G : WlWorld → Op → Prop} :
    wp G (fun bs w' => bs = c.read x size ∧ w' = w) (fun _ _ => False) (read g x size) w := by
  obtain ⟨h0, h1, h2⟩ := h
  have hpage (i : ℕ) (hi : i ≤ (size - 1) / 4096) {m : ℕ} (hm : Request.pageSize size i = m) {Q : List UInt8 → WlWorld → Prop}
      (hQ : Q (c.read (x + i * 4096) m) w) : wp G Q (fun _ _ => False) (do
        let st ← getState
        drvRead g.fullMemSize (calcAddr g st (size32 (x + i * 4096))) m) w := by
    obtain ⟨hin, hoff⟩ := page_legal h0 h1 h2 hi
    subst hm
    obtain ⟨f, ram⟩ := w
    obtain ⟨deviceId, turn, pos, a, rfl, ha, hs, hc⟩ := hw
    have hp : place n pos turn ((x + i * 4096) / 4096) < n + 1 := place_lt hg.pages
    have hfull := hg.data_le
    rw [hg.size32_eq hin.le, wp_bind, wp_getState]
    simp only
    rw [calcAddr_live hg hs.turn_lt hs.pos_le hin, wp_drvRead (by omega) hg.small, read_page hc hin hoff]
    exact hQ
  rw [read, hw.run_guarded, hg.pieceCount_eq h0 (by omega)]
  simp only [sectorSize]
  rw [hg.lastSize_eq (by omega), wp_bind]
  refine wp_post (wp_range (fun k out w' => out = c.read x (k * 4096) ∧ w' = w) ?_ ⟨rfl, rfl⟩) ?_
  · rintro k hk _ _ ⟨rfl, rfl⟩
    rw [wp_bind]
    apply hpage k hk.le (if_neg hk.ne)
    refine ⟨?_, rfl⟩
    rw [← read_add, Nat.succ_mul]
  · rintro _ _ ⟨rfl, rfl⟩
    rw [wp_bind]
    apply hpage _ le_rfl rfl
    refine ⟨?_, rfl⟩
    have hsum : (size - 1) / 4096 * 4096 + Request.pageSize size ((size - 1) / 4096) = size := by
      rw [Request.pageSize, if_pos rfl]
      omega
    rw [← read_add, hsum]

theorem wp_flush (hg : Fits g n ss) (hw : Up g n w c) :
    wp (Keeps g n ss c) (fun _ w' => Up g n w' c) (fun _ _ => False) (flush g) w := by
  obtain ⟨f, ram⟩ := w
  obtain ⟨deviceId, turn, pos, a, rfl, -, hs, hc⟩ := hw
  rw [flush, wp_bind, wp_getState, wp_bind, wp_setState]
  exact wp_updateWL hg ⟨deviceId, turn, pos, updaterate - 1, rfl, by decide, hs, hc⟩

/-- A legal request succeeds, answers as the data say, and does its steps on the data. -/
theorem Request.wp_run (hg : Fits g n ss) (hw : Up g n w c) {r : Request} (h : r.Legal n) :
    wp (Within g n ss c r.ops) (fun v w' => v = r.answer c ∧ Up g n w' (applyOps c r.ops)) (fun _ _ => False) (r.run g) w := by
  cases r with
  | eraseRange x size =>
    rw [run, wp_bind]
    exact wp_post (wp_eraseRange hg hw h) fun _ _ h => ⟨rfl, h⟩
  | write x src size =>
    rw [run, wp_bind]
    exact wp_post (wp_write hg hw h) fun _ _ h => ⟨rfl, h⟩
  | read x size =>
    refine wp_post (wp_read hg hw h) ?_
    rintro _ _ ⟨rfl, rfl⟩
    exact ⟨rfl, hw⟩
  | flush =>
    rw [run, wp_bind]
    exact wp_mono (wp_flush hg hw) (fun _ _ h => h.within _) (fun _ _ h => ⟨rfl, h⟩) fun _ _ h => h

end Esp8266Sdk.Wear
