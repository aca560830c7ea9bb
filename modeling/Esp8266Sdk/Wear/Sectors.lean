import Esp8266Sdk.Wear.Refinement

/-! The wear levelling with sectors of 512 bytes (`WL_Ext_Perf.cpp`), eight in a page
of the flash. The sectors of a page that are not erased with the others are read into
a buffer and written back. The buffer keeps what it held before where nothing is read. -/

namespace Esp8266Sdk.Wear

open Nor Prog Flash

/-- `fat_sector_size`, which is `CONFIG_WL_SECTOR_SIZE` -/
def fatSectorSize : ℕ := 512
/-- `size_factor` -/
def sizeFactor : ℕ := sectorSize / fatSectorSize

/-- `sector_buffer` -/
abbrev SectorBuffer := ℕ → UInt8

/-- Read bytes into the buffer. -/
def fill (buf : SectorBuffer) (off : ℕ) (bs : List UInt8) : SectorBuffer := fun x =>
  if off ≤ x ∧ x < off + bs.length then bs.getD (x - off) 0 else buf x

/-- Sector `i` of a page, of which `count` sectors from `start` on are erased, stays. -/
def stays (start count i : ℕ) : Bool := i < start || i ≥ size32 (count + start)

section Source

variable (g : Geometry)

/-- Read the sectors of page `base` that stay. -/
def readStaying (base start count : ℕ) (buf : SectorBuffer) : WlM SectorBuffer :=
  (List.range sizeFactor).foldlM (fun buf i =>
    if stays start count i then do
      let bs ← read g (size32 (base * sectorSize + i * fatSectorSize)) fatSectorSize
      return fill buf (i * fatSectorSize) bs
    else return buf) buf

/-- Write them back. -/
def writeStaying (base start count : ℕ) (buf : SectorBuffer) : WlM Unit :=
  (List.range sizeFactor).foldlM (fun _ i =>
    if stays start count i then
      write g (size32 (base * sectorSize + i * fatSectorSize)) (fun x => buf (i * fatSectorSize + x)) fatSectorSize
    else return ()) ()

/-- `WL_Ext_Perf::erase_sector_fit` -/
def eraseSectorFit (startSector count : ℕ) (buf : SectorBuffer) : WlM SectorBuffer := do
  let preCheckStart := startSector % sizeFactor
  let buf ← readStaying g (startSector / sizeFactor) preCheckStart count buf
  eraseSector g (startSector / sizeFactor)
  writeStaying g (startSector / sizeFactor) preCheckStart count buf
  return buf

/-- Erase sectors, if there are any to erase. -/
def fitSome (fit : ℕ → ℕ → SectorBuffer → WlM SectorBuffer) (startSector count : ℕ) (buf : SectorBuffer) : WlM SectorBuffer :=
  if count ≠ 0 then fit startSector count buf else pure buf

/-- `WL_Ext_Perf::erase_range` of an object whose `erase_sector_fit` is `fit`. -/
def eraseRangeFit (fit : ℕ → ℕ → SectorBuffer → WlM SectorBuffer) (startAddress size : ℕ) (buf : SectorBuffer) :
    WlM SectorBuffer :=
  if startAddress % fatSectorSize ≠ 0 ∨ size % fatSectorSize ≠ 0 ∨ size = 0 then .fail espErrInvalidArg
  else do
    let preCheckStart := startAddress / fatSectorSize % sizeFactor
    let sectorsCount := size / fatSectorSize
    let preCheckCount := min (sizeFactor - preCheckStart) sectorsCount
    let postCheckCount := (sectorsCount - preCheckCount) % sizeFactor
    let postCheckStart := (startAddress + size - postCheckCount * fatSectorSize) / fatSectorSize
    let restCheckCount := sectorsCount - preCheckCount - postCheckCount
    let whole := preCheckCount = sizeFactor ∧ preCheckStart = 0
    let restCheckCount := if whole then restCheckCount + sizeFactor else restCheckCount
    let preCheckCount := if whole then 0 else preCheckCount
    let restCheckStart := startAddress + preCheckCount * fatSectorSize
    let buf ← fitSome fit (startAddress / fatSectorSize) preCheckCount buf
    (List.range (restCheckCount / sizeFactor)).foldlM (fun _ i => eraseSector g (restCheckStart / sectorSize + i)) ()
    fitSome fit postCheckStart postCheckCount buf

end Source

/-! ### Programs on the data -/

variable {g : Geometry} {n ss : ℕ} {c c' : Flash} {w : WlWorld} {α β : Type} {l l' : List Op}

/-- The program does the steps `l` on the data `c` and ends in `Q`. -/
def Does (g : Geometry) (n ss : ℕ) (c : Flash) (p : WlM α) (l : List Op) (Q : α → Prop) : Prop :=
  ∀ w, Up g n w c → wp (Within g n ss c l) (fun v w' => Q v ∧ Up g n w' (applyOps c l)) (fun _ _ => False) p w

theorem Does.pure {Q : α → Prop} {v : α} (h : Q v) : Does g n ss c (pure v) [] Q := fun _ hw => ⟨h, hw⟩

theorem Does.post {p : WlM α} {Q R : α → Prop} (h : Does g n ss c p l Q) (hQ : ∀ v, Q v → R v) : Does g n ss c p l R :=
  fun w hw => wp_post (h w hw) fun _ _ h => ⟨hQ _ h.1, h.2⟩

theorem Does.bind {p : WlM α} {k : α → WlM β} {Q : α → Prop} {R : β → Prop} (hp : Does g n ss c p l Q)
    (hk : ∀ v, Q v → Does g n ss (applyOps c l) (k v) l' R) : Does g n ss c (p >>= k) (l ++ l') R := by
  intro w hw
  rw [wp_bind]
  refine wp_mono (hp w hw) (fun _ _ h => h.left _) ?_ fun _ _ h => h
  rintro v w' ⟨hv, hw'⟩
  rw [applyOps_append]
  exact wp_mono (hk v hv w' hw') (fun _ _ h => h.right) (fun _ _ h => h) fun _ _ h => h

/-- A loop whose passes do the steps `ops`. -/
theorem Does.range {body : ℕ → WlM Unit} {ops : ℕ → List Op} {k : ℕ}
    (h : ∀ i < k, ∀ c, Does g n ss c (body i) (ops i) fun _ => True) :
    Does g n ss c ((List.range k).foldlM (fun _ i => body i) ()) ((List.range k).flatMap ops) fun _ => True := by
  intro w hw
  have hbody (i : ℕ) (hi : i < k) (c : Flash) (w : WlWorld) (hw : Up g n w c) :
      wp (Within g n ss c (ops i)) (fun _ w' => Up g n w' (applyOps c (ops i))) (fun _ _ => False) (body i) w :=
    wp_post (h i hi c w hw) fun _ _ h => h.2
  exact wp_post (wp_pages hbody hw) fun _ _ h => ⟨trivial, h⟩

theorem Does.eraseSector (hg : Fits g n ss) {i : ℕ} (hi : i < n) :
    Does g n ss c (eraseSector g i) [.erase (i * 4096) 4096] fun _ => True :=
  fun _ hw => wp_post (wp_eraseSector hg hw hi) fun _ _ h => ⟨trivial, h⟩

/-- A request inside a page is one step. -/
theorem ops_write {x size : ℕ} {src : ℕ → UInt8} (h0 : 0 < size) (h : size ≤ 4096) :
    (Request.write x src size).ops = [.write x (Flash.read src 0 size)] := by
  have hq : (size - 1) / 4096 = 0 := by omega
  have hp : Request.pageSize size 0 = size := if_pos hq.symm
  simp only [Request.ops, hq, Nat.zero_add, List.range_one, List.flatMap_singleton, Nat.zero_mul, Nat.add_zero, hp]

theorem Does.write (hg : Fits g n ss) {x size : ℕ} {src : ℕ → UInt8} (h0 : 0 < size) (hx : x + size ≤ n * 4096)
    (h : x % 4096 + size ≤ 4096) : Does g n ss c (write g x src size) [.write x (Flash.read src 0 size)] fun _ => True := by
  intro w hw
  have hl : (Request.write x src size).Legal n := ⟨h0, hx, .inr h⟩
  rw [← ops_write h0 (by omega)]
  exact wp_post (wp_write hg hw hl) fun _ _ h => ⟨trivial, h⟩

theorem Does.read (hg : Fits g n ss) {x size : ℕ} (h0 : 0 < size) (hx : x + size ≤ n * 4096) (h : x % 4096 + size ≤ 4096) :
    Does g n ss c (Wear.read g x size) [] fun bs => bs = c.read x size := by
  intro w hw
  have hl : (Request.read x size).Legal n := ⟨h0, hx, .inr h⟩
  refine wp_post (wp_read hg hw hl) ?_
  rintro _ _ ⟨rfl, rfl⟩
  exact ⟨rfl, hw⟩

/-! ### The sectors that stay -/

/-- The buffer with the staying ones of the first `k` sectors of a page. -/
def kept (c : Flash) (base start count k : ℕ) (buf : SectorBuffer) : SectorBuffer := fun x =>
  if x < k * 512 ∧ stays start count (x / 512) then c (base * 4096 + x) else buf x

/-- The steps that write them back. -/
def backOps (base start count : ℕ) (buf : SectorBuffer) (i : ℕ) : List Op :=
  if stays start count i then [.write (base * 4096 + i * 512) (Flash.read (fun x => buf (i * 512 + x)) 0 512)] else []

/-- One sector more, where it is not the one in question. -/
theorem below_succ {k x : ℕ} {P : Prop} (h : x / 512 = k → ¬ P) : (x < k * 512 ∧ P) ↔ (x < (k + 1) * 512 ∧ P) := by
  constructor
  · exact fun hx => ⟨by omega, hx.2⟩
  · intro hx
    have hne : x / 512 ≠ k := fun hq => h hq hx.2
    exact ⟨by omega, hx.2⟩

theorem kept_succ {base start count k : ℕ} {buf : SectorBuffer} (h : stays start count k = true) :
    fill (kept c base start count k buf) (k * 512) (c.read (base * 4096 + k * 512) 512) =
      kept c base start count (k + 1) buf := by
  funext x
  rw [fill, length_read]
  by_cases hx : k * 512 ≤ x ∧ x < k * 512 + 512
  · obtain ⟨i, rfl⟩ := Nat.exists_eq_add_of_le hx.1
    have hi : i < 512 := by omega
    have hq : (k * 512 + i) / 512 = k := by omega
    rw [if_pos hx, Nat.add_sub_cancel_left, getD_read, if_pos hi, kept, hq, if_pos ⟨by omega, h⟩, Nat.add_assoc]
  · have hq : x / 512 ≠ k := by omega
    rw [if_neg hx, kept, kept, if_congr (below_succ fun h => absurd h hq) rfl rfl]

theorem kept_skip {base start count k : ℕ} {buf : SectorBuffer} (h : ¬ stays start count k = true) :
    kept c base start count k buf = kept c base start count (k + 1) buf := by
  funext x
  rw [kept, kept, if_congr (below_succ fun hq => hq ▸ h) rfl rfl]

theorem kept_zero {base start count : ℕ} {buf : SectorBuffer} : kept c base start count 0 buf = buf := by
  funext x
  rw [kept, if_neg fun h => Nat.not_lt_zero x (by simpa using h.1)]

/-- The address of sector `i` of a page. -/
theorem Fits.sector_eq (hg : Fits g n ss) {base i : ℕ} (hb : base < n) (hi : i < 8) :
    size32 (base * 4096 + i * 512) = base * 4096 + i * 512 := hg.size32_eq (by omega)

theorem Does.readStaying (hg : Fits g n ss) {base start count : ℕ} (hb : base < n) (buf : SectorBuffer) :
    Does g n ss c (readStaying g base start count buf) [] fun buf' => buf' = kept c base start count 8 buf := by
  intro w hw
  have h8 : sizeFactor = 8 := rfl
  rw [Wear.readStaying, h8]
  refine wp_post (wp_range (fun k buf' w' => buf' = kept c base start count k buf ∧ Up g n w' c) ?_ ⟨kept_zero.symm, hw⟩)
    fun _ _ h => h
  rintro k hk _ w' ⟨rfl, hw'⟩
  by_cases hs : stays start count k = true
  · rw [if_pos hs, wp_bind]
    simp only [sectorSize, fatSectorSize]
    rw [hg.sector_eq hb hk]
    have hread : Does g n ss c (Wear.read g (base * 4096 + k * 512) 512) [] fun bs => bs = c.read (base * 4096 + k * 512) 512 :=
      Does.read hg (by decide) (by omega) (by omega)
    refine wp_post (hread w' hw') fun bs w'' h => ?_
    obtain ⟨hbs, hw''⟩ := h
    rw [hbs]
    exact ⟨kept_succ hs, hw''⟩
  · rw [if_neg hs]
    exact ⟨kept_skip hs, hw'⟩

theorem Does.writeStaying (hg : Fits g n ss) {base start count : ℕ} (hb : base < n) (buf : SectorBuffer) :
    Does g n ss c (writeStaying g base start count buf) ((List.range 8).flatMap (backOps base start count buf))
      fun _ => True := by
  have h8 : sizeFactor = 8 := rfl
  rw [Wear.writeStaying, h8]
  refine Does.range fun i hi c => ?_
  by_cases hs : stays start count i = true
  · rw [if_pos hs, backOps, if_pos hs]
    simp only [sectorSize, fatSectorSize]
    rw [hg.sector_eq hb hi]
    exact Does.write hg (by decide) (by omega) (by omega)
  · rw [if_neg hs, backOps, if_neg hs]
    exact Does.pure trivial

/-- What lies outside of `a` to `b` is not touched. -/
def Inside (a b : ℕ) (op : Op) : Prop := ∀ (f : Flash) (x : ℕ), x < a ∨ b ≤ x → op.apply f x = f x

theorem applyOps_outside {a b : ℕ} (h : ∀ op ∈ l, Inside a b op) (f : Flash) {x : ℕ} (hx : x < a ∨ b ≤ x) :
    applyOps f l x = f x := by
  induction l generalizing f with
  | nil => rfl
  | cons op l ih =>
    rw [applyOps_cons, ih fun o ho => h o (List.mem_cons_of_mem _ ho)]
    exact h op List.mem_cons_self f x hx

theorem inside_back {base start count k : ℕ} {buf : SectorBuffer} (hk : k ≤ 8) :
    ∀ op ∈ (List.range k).flatMap (backOps base start count buf), Inside (base * 4096) (base * 4096 + 4096) op := by
  intro op hop
  obtain ⟨i, hi, hop⟩ := List.mem_flatMap.1 hop
  have hi : i < k := List.mem_range.1 hi
  by_cases hs : stays start count i = true
  · rw [backOps, if_pos hs, List.mem_singleton] at hop
    subst hop
    have hend : i * 512 + 512 ≤ 4096 := by omega
    intro f x hx
    refine program_outside ?_
    rw [length_read]
    exact hx.imp (fun h => Nat.lt_add_right _ h) fun h => by rw [Nat.add_assoc]; exact le_trans (Nat.add_le_add_left hend _) h
  · rw [backOps, if_neg hs] at hop
    exact absurd hop List.not_mem_nil

/-- The data while the staying sectors of an erased page are written back. -/
theorem applyOps_back (c : Flash) (base start count : ℕ) (buf : SectorBuffer) {k i : ℕ} (hk : k ≤ 8) (hi : i < 4096) :
    applyOps (c.erase (base * 4096) 4096) ((List.range k).flatMap (backOps base start count buf)) (base * 4096 + i) =
      if i < k * 512 ∧ stays start count (i / 512) then buf i else 0xff := by
  induction k with
  | zero => rw [List.range_zero, List.flatMap_nil, applyOps_nil, erase_inside (by omega) (by omega), if_neg (by omega)]
  | succ k ih =>
    have ih := ih (by omega)
    rw [List.range_succ, List.flatMap_append, List.flatMap_singleton, applyOps_append]
    by_cases hs : stays start count k = true
    · rw [backOps, if_pos hs, applyOps_cons, applyOps_nil, Op.apply_write]
      by_cases hq : i / 512 = k
      · obtain ⟨j, rfl⟩ := Nat.exists_eq_add_of_le (show k * 512 ≤ i by omega)
        have hj : j < 512 := by omega
        have e : base * 4096 + (k * 512 + j) = base * 4096 + k * 512 + j := (Nat.add_assoc _ _ _).symm
        have hin : (k * 512 + j < (k + 1) * 512 ∧ stays start count ((k * 512 + j) / 512) = true) := ⟨by omega, by rwa [hq]⟩
        rw [e, program_inside (by rwa [length_read]), ← e, ih, if_neg (by omega), getD_read, if_pos hj, ff_and, if_pos hin,
          Nat.zero_add]
      · have hout : base * 4096 + i < base * 4096 + k * 512 ∨ base * 4096 + k * 512 + 512 ≤ base * 4096 + i := by omega
        rw [program_outside (by rwa [length_read]), ih, if_congr (below_succ fun h => absurd h hq) rfl rfl]
    · rw [backOps, if_neg hs, applyOps_nil, ih, if_congr (below_succ fun h => h ▸ hs) rfl rfl]

/-- Erase a page and write back what stays. -/
def replaceOps (base start count : ℕ) (buf : SectorBuffer) : List Op :=
  .erase (base * 4096) 4096 :: (List.range 8).flatMap (backOps base start count buf)

theorem inside_replace {base start count : ℕ} {buf : SectorBuffer} :
    ∀ op ∈ replaceOps base start count buf, Inside (base * 4096) (base * 4096 + 4096) op := by
  intro op hop
  rcases List.mem_cons.1 hop with rfl | hop
  · exact fun f x hx => erase_outside hx
  · exact inside_back le_rfl op hop

/-- The sectors are erased, where the buffer has the old bytes of those that stay. -/
theorem replaced {c₀ : Flash} {base start count : ℕ} {buf : SectorBuffer} (hc : start + count ≤ 8)
    (hbuf : ∀ i < 4096, stays start count (i / 512) → buf i = c₀ (base * 4096 + i)) {x : ℕ}
    (hout : x < base * 4096 ∨ base * 4096 + 4096 ≤ x → c x = c₀ x) :
    applyOps c (replaceOps base start count buf) x = c₀.erase (base * 4096 + start * 512) (count * 512) x := by
  have hsum : size32 (count + start) = count + start := size32_eq (by omega)
  by_cases hp : base * 4096 ≤ x ∧ x < base * 4096 + 4096
  · obtain ⟨i, rfl⟩ := Nat.exists_eq_add_of_le hp.1
    have hi : i < 4096 := by omega
    rw [replaceOps, applyOps_cons, Op.apply_erase, applyOps_back c base start count _ le_rfl hi]
    have hs : stays start count (i / 512) = true ↔ i / 512 < start ∨ i / 512 ≥ count + start := by
      rw [stays, hsum, Bool.or_eq_true, decide_eq_true_eq, decide_eq_true_eq]
    by_cases h : i / 512 < start ∨ i / 512 ≥ count + start
    · rw [if_pos ⟨hi, hs.2 h⟩, hbuf i hi (hs.2 h), erase_outside (by omega)]
    · rw [if_neg fun hx => h (hs.1 hx.2), erase_inside (by omega) (by omega)]
  · have hx : x < base * 4096 ∨ base * 4096 + 4096 ≤ x := by omega
    have hend : start * 512 + count * 512 ≤ 4096 := by omega
    have hx' : x < base * 4096 + start * 512 ∨ base * 4096 + start * 512 + count * 512 ≤ x :=
      hx.imp (fun h => Nat.lt_add_right _ h) fun h => by rw [Nat.add_assoc]; exact le_trans (Nat.add_le_add_left hend _) h
    rw [applyOps_outside inside_replace _ hx, hout hx, erase_outside hx']

theorem kept_apply {base start count i : ℕ} {buf : SectorBuffer} (hi : i < 4096) (hs : stays start count (i / 512)) :
    kept c base start count 8 buf i = c (base * 4096 + i) := if_pos ⟨hi, hs⟩

/-! ### Erasing ranges of sectors -/

/-- The program erases `k` bytes at `a` and changes nothing else in the first `N` pages. -/
def Erases (g : Geometry) (n ss N : ℕ) (c : Flash) (p : WlM α) (a k : ℕ) : Prop :=
  ∃ l v, Same N (applyOps c l) (c.erase a k) ∧ Does g n ss c p l fun v' => v' = v

theorem erase_append (c : Flash) (a k k' : ℕ) : (c.erase a k).erase (a + k) k' = c.erase a (k + k') := by
  funext x
  rw [erase_apply, erase_apply, erase_apply]
  split_ifs <;> first | rfl | omega

theorem erase_none (c : Flash) (a : ℕ) : c.erase a 0 = c := by
  funext x
  rw [erase_apply, if_neg (by omega)]

theorem Erases.pure {N a : ℕ} {v : α} : Erases g n ss N c (pure v : WlM α) a 0 :=
  ⟨[], v, fun x _ => by rw [applyOps_nil, erase_none], Does.pure rfl⟩

/-- One range behind the other. -/
theorem Erases.bind {N a k k' : ℕ} {p : WlM α} {q : α → WlM β} (hp : Erases g n ss N c p a k)
    (hq : ∀ c v, Erases g n ss N c (q v) (a + k) k') : Erases g n ss N c (p >>= q) a (k + k') := by
  obtain ⟨l, v, hl, hp⟩ := hp
  obtain ⟨l', v', hl', hq⟩ := hq (applyOps c l) v
  refine ⟨l ++ l', v', ?_, Does.bind hp ?_⟩
  · rw [applyOps_append, ← erase_append]
    exact hl'.trans (hl.erase _ _)
  · rintro _ rfl
    exact hq

theorem Erases.pages (hg : Fits g n ss) {N b m : ℕ} (hb : b + m ≤ n) :
    Erases g n ss N c ((List.range m).foldlM (fun _ i => eraseSector g (b + i)) ()) (b * 4096) (m * 4096) := by
  induction m with
  | zero =>
    rw [Nat.zero_mul]
    exact Erases.pure
  | succ m ih =>
    have hlast (c : Flash) : Erases g n ss N c (eraseSector g (b + m)) (b * 4096 + m * 4096) 4096 := by
      have hin : b + m < n := by omega
      refine ⟨[.erase ((b + m) * 4096) 4096], (), ?_, (Does.eraseSector hg hin).post fun _ _ => rfl⟩
      rw [Nat.add_mul]
      exact fun _ _ => rfl
    rw [List.range_succ, List.foldlM_append, Nat.succ_mul]
    refine (ih (by omega)).bind fun c _ => ?_
    simp only [List.foldlM_cons, List.foldlM_nil, bind_pure]
    exact hlast c

/-- What `erase_sector_fit` is for. -/
def FitErases (g : Geometry) (n ss N : ℕ) (fit : ℕ → ℕ → SectorBuffer → WlM SectorBuffer) : Prop :=
  ∀ c startSector count buf, startSector / 8 < N → startSector % 8 + count ≤ 8 →
    Erases g n ss N c (fit startSector count buf) (startSector * 512) (count * 512)

/-- A sector and its page. -/
theorem sector_split (q : ℕ) : q / 8 * 4096 + q % 8 * 512 = q * 512 := by omega

theorem eraseSectorFit_erases (hg : Fits g n ss) : FitErases g n ss n (eraseSectorFit g) := by
  intro c startSector count buf hs hc
  have haddr := sector_split startSector
  set buf' := kept c (startSector / 8) (startSector % 8) count 8 buf
  refine ⟨[] ++ (replaceOps (startSector / 8) (startSector % 8) count buf' ++ []), buf', ?_, ?_⟩
  · intro x _
    rw [List.nil_append, List.append_nil, replaced hc (fun i hi hs => kept_apply hi hs) fun _ => rfl, haddr]
  · refine (Does.readStaying hg hs buf).bind ?_
    rintro _ rfl
    exact (Does.eraseSector hg hs).bind fun _ _ => (Does.writeStaying hg hs _).bind fun _ _ => Does.pure rfl

theorem fitSome_erases {N : ℕ} {fit : ℕ → ℕ → SectorBuffer → WlM SectorBuffer} (hfit : FitErases g n ss N fit)
    {startSector count : ℕ} (hs : count ≠ 0 → startSector / 8 < N ∧ startSector % 8 + count ≤ 8) (buf : SectorBuffer) :
    Erases g n ss N c (fitSome fit startSector count buf) (startSector * 512) (count * 512) := by
  by_cases h : count = 0
  · rw [fitSome, if_neg (not_not.2 h), h, Nat.zero_mul]
    exact Erases.pure
  · rw [fitSome, if_pos h]
    exact hfit c startSector count buf (hs h).1 (hs h).2

/-- Any range of sectors is erased, with the sectors before it and behind it in their pages kept. -/
theorem eraseRangeFit_erases (hg : Fits g n ss) {N : ℕ} (hN : N ≤ n) {fit : ℕ → ℕ → SectorBuffer → WlM SectorBuffer}
    (hfit : FitErases g n ss N fit) {startAddress size : ℕ} (h0 : startAddress % 512 = 0) (h1 : size % 512 = 0) (h2 : 0 < size)
    (h3 : startAddress + size ≤ N * 4096) (buf : SectorBuffer) :
    Erases g n ss N c (eraseRangeFit g fit startAddress size buf) startAddress size := by
  obtain ⟨q, rfl⟩ : ∃ q, startAddress = q * 512 := ⟨startAddress / 512, by omega⟩
  obtain ⟨m, rfl⟩ : ∃ m, size = m * 512 := ⟨size / 512, by omega⟩
  unfold eraseRangeFit
  rw [if_neg (by simp only [fatSectorSize]; omega)]
  simp only [fatSectorSize, sizeFactor, sectorSize, Nat.mul_div_cancel _ (show 0 < 512 by decide), Nat.reduceDiv]
  set pre := if min (8 - q % 8) m = 8 ∧ q % 8 = 0 then 0 else min (8 - q % 8) m with hpre
  set post := (m - min (8 - q % 8) m) % 8 with hpost
  set rest := if min (8 - q % 8) m = 8 ∧ q % 8 = 0 then m - min (8 - q % 8) m - post + 8
    else m - min (8 - q % 8) m - post with hrest
  have hsum : pre + rest / 8 * 8 + post = m := by
    split_ifs at hpre hrest <;> omega
  have hfirst : q % 8 + pre ≤ 8 := by
    split_ifs at hpre <;> omega
  have hrest0 : rest / 8 ≠ 0 → (q + pre) % 8 = 0 := by
    split_ifs at hpre hrest <;> omega
  have hpost0 : post ≠ 0 → (q + pre) % 8 = 0 := by
    split_ifs at hpre <;> omega
  have hpost8 : post < 8 := Nat.mod_lt _ (by decide)
  clear_value pre post rest
  have hlen : m * 512 = pre * 512 + (rest / 8 * 4096 + post * 512) := by omega
  rw [hlen]
  have h3' : q + pre + rest / 8 * 8 + post ≤ N * 8 := by omega
  refine Erases.bind ?_ fun c buf => Erases.bind ?_ fun c _ => ?_
  · -- the sectors before the first whole page
    exact fitSome_erases hfit (fun h => ⟨by omega, hfirst⟩) buf
  · by_cases h : rest / 8 = 0
    · rw [h, Nat.zero_mul]
      exact Erases.pure
    · have hq : (q * 512 + pre * 512) / 4096 = (q + pre) / 8 := by
        omega
      have hd : (q + pre) / 8 * 8 = q + pre := Nat.div_mul_cancel (Nat.dvd_of_mod_eq_zero (hrest0 h))
      have ha : (q + pre) / 8 * 4096 = q * 512 + pre * 512 :=
        calc (q + pre) / 8 * 4096 = (q + pre) / 8 * 8 * 512 := by ring
          _ = q * 512 + pre * 512 := by rw [hd, Nat.add_mul]
      have hb : (q + pre) / 8 + rest / 8 ≤ n := by omega
      rw [hq]
      have hp : Erases g n ss N c _ _ _ := Erases.pages hg hb
      rwa [ha] at hp
  · -- and those behind the last one
    have hstart : q * 512 + pre * 512 + rest / 8 * 4096 = (q + pre + rest / 8 * 8) * 512 := by ring
    have hall : q * 512 + (pre * 512 + (rest / 8 * 4096 + post * 512)) = (q + pre + rest / 8 * 8) * 512 + post * 512 := by ring
    rw [hall, Nat.add_sub_cancel, Nat.mul_div_cancel _ (by decide), hstart]
    refine fitSome_erases hfit (fun h => ?_) buf
    have h8 := hpost0 h
    exact ⟨by omega, by omega⟩

theorem Erases.run {N a k : ℕ} {p : WlM α} (h : Erases g n ss N c p a k) (hw : Up g n w c) :
    ∃ v w' c', p.run w = (.ok v, w') ∧ Up g n w' c' ∧ Same N c' (c.erase a k) := by
  obtain ⟨l, v, hl, hp⟩ := h
  have hspec := Prog.wp_run (hp w hw)
  rcases hr : p.run w with ⟨e | v', w'⟩
  · rw [hr] at hspec
    exact hspec.elim
  · rw [hr] at hspec
    exact ⟨v', w', _, rfl, hspec.2, hl⟩

/-- Exactly the sectors asked for are erased, and a request that is not of whole sectors is refused. -/
theorem eraseRange_sectors (hg : Fits g n ss) (hw : Up g n w c) {startAddress size : ℕ} (h : startAddress + size ≤ n * 4096)
    (buf : SectorBuffer) :
    if startAddress % 512 = 0 ∧ size % 512 = 0 ∧ 0 < size then
      ∃ v w' c', (eraseRangeFit g (eraseSectorFit g) startAddress size buf).run w = (.ok v, w') ∧ Up g n w' c' ∧
        Same n c' (c.erase startAddress size)
    else (eraseRangeFit g (eraseSectorFit g) startAddress size buf).run w = (.error espErrInvalidArg, w) := by
  split_ifs with hok
  · obtain ⟨h0, h1, h2⟩ := hok
    exact (eraseRangeFit_erases hg le_rfl (eraseSectorFit_erases hg) h0 h1 h2 h buf).run hw
  · have hbad : startAddress % fatSectorSize ≠ 0 ∨ size % fatSectorSize ≠ 0 ∨ size = 0 := by
      simp only [fatSectorSize]
      omega
    rw [eraseRangeFit, if_pos hbad]
    rfl

theorem eraseRange_sectors_smallest : ∃ g n w c v w' c', config 20480 = .ok g ∧ Up g n w c ∧
    (eraseRangeFit g (eraseSectorFit g) 512 1024 fun _ => 0).run w = (.ok v, w') ∧ Up g n w' c' ∧
    Same n c' (c.erase 512 1024) := by
  obtain ⟨g, h⟩ := config_smallest
  obtain ⟨n, ss, w, hg, -, -, hup⟩ := erased_up (by decide) (by decide) h
  have hn := hg.pages
  have hr := eraseRange_sectors hg hup (show 512 + 1024 ≤ n * 4096 by omega) fun _ => 0
  rw [if_pos (by decide)] at hr
  obtain ⟨v, w', c', hr⟩ := hr
  exact ⟨_, n, w, _, v, w', c', h, hup, hr⟩

end Esp8266Sdk.Wear
