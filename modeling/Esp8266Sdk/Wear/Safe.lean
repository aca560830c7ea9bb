import Esp8266Sdk.Wear.Sectors

/-! The sectors of 512 bytes in safe mode (`WL_Ext_Safe.cpp`). A page is dumped and
a transaction stored before it is erased, and mounting repeats what a power cut
stopped. The last two pages are not the user's: one for the transaction and one for
the dump. -/

namespace Esp8266Sdk.Wear

open Nor Prog Flash
open Nvs (le32 word32)

/-- `WL_EXT_SAFE_OK` -/
def safeOk : UInt32 := 0x12345678

/-- `WL_Ext_Safe_State` -/
@[ext] structure SafeState where
  eraseBegin : UInt32
  localAddrBase : UInt32
  localAddrShift : UInt32
  count : UInt32
  deriving DecidableEq

namespace SafeState

def words (s : SafeState) : List UInt32 := [s.eraseBegin, s.localAddrBase, s.localAddrShift, s.count]

def encode (s : SafeState) : List UInt8 := s.words.flatMap le32

def decode (bs : List UInt8) : SafeState := ⟨word32 bs 0, word32 bs 4, word32 bs 8, word32 bs 12⟩

@[simp] theorem length_encode (s : SafeState) : s.encode.length = 16 := length_words _

theorem decode_encode (s : SafeState) : decode s.encode = s := by
  have hw (i : ℕ) (h : i < 4) : word32 s.encode (4 * i) = s.words.getD i 0 := word32_words _ h
  exact SafeState.ext (hw 0 (by omega)) (hw 1 (by omega)) (hw 2 (by omega)) (hw 3 (by omega))

end SafeState

section Source

variable (g : Geometry)

/-- `state_addr` and `dump_addr` -/
def stateAddr : ℕ := diff32 g.flashSize (2 * sectorSize)
def dumpAddr : ℕ := diff32 g.flashSize sectorSize

/-- `WL_Ext_Safe::erase_sector_fit` -/
def safeEraseSectorFit (startSector count : ℕ) (buf : SectorBuffer) : WlM SectorBuffer := do
  let localAddrBase := startSector / sizeFactor
  let preCheckStart := startSector % sizeFactor
  let buf ← readStaying g localAddrBase preCheckStart count buf
  eraseSector g (dumpAddr g / sectorSize)
  write g (dumpAddr g) buf sectorSize
  let state : SafeState := ⟨safeOk, .ofNat localAddrBase, .ofNat preCheckStart, .ofNat count⟩
  eraseSector g (stateAddr g / sectorSize)
  write g (stateAddr g) (fun x => state.encode.getD x 0) 16
  eraseSector g localAddrBase
  writeStaying g localAddrBase preCheckStart count buf
  eraseSector g (stateAddr g / sectorSize)
  return buf

/-- `WL_Flash::erase_range` of an object whose `erase_sector` is `one`. -/
def eraseRangeBy (one : ℕ → SectorBuffer → WlM SectorBuffer) (startAddress size : ℕ) (buf : SectorBuffer) : WlM SectorBuffer :=
  guarded do
    let eraseCount := size32 (size + sectorSize - 1) / sectorSize
    (List.range eraseCount).foldlM (fun buf i => one (startAddress / sectorSize + i) buf) buf

/-- `recover` -/
def recover (buf : SectorBuffer) : WlM SectorBuffer := do
  let state := SafeState.decode (← read g (stateAddr g) 16)
  if state.eraseBegin = safeOk then do
    let buf := fill buf 0 (← read g (dumpAddr g) sectorSize)
    eraseSector g state.localAddrBase.toNat
    writeStaying g state.localAddrBase.toNat state.localAddrShift.toNat state.count.toNat buf
    -- meant for the page of the transaction, but `erase_sector` is virtual and counts sectors of 512 bytes
    eraseRangeBy (fun sector buf => safeEraseSectorFit g sector 1 buf) (stateAddr g) sectorSize buf
  else return buf

end Source

/-! ### Addresses -/

variable {g : Geometry} {n ss : ℕ} {c c₀ : Flash} {w : WlWorld} {f : Flash}

theorem stateAddr_eq (hg : Fits g n ss) (hn : 3 ≤ n) : stateAddr g = (n - 2) * 4096 := by
  have hlt := hg.lt
  have hle : 2 * 4096 ≤ n * 4096 := by omega
  have hs : n * 4096 < 2 ^ 32 := by omega
  rw [stateAddr, hg.data, sectorSize, diff32_eq hle hs, ← Nat.sub_mul]

theorem dumpAddr_eq (hg : Fits g n ss) (hn : 3 ≤ n) : dumpAddr g = (n - 1) * 4096 := by
  have hlt := hg.lt
  have hle : 4096 ≤ n * 4096 := by omega
  have hs : n * 4096 < 2 ^ 32 := by omega
  rw [dumpAddr, hg.data, sectorSize, diff32_eq hle hs, Nat.sub_one_mul]

/-! ### A whole erase -/

/-- The transaction that is stored. -/
def transaction (startSector count : ℕ) : SafeState :=
  ⟨safeOk, .ofNat (startSector / 8), .ofNat (startSector % 8), .ofNat count⟩

/-- Dump the page and store the transaction, with the transaction at `s` and the dump in the next page. -/
def announceOps (s startSector count : ℕ) (buf : SectorBuffer) : List Op :=
  [.erase (s + 4096) 4096, .write (s + 4096) (Flash.read buf 0 4096), .erase s 4096,
    .write s (transaction startSector count).encode]

/-- The steps of a whole erase. -/
def safeOps (s startSector count : ℕ) (buf : SectorBuffer) : List Op :=
  announceOps s startSector count buf ++ (replaceOps (startSector / 8) (startSector % 8) count buf ++ [.erase s 4096])

theorem read_getD (bs : List UInt8) : Flash.read (fun x => bs.getD x 0) 0 bs.length = bs := by
  rw [read_eq_iff]
  intro i hi
  rw [Nat.zero_add, List.getD_eq_getElem _ _ hi]

theorem Does.safeErase (hg : Fits g n ss) (hn : 3 ≤ n) {startSector count : ℕ} (hs : startSector / 8 < n)
    (buf : SectorBuffer) : Does g n ss c (safeEraseSectorFit g startSector count buf)
      (safeOps ((n - 2) * 4096) startSector count (kept c (startSector / 8) (startSector % 8) count 8 buf))
      fun v => v = kept c (startSector / 8) (startSector % 8) count 8 buf := by
  have hnext : (n - 1) * 4096 = (n - 2) * 4096 + 4096 := by omega
  have hdump : dumpAddr g / 4096 = n - 1 := by
    rw [dumpAddr_eq hg hn, Nat.mul_div_cancel _ (by decide)]
  have hstate : stateAddr g / 4096 = n - 2 := by
    rw [stateAddr_eq hg hn, Nat.mul_div_cancel _ (by decide)]
  have h1 : n - 1 < n := by omega
  have h2 : n - 2 < n := by omega
  have henc := read_getD (transaction startSector count).encode
  rw [SafeState.length_encode] at henc
  unfold safeEraseSectorFit
  simp only [sectorSize]
  rw [hdump, hstate, dumpAddr_eq hg hn, stateAddr_eq hg hn]
  have hwrite (c : Flash) (b : SectorBuffer) : Does g n ss c (Wear.write g ((n - 1) * 4096) b 4096)
      [.write ((n - 1) * 4096) (Flash.read b 0 4096)] fun _ => True :=
    Does.write hg (by decide) (by omega) (by omega)
  have hstore (c : Flash) :
      Does g n ss c (Wear.write g ((n - 2) * 4096) (fun x => (transaction startSector count).encode.getD x 0) 16)
        [.write ((n - 2) * 4096) (transaction startSector count).encode] fun _ => True := by
    have h : Does g n ss c (Wear.write g ((n - 2) * 4096) (fun x => (transaction startSector count).encode.getD x 0) 16)
        [.write ((n - 2) * 4096) (Flash.read (fun x => (transaction startSector count).encode.getD x 0) 0 16)] fun _ => True :=
      Does.write hg (by decide) (by omega) (by omega)
    rwa [henc] at h
  rw [safeOps, announceOps, ← hnext]
  refine Does.bind (l := []) (Does.readStaying hg hs buf) ?_
  rintro _ rfl
  refine (Does.eraseSector hg h1).bind fun _ _ => ?_
  refine (hwrite _ _).bind fun _ _ => ?_
  refine (Does.eraseSector hg h2).bind fun _ _ => ?_
  refine (hstore _).bind fun _ _ => ?_
  refine (Does.eraseSector hg hs).bind fun _ _ => ?_
  refine (Does.writeStaying hg hs _).bind fun _ _ => ?_
  exact (Does.eraseSector hg h2).bind fun _ _ => Does.pure rfl

variable {s startSector count : ℕ} {buf : SectorBuffer}

theorem inside_announce : ∀ op ∈ announceOps s startSector count buf, Inside s (s + 4096 + 4096) op := by
  have hl := SafeState.length_encode (transaction startSector count)
  intro op hop f x hx
  simp only [announceOps, List.mem_cons, List.not_mem_nil, or_false] at hop
  rcases hop with rfl | rfl | rfl | rfl
  · exact erase_outside (by omega)
  · exact program_outside (by rw [length_read]; omega)
  · exact erase_outside (by omega)
  · exact program_outside (by rw [hl]; omega)

/-- A whole erase in safe mode erases its sectors and keeps the user's others. -/
theorem safeEraseSectorFit_erases (hg : Fits g n ss) (hn : 3 ≤ n) : FitErases g n ss (n - 2) (safeEraseSectorFit g) := by
  intro c startSector count buf hs hc
  have haddr := sector_split startSector
  refine ⟨_, _, ?_, Does.safeErase hg hn (by omega) buf⟩
  intro x hx
  have hlast (f : Flash) : applyOps f [.erase ((n - 2) * 4096) 4096] x = f x := erase_outside (.inl hx)
  rw [safeOps, applyOps_append, applyOps_append, hlast, ← haddr]
  exact replaced hc (fun i hi hs => kept_apply hi hs) fun _ => applyOps_outside inside_announce c (.inl hx)

/-! ### What a power cut leaves -/

/-- The transaction is stored, the page is dumped, and nothing but the page has changed. -/
structure Announced (s : ℕ) (c c₀ : Flash) (startSector count : ℕ) : Prop where
  state : c.read s 16 = (transaction startSector count).encode
  dump : ∀ i < 4096, stays (startSector % 8) count (i / 512) → c (s + 4096 + i) = c₀ (startSector / 8 * 4096 + i)
  rest : ∀ x < s, x < startSector / 8 * 4096 ∨ startSector / 8 * 4096 + 4096 ≤ x → c x = c₀ x

theorem announced (hs : startSector / 8 * 4096 + 4096 ≤ s)
    (hbuf : ∀ i < 4096, stays (startSector % 8) count (i / 512) → buf i = c (startSector / 8 * 4096 + i)) {l : List Op}
    (hl : ∀ op ∈ l, Inside (startSector / 8 * 4096) (startSector / 8 * 4096 + 4096) op) :
    Announced s (applyOps (applyOps c (announceOps s startSector count buf)) l) c startSector count := by
  have henc := SafeState.length_encode (transaction startSector count)
  have hout (f : Flash) {x : ℕ} (hx : s ≤ x) : applyOps f l x = f x := applyOps_outside hl f (.inr (hs.trans hx))
  constructor
  · have hread : (applyOps (applyOps c (announceOps s startSector count buf)) l).read s 16 =
        (applyOps c (announceOps s startSector count buf)).read s 16 := read_congr fun x hx _ => hout _ hx
    have hblank (f : Flash) : (f.erase s 4096).read s (transaction startSector count).encode.length =
        blank (transaction startSector count).encode.length := read_erase_inside le_rfl (by rw [henc]; omega)
    have hprog := read_program_blank (hblank ((c.erase (s + 4096) 4096).program (s + 4096) (Flash.read buf 0 4096)))
    rw [henc] at hprog
    rw [hread]
    exact hprog
  · intro i hi hst
    rw [hout _ (by omega), ← hbuf i hi hst]
    change ((((c.erase (s + 4096) 4096).program (s + 4096) (Flash.read buf 0 4096)).erase s 4096).program
      s (transaction startSector count).encode) (s + 4096 + i) = buf i
    have hb : c.erase (s + 4096) 4096 (s + 4096 + i) = 0xff :=
      erase_inside (Nat.le_add_right _ _) (Nat.add_lt_add_left hi _)
    have hil : i < (Flash.read buf 0 4096).length := by
      rw [length_read]
      exact hi
    rw [program_outside (.inr (by rw [henc]; omega)), erase_outside (.inr (by omega)), program_blank hil hb, getD_read, if_pos hi,
      Nat.zero_add]
  · intro x hx hp
    rw [applyOps_outside hl _ hp, applyOps_outside inside_announce c (.inl hx)]

/-! ### Recovering -/

theorem Does.guarded {α : Type} {p : WlM α} {l : List Op} {Q : α → Prop} (h : Does g n ss c p l Q) :
    Does g n ss c (Wear.guarded p) l Q := fun w hw => hw.run_guarded.2 (h w hw)

theorem Does.recover_clean (hg : Fits g n ss) (hn : 3 ≤ n)
    (h : (SafeState.decode (c.read ((n - 2) * 4096) 16)).eraseBegin ≠ safeOk) (buf : SectorBuffer) : Does g n ss c (recover g buf) [] fun _ => True := by
  have hin : (n - 2) * 4096 + 16 ≤ n * 4096 := by omega
  rw [recover, stateAddr_eq hg hn]
  refine Does.bind (l := []) (Does.read hg (by decide) hin (by omega)) ?_
  rintro _ rfl
  rw [if_neg h]
  exact Does.pure trivial

/-- Recovering finishes the erase, and then erases one sector more. -/
theorem Does.recover_announced (hg : Fits g n ss) (hn : 3 ≤ n) (h : Announced ((n - 2) * 4096) c c₀ startSector count)
    (hs : startSector / 8 < n - 2) (hc : startSector % 8 + count ≤ 8) (buf : SectorBuffer) :
    ∃ l, Does g n ss c (recover g buf) l (fun _ => True) ∧
      Same (n - 2) (applyOps c l) ((c₀.erase (startSector * 512) (count * 512)).erase ((n - 2) * 512) 512) := by
  have hlt := hg.lt
  have hnext : (n - 1) * 4096 = (n - 2) * 4096 + 4096 := by omega
  have hin : (n - 2) * 4096 + 16 ≤ n * 4096 := by omega
  have hoff : (n - 2) * 4096 % 4096 + 16 ≤ 4096 := by
    rw [Nat.mul_mod_left]
    decide
  have hend : (n - 2) * 4096 + 4096 + 4096 ≤ n * 4096 := by
    rw [← hnext, ← Nat.succ_mul]
    exact Nat.mul_le_mul_right _ (by omega)
  have hmod : ((n - 2) * 4096 + 4096) % 4096 + 4096 ≤ 4096 :=
    le_of_eq (by rw [Nat.add_mod_right, Nat.mul_mod_left, Nat.zero_add])
  have hbn : startSector / 8 < n := by omega
  have haddr := sector_split startSector
  have hbase : (transaction startSector count).localAddrBase.toNat = startSector / 8 :=
    UInt32.toNat_ofNat_of_lt' (by simp only [UInt32.size]; omega)
  have hshift : (transaction startSector count).localAddrShift.toNat = startSector % 8 :=
    UInt32.toNat_ofNat_of_lt' (by simp only [UInt32.size]; omega)
  have hcount : (transaction startSector count).count.toNat = count :=
    UInt32.toNat_ofNat_of_lt' (by simp only [UInt32.size]; omega)
  have hbuf : ∀ i < 4096, stays (startSector % 8) count (i / 512) →
      fill buf 0 (c.read ((n - 2) * 4096 + 4096) 4096) i = c₀ (startSector / 8 * 4096 + i) := by
    intro i hi hst
    rw [fill, length_read, if_pos (by omega), Nat.sub_zero, getD_read, if_pos hi]
    exact h.dump i hi hst
  set buf' := fill buf 0 (c.read ((n - 2) * 4096 + 4096) 4096)
  set c₁ := applyOps c (replaceOps (startSector / 8) (startSector % 8) count buf')
  have hdone : Same (n - 2) c₁ (c₀.erase (startSector * 512) (count * 512)) := by
    intro x hx
    rw [← haddr]
    exact replaced hc hbuf fun hp => h.rest x hx hp
  -- the sector whose number is that of the page of the transaction
  obtain ⟨l, v, hl, hmore⟩ := safeEraseSectorFit_erases hg hn c₁ (n - 2) 1 buf' (by omega) (by omega)
  refine ⟨replaceOps (startSector / 8) (startSector % 8) count buf' ++ l, ?_, ?_⟩
  · have hone : size32 (4096 + 4096 - 1) / 4096 = 1 := by decide
    rw [recover, stateAddr_eq hg hn, dumpAddr_eq hg hn, hnext]
    refine Does.bind (l := []) (Does.read hg (by decide) hin hoff) ?_
    rintro _ rfl
    have hok : (transaction startSector count).eraseBegin = safeOk := rfl
    rw [applyOps_nil, h.state, SafeState.decode_encode]
    simp only [sectorSize]
    rw [if_pos hok, hbase, hshift, hcount]
    refine Does.bind (l := []) (Does.read hg (by decide) hend hmod) fun bs hbs => ?_
    rw [hbs]
    refine (Does.eraseSector hg hbn).bind fun _ _ => ?_
    refine (Does.writeStaying hg hbn _).bind fun _ _ => ?_
    refine Does.guarded ?_
    simp only [sectorSize]
    rw [hone, Nat.mul_div_cancel _ (by decide)]
    simp only [List.range_one, List.foldlM_cons, List.foldlM_nil, bind_pure, Nat.add_zero]
    exact hmore.post fun _ _ => trivial
  · rw [applyOps_append]
    exact hl.trans (hdone.erase _ _)

/-! ### Power cuts -/

/-- No transaction is stored at `s`. -/
def Clean (s : ℕ) (c : Flash) : Prop := (SafeState.decode (c.read s 16)).eraseBegin ≠ safeOk

theorem Announced.not_clean (h : Announced s c c₀ startSector count) : ¬ Clean s c := by
  rw [Clean, h.state, SafeState.decode_encode]
  exact not_not.2 rfl

theorem clean_erased (f : Flash) (s : ℕ) : Clean s (f.erase s 4096) := by
  have hb : (f.erase s 4096).read s 16 = blank 16 := read_erase_inside le_rfl (by omega)
  rw [Clean, hb]
  decide

/-- What the data are behind some of the steps of an erase. -/
theorem safeOps_take (hclean : Clean s c) (hs : startSector / 8 * 4096 + 4096 ≤ s) (hc : startSector % 8 + count ≤ 8)
    (hbuf : ∀ i < 4096, stays (startSector % 8) count (i / 512) → buf i = c (startSector / 8 * 4096 + i)) (j : ℕ) :
    Clean s (applyOps c ((safeOps s startSector count buf).take j)) ∧
        ((∀ x < s, applyOps c ((safeOps s startSector count buf).take j) x = c x) ∨
          ∀ x < s, applyOps c ((safeOps s startSector count buf).take j) x = c.erase (startSector * 512) (count * 512) x) ∨
      Announced s (applyOps c ((safeOps s startSector count buf).take j)) c startSector count := by
  have hlen : (announceOps s startSector count buf).length = 4 := rfl
  rcases Nat.lt_or_ge j 4 with hj | hj
  · -- the transaction is not stored yet
    left
    rw [safeOps, List.take_append_of_le_length (by omega)]
    refine ⟨?_, .inl fun x hx => applyOps_outside (fun op hop => inside_announce op (List.mem_of_mem_take hop)) c (.inl hx)⟩
    rcases Nat.lt_or_ge j 3 with h3 | h3
    · have hr : (applyOps c ((announceOps s startSector count buf).take j)).read s 16 = c.read s 16 := by
        refine read_congr fun x _ hx => applyOps_outside (a := s + 4096) (b := s + 4096 + 4096) ?_ c (.inl (by omega))
        intro op hop f y hy
        have htwo : (announceOps s startSector count buf).take 2 =
          [.erase (s + 4096) 4096, .write (s + 4096) (Flash.read buf 0 4096)] := rfl
        have hop := List.take_subset_take_left _ (show j ≤ 2 by omega) hop
        rw [htwo] at hop
        simp only [List.mem_cons, List.not_mem_nil, or_false] at hop
        rcases hop with rfl | rfl
        · exact erase_outside hy
        · refine program_outside ?_
          rw [length_read]
          exact hy
      rw [Clean, hr]
      exact hclean
    · obtain rfl : j = 3 := by omega
      exact clean_erased _ s
  · rw [safeOps, applyOps_take_append _ _ _ (by omega), hlen]
    rcases Nat.lt_or_ge (replaceOps (startSector / 8) (startSector % 8) count buf).length (j - 4) with h | h
    · -- the transaction is cleared again
      left
      rw [List.take_of_length_le (by rw [List.length_append, List.length_singleton]; omega), applyOps_append]
      refine ⟨clean_erased _ s, .inr fun x hx => ?_⟩
      have hlast (f : Flash) : applyOps f [.erase s 4096] x = f x := erase_outside (.inl hx)
      rw [hlast, ← sector_split startSector]
      exact replaced hc hbuf fun _ => applyOps_outside inside_announce c (.inl hx)
    · right
      rw [List.take_append_of_le_length h]
      exact announced hs hbuf fun op hop => inside_replace op (List.mem_of_mem_take hop)

theorem Does.run {α : Type} {p : WlM α} {l : List Op} {Q : α → Prop} (h : Does g n ss c p l Q) (hw : Up g n w c) :
    ∃ v w', p.run w = (.ok v, w') ∧ Up g n w' (applyOps c l) := by
  have hspec := Prog.wp_run (h w hw)
  rcases hr : p.run w with ⟨e | v, w'⟩
  · rw [hr] at hspec
    exact hspec.elim
  · rw [hr] at hspec
    exact ⟨v, w', rfl, hspec.2⟩

end Esp8266Sdk.Wear
