import Esp8266Sdk.Wear.State
import Esp8266Sdk.Wear.Rotation

/-! The invariant of the wear levelling. A partition holds `n + 1` pages of data,
two copies of the state, and the configuration. On a settled flash both copies
are the same and the records behind the first one tell the position; while the
copies are rewritten, the first one is right and the second one is not. -/

namespace Esp8266Sdk.Wear

open Nor Prog Flash
open Nvs (le32 crc32_le)

/-- The geometry of `n` pages with `ss` sectors for a copy of the state. -/
structure Fits (g : Geometry) (n ss : ℕ) : Prop where
  pages : 0 < n
  data : g.flashSize = n * 4096
  copies : g.stateSize = ss * 4096
  first : g.addrState1 = (n + 1) * 4096
  second : g.addrState2 = (n + 1 + ss) * 4096
  cfg : g.addrCfg = (n + 1 + 2 * ss) * 4096
  cfgSize : g.cfgSize = 4096
  full : g.fullMemSize = (n + 2 + 2 * ss) * 4096
  records : 64 + 16 * (n + 2 + 2 * ss) ≤ ss * 4096
  small : g.fullMemSize ≤ 2 ^ 24

theorem diff32_eq {a b : ℕ} (h : b ≤ a) (ha : a < 2 ^ 32) : diff32 a b = a - b := by
  rw [diff32, size32, size32, Nat.mod_eq_of_lt (by omega : b < 2 ^ 32)]
  omega

/-- The bytes before the copies of the state. -/
theorem diff32_data {k ss : ℕ} (h : 2 * ss + 3 ≤ k) (hk : k ≤ 4096) :
    diff32 (diff32 (k * 4096) (ss * 4096 * 2)) 4096 = (k - 2 * ss - 1) * 4096 := by
  rw [diff32_eq (show ss * 4096 * 2 ≤ k * 4096 by omega) (by omega), diff32_eq (by omega) (by omega)]
  omega

theorem diff32_copy {k ss : ℕ} (h : 2 * ss + 3 ≤ k) (hk : k ≤ 4096) :
    diff32 (diff32 (k * 4096) (ss * 4096)) 4096 = (k - ss - 1) * 4096 := by
  rw [diff32_eq (show ss * 4096 ≤ k * 4096 by omega) (by omega), diff32_eq (by omega) (by omega)]
  omega

theorem ok_of_ite {ε α : Type} {c : Prop} [Decidable c] {e : ε} {a b : α} (h : (if c then .error e else .ok a) = Except.ok b) :
    ¬ c ∧ a = b := by
  by_cases hc : c
  · rw [if_pos hc] at h
    cases h
  · rw [if_neg hc] at h
    exact ⟨hc, Except.ok.inj h⟩

theorem config_fits {size : ℕ} {g : Geometry} (hm : size % 4096 = 0) (hs : size ≤ 2 ^ 24) (h : config size = .ok g) :
    ∃ n ss, Fits g n ss := by
  obtain ⟨k, rfl⟩ : ∃ k, size = k * 4096 := ⟨size / 4096, by omega⟩
  have hk : k ≤ 4096 := by omega
  unfold config at h
  simp only [stateBytes, sectorSize, wrSize, configBytes, Nat.mul_div_cancel _ (show 0 < 4096 by decide)] at h
  set need := size32 (64 + k * 16) with hneed
  have hn : need = 64 + k * 16 := by
    rw [hneed, size32]
    omega
  set state := if 4096 < need then size32 (need + 4096 - 1) / 4096 * 4096 else 4096 with hstate
  obtain ⟨ss, hss, hlo, hhi⟩ : ∃ ss, state = ss * 4096 ∧ 64 + 16 * k ≤ ss * 4096 ∧ ss ≤ 17 := by
    rw [hstate]
    split_ifs with hlt
    · refine ⟨size32 (need + 4096 - 1) / 4096, rfl, ?_, ?_⟩ <;> rw [size32] <;> omega
    · exact ⟨1, rfl, by omega, by omega⟩
  rw [hss] at h
  clear_value state need
  clear hstate hneed
  obtain ⟨hbad, e⟩ := ok_of_ite h
  have hroom : 2 * ss + 3 ≤ k := by
    by_contra hlt
    simp only [diff32, size32] at hbad
    exact hbad (by omega)
  clear h hbad
  rw [diff32_data hroom hk, diff32_copy hroom hk, diff32_eq (show 4096 ≤ k * 4096 by omega) (by omega)] at e
  have hpages : diff32 ((k - 2 * ss - 1) * 4096 / 4096) 1 = k - 2 * ss - 2 := by
    rw [Nat.mul_div_cancel _ (by decide), diff32_eq (by omega) (by omega)]
    omega
  rw [hpages] at e
  clear hpages
  subst e
  refine ⟨k - 2 * ss - 2, ss, ?_⟩
  exact {
    pages := by omega
    data := Nat.mod_eq_of_lt (by omega)
    copies := rfl
    first := by dsimp only; omega
    second := by dsimp only; omega
    cfg := by dsimp only; omega
    cfgSize := rfl
    full := by dsimp only; omega
    records := by omega
    small := hs }

/-! ### Steps of the driver -/

section Driver

variable {α : Type} {G : WlWorld → Op → Prop} {E : EspErr → WlWorld → Prop} {size a k : ℕ} {w : WlWorld}

theorem wp_drvRead {Q : List UInt8 → WlWorld → Prop} (h : a + k ≤ size) (hs : size ≤ 2 ^ 24) :
    wp G Q E (drvRead size a k) w ↔ Q (w.flash.read a k) w := by
  rw [drvRead, if_neg (by omega), if_neg (by rw [size32]; omega)]
  exact Iff.rfl

theorem wp_drvWrite {Q : Unit → WlWorld → Prop} {bs : List UInt8} (h : a + bs.length ≤ size) (hs : size ≤ 2 ^ 24) :
    wp G Q E (drvWrite size a bs) w ↔ G w (.write a bs) ∧ Q () { w with flash := w.flash.program a bs } := by
  rw [drvWrite, if_neg (by omega), if_neg (by rw [size32]; omega)]
  exact Iff.rfl

theorem wp_drvEraseRange {Q : Unit → WlWorld → Prop} (h : a + k ≤ size) (hs : size ≤ 2 ^ 24) (hk : k % 4096 = 0)
    (ha : a % 4096 = 0) :
    wp G Q E (drvEraseRange size a k) w ↔ G w (.erase a k) ∧ Q () { w with flash := w.flash.erase a k } := by
  rw [drvEraseRange, if_neg (by omega), if_neg (by rw [size32]; omega), if_neg (by rw [sectorSize]; omega),
    if_neg (by rw [sectorSize]; omega)]
  exact Iff.rfl

theorem wp_getState {Q : WlState → WlWorld → Prop} : wp G Q E getState w ↔ Q w.ram.state w := Iff.rfl

theorem wp_setState {Q : Unit → WlWorld → Prop} {st : WlState} :
    wp G Q E (setState st) w ↔ Q () { w with ram := { w.ram with state := st } } := Iff.rfl

end Driver

/-! ### What is stored -/

variable {g : Geometry} {n ss : ℕ}

/-- The state in RAM. -/
def live (n : ℕ) (deviceId : UInt32) (turn pos : ℕ) (accessCount : UInt32) : WlState :=
  { stored n deviceId turn with pos := .ofNat pos, accessCount }

/-- The records of the positions before `pos`. That of the last position may stand before its move is stored. -/
structure Records (f : Flash) (addr n : ℕ) (deviceId : UInt32) (pos : ℕ) : Prop where
  set : ∀ i < pos, f.read (recordAddr addr i) wrSize = okBuff deviceId i
  unset : ∀ i, pos ≤ i → i < n → f.read (recordAddr addr i) wrSize = blank wrSize
  last : pos ≤ n → f.read (recordAddr addr n) wrSize = blank wrSize ∨ f.read (recordAddr addr n) wrSize = okBuff deviceId n

/-- Both copies hold the state, and the records tell the position. -/
structure Settled (g : Geometry) (n : ℕ) (f : Flash) (deviceId : UInt32) (turn pos : ℕ) : Prop where
  turn_lt : turn < n
  pos_le : pos ≤ n
  first : f.read g.addrState1 stateBytes = (stored n deviceId turn).encode
  second : f.read g.addrState2 stateBytes = (stored n deviceId turn).encode
  records : Records f g.addrState1 n deviceId pos

/-- The first copy has been rewritten, the second one has not. -/
structure Pending (g : Geometry) (n ss : ℕ) (f : Flash) (deviceId : UInt32) (turn : ℕ) : Prop where
  turn_lt : turn < n
  first : f.read g.addrState1 stateBytes = (stored n deviceId turn).encode
  second : f.read g.addrState2 stateBytes = blank stateBytes ∨
    ∃ old < n, f.read g.addrState2 stateBytes = (stored n deviceId old).encode
  empty : f.read (g.addrState1 + stateBytes) (ss * 4096 - stateBytes) = blank (ss * 4096 - stateBytes)

/-! ### Frames -/

variable {f f' : Flash} {deviceId : UInt32} {turn pos : ℕ}

theorem Records.congr {addr : ℕ} (h : Records f addr n deviceId pos) (hp : pos ≤ n)
    (e : ∀ x, addr + stateBytes ≤ x → x < addr + stateBytes + (n + 1) * wrSize → f' x = f x) :
    Records f' addr n deviceId pos := by
  have hr (i : ℕ) (hi : i ≤ n) : f'.read (recordAddr addr i) wrSize = f.read (recordAddr addr i) wrSize :=
    read_congr fun x h1 h2 => by
      simp only [recordAddr, stateBytes, wrSize] at *
      exact e x (by omega) (by omega)
  constructor
  · intro i hi
    rw [hr i (by omega), h.set i hi]
  · intro i h1 h2
    rw [hr i h2.le, h.unset i h1 h2]
  · intro _
    rw [hr n le_rfl]
    exact h.last hp

/-- A settled flash stays so while the first copy with its records and the second copy stay. -/
theorem Settled.congr (hg : Fits g n ss) (h : Settled g n f deviceId turn pos)
    (e : ∀ x, (n + 1) * 4096 ≤ x → x < (n + 1 + ss) * 4096 + 64 → f' x = f x) : Settled g n f' deviceId turn pos := by
  have h1 := hg.first
  have h2 := hg.second
  have hr := hg.records
  constructor
  · exact h.turn_lt
  · exact h.pos_le
  · rw [← h.first]
    exact read_congr fun x hx hx' => e x (by omega) (by simp only [stateBytes] at *; omega)
  · rw [← h.second]
    exact read_congr fun x hx hx' => e x (by omega) (by simp only [stateBytes] at *; omega)
  · refine h.records.congr h.pos_le fun x hx hx' => ?_
    simp only [stateBytes, wrSize] at *
    exact e x (by omega) (by omega)

theorem Pending.congr (hg : Fits g n ss) (h : Pending g n ss f deviceId turn)
    (e : ∀ x, (n + 1) * 4096 ≤ x → x < (n + 1 + ss) * 4096 + 64 → f' x = f x) : Pending g n ss f' deviceId turn := by
  have h1 := hg.first
  have h2 := hg.second
  have hr := hg.records
  have hs : f'.read g.addrState2 stateBytes = f.read g.addrState2 stateBytes :=
    read_congr fun x hx hx' => e x (by omega) (by simp only [stateBytes] at *; omega)
  constructor
  · exact h.turn_lt
  · rw [← h.first]
    exact read_congr fun x hx hx' => e x (by omega) (by simp only [stateBytes] at *; omega)
  · rw [hs]
    exact h.second
  · rw [← h.empty]
    exact read_congr fun x hx hx' => e x (by simp only [stateBytes] at *; omega) (by simp only [stateBytes] at *; omega)

/-! ### Steps on the copies -/

/-- The records stay apart. -/
theorem read_record_other {addr i j : ℕ} (h : i ≠ j) (bs : List UInt8) (hb : bs.length = wrSize) :
    (f.program (recordAddr addr j) bs).read (recordAddr addr i) wrSize = f.read (recordAddr addr i) wrSize := by
  apply read_program_outside
  simp only [recordAddr, wrSize] at *
  omega

/-- Storing the record of the position. -/
theorem Settled.record (hg : Fits g n ss) (h : Settled g n f deviceId turn pos) :
    Settled g n (f.program (recordAddr g.addrState1 pos) (okBuff deviceId pos)) deviceId turn (min (pos + 1) n) := by
  have h1 := hg.first
  have h2 := hg.second
  have hr := hg.records
  have hp := h.pos_le
  have hself (hb : f.read (recordAddr g.addrState1 pos) wrSize = blank wrSize) :
      (f.program (recordAddr g.addrState1 pos) (okBuff deviceId pos)).read (recordAddr g.addrState1 pos) wrSize =
        okBuff deviceId pos := read_program_blank hb
  constructor
  · exact h.turn_lt
  · exact min_le_right _ _
  · rw [read_program_outside (.inl (by simp only [recordAddr]; omega)), h.first]
  · rw [read_program_outside (.inr (by simp only [recordAddr, length_okBuff, stateBytes, wrSize]; omega)), h.second]
  · constructor
    · intro i hi
      by_cases hip : i = pos
      · subst hip
        exact hself (h.records.unset i le_rfl (by omega))
      · rw [read_record_other hip _ (length_okBuff _ _)]
        exact h.records.set i (by omega)
    · intro i hi hin
      rw [read_record_other (by omega) _ (length_okBuff _ _)]
      exact h.records.unset i (by omega) hin
    · intro _
      by_cases hpn : n = pos
      · subst hpn
        rcases h.records.last hp with hl | hl
        · exact .inr (hself hl)
        · exact .inr (read_program_same hl)
      · rw [read_record_other hpn _ (length_okBuff _ _)]
        exact h.records.last hp

/-- The first copy is written, with a new turn or for the first time. -/
theorem rewrite_first (hg : Fits g n ss) (ht : turn < n) (h : f.read g.addrState2 stateBytes = blank stateBytes ∨
      ∃ old < n, f.read g.addrState2 stateBytes = (stored n deviceId old).encode) :
    Pending g n ss ((f.erase g.addrState1 g.stateSize).program g.addrState1 (stored n deviceId turn).encode) deviceId turn := by
  have h1 := hg.first
  have h2 := hg.second
  have h3 := hg.copies
  have hr := hg.records
  have hl : (stored n deviceId turn).encode.length = stateBytes := WlState.length_encode _
  constructor
  · exact ht
  · have hb : (f.erase g.addrState1 g.stateSize).read g.addrState1 (stored n deviceId turn).encode.length =
        blank (stored n deviceId turn).encode.length :=
      read_erase_inside le_rfl (by rw [hl, stateBytes]; omega)
    have e := read_program_blank hb
    rwa [hl] at e
  · rwa [read_program_outside (.inr (by rw [hl, stateBytes]; omega)), read_erase_outside (.inr (by omega))]
  · rw [read_program_outside (.inr (by rw [hl])), read_erase_inside (by omega) (by rw [stateBytes]; omega)]

theorem Settled.rewrite {old : ℕ} (hg : Fits g n ss) (h : Settled g n f deviceId old pos) (ht : turn < n) :
    Pending g n ss ((f.erase g.addrState1 g.stateSize).program g.addrState1 (stored n deviceId turn).encode) deviceId turn :=
  rewrite_first hg ht (.inr ⟨old, h.turn_lt, h.second⟩)

/-- The second copy erased. -/
theorem Pending.erase (hg : Fits g n ss) (h : Pending g n ss f deviceId turn) :
    Pending g n ss (f.erase g.addrState2 g.stateSize) deviceId turn := by
  have h1 := hg.first
  have h2 := hg.second
  have h3 := hg.copies
  have hr := hg.records
  constructor
  · exact h.turn_lt
  · rw [read_erase_outside (.inl (by rw [stateBytes]; omega)), h.first]
  · exact .inl (read_erase_inside le_rfl (by rw [stateBytes]; omega))
  · rw [read_erase_outside (.inl (by rw [stateBytes]; omega)), h.empty]

/-- No position is recorded behind a copy just written. -/
theorem Pending.records (hg : Fits g n ss) (h : Pending g n ss f deviceId turn) {i : ℕ}
    (hi : recordAddr g.addrState1 i + wrSize ≤ g.addrState2) : f.read (recordAddr g.addrState1 i) wrSize = blank wrSize := by
  have h1 := hg.first
  have h2 := hg.second
  have hr := hg.records
  have he := read_eq_blank_iff.1 h.empty
  refine read_eq_blank_iff.2 fun x hx hx' => he x ?_ ?_ <;> simp only [recordAddr, stateBytes, wrSize] at * <;> omega

/-- Both copies are the same again. -/
theorem Pending.rewrite (hg : Fits g n ss) (h : Pending g n ss f deviceId turn) :
    Settled g n ((f.erase g.addrState2 g.stateSize).program g.addrState2 (stored n deviceId turn).encode) deviceId turn 0 := by
  have h1 := hg.first
  have h2 := hg.second
  have h3 := hg.copies
  have hr := hg.records
  have hl : (stored n deviceId turn).encode.length = stateBytes := WlState.length_encode _
  have hrec (i : ℕ) (hi : i ≤ n) :
      ((f.erase g.addrState2 g.stateSize).program g.addrState2 (stored n deviceId turn).encode).read
        (recordAddr g.addrState1 i) wrSize = blank wrSize := by
    have hle : recordAddr g.addrState1 i + wrSize ≤ g.addrState2 := by
      simp only [recordAddr, stateBytes, wrSize]
      omega
    rw [read_program_outside (.inl hle), read_erase_outside (.inl hle)]
    exact h.records hg hle
  constructor
  · exact h.turn_lt
  · exact Nat.zero_le n
  · rw [read_program_outside (.inl (by rw [stateBytes]; omega)), read_erase_outside (.inl (by rw [stateBytes]; omega)), h.first]
  · have hb : (f.erase g.addrState2 g.stateSize).read g.addrState2 (stored n deviceId turn).encode.length =
        blank (stored n deviceId turn).encode.length :=
      read_erase_inside le_rfl (by rw [hl, stateBytes]; omega)
    have e := read_program_blank hb
    rwa [hl] at e
  · exact ⟨fun i hi => absurd hi (Nat.not_lt_zero i), fun i _ hi => hrec i hi.le, fun _ => .inl (hrec n le_rfl)⟩

end Esp8266Sdk.Wear
