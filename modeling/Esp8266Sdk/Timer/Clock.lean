import Mathlib

/-! `esp_timer_get_time`. Its clock is split between the microseconds that the tick
handler adds up and the cycle counter that it resets. The handler divides the
counter by `g_esp_ticks_per_us`, the library always by 80. -/

namespace Esp8266Sdk.Timer

/-- `CPU_CLK_FREQ`, in Hz -/
def cpuClkFreq : UInt32 := 80 * 1000000

/-- `os_update_cpu_frequency`: `g_esp_ticks_per_us`, by the `DPORT_CTL_DOUBLE_CLK` bit. -/
def osUpdateCpuFrequency (doubleClk : Bool) : UInt32 :=
  if doubleClk then cpuClkFreq * 2 / 1000000 else cpuClkFreq / 1000000

structure Clock where
  g_esp_os_us : UInt64
  /-- the cycle counter -/
  ccount : UInt32
  g_esp_ticks_per_us : UInt32
  deriving DecidableEq

namespace Clock

/-- `CONFIG_ESP8266_DEFAULT_CPU_FREQ_MHZ` -/
def defaultCpuFreqMhz : UInt32 := 80

/-- `xPortSysTickHandle`, as far as the time goes. -/
def xPortSysTickHandle (s : Clock) : Clock :=
  { s with g_esp_os_us := s.g_esp_os_us + (s.ccount / s.g_esp_ticks_per_us).toUInt64, ccount := 0 }

def espTimerGetTime (s : Clock) : Int64 :=
  (s.g_esp_os_us + (s.ccount / defaultCpuFreqMhz).toUInt64).toInt64

inductive Event
  /-- the processor runs for some cycles -/
  | cycles (n : ℕ)
  /-- the tick interrupt -/
  | tick

/-- The counter does not wrap. -/
def step (s : Clock) : Event → Option Clock
  | .cycles n => if s.ccount.toNat + n < 2 ^ 32 then some { s with ccount := s.ccount + .ofNat n } else none
  | .tick => some s.xPortSysTickHandle

/-- The clock after the events. -/
def after (s : Clock) (l : List Event) : Option Clock := l.foldlM step s

def Event.count : Event → ℕ
  | .cycles n => n
  | .tick => 0

def Event.ticks : Event → ℕ
  | .cycles _ => 0
  | .tick => 1

/-- The cycles that pass. -/
def cycles (l : List Event) : ℕ := (l.map Event.count).sum

/-- The tick interrupts. -/
def ticks (l : List Event) : ℕ := (l.map Event.ticks).sum

/-- The time until then can be represented. -/
def Fits (s : Clock) (l : List Event) : Prop := s.g_esp_os_us.toNat + (s.ccount.toNat + cycles l) / 80 < 2 ^ 63

instance (s : Clock) (l : List Event) : Decidable (s.Fits l) := inferInstanceAs (Decidable (_ < _))

/-- What the time does at `k` cycles a microsecond, from any clock on: it does not go back, and it follows the
cycles, up to a microsecond and one for each tick. -/
def Steady (k : UInt32) : Prop := ∀ (s s' : Clock) (l : List Event), s.g_esp_ticks_per_us = k → s.Fits l →
  s.after l = some s' → s.espTimerGetTime ≤ s'.espTimerGetTime ∧
    |k.toNat * (s'.espTimerGetTime.toInt - s.espTimerGetTime.toInt) - cycles l| ≤ k.toNat * (1 + ticks l)

/-! ### At 80 cycles a microsecond -/

variable {s s' : Clock} {l : List Event} {e : Event}

/-- The microseconds that `esp_timer_get_time` adds up. -/
def micros (s : Clock) : ℕ := s.g_esp_os_us.toNat + s.ccount.toNat / 80

/-- The cycles counted. A tick forgets those that are no whole microsecond. -/
def elapsed (s : Clock) : ℕ := s.g_esp_os_us.toNat * 80 + s.ccount.toNat

theorem toInt_espTimerGetTime (h : s.micros < 2 ^ 63) : s.espTimerGetTime.toInt = s.micros := by
  have hdiv : (s.ccount / defaultCpuFreqMhz).toUInt64.toNat = s.ccount.toNat / 80 := by
    rw [UInt32.toNat_toUInt64, UInt32.toNat_div]
    rfl
  have hsum : (s.g_esp_os_us + (s.ccount / defaultCpuFreqMhz).toUInt64).toNat = s.micros := by
    rw [UInt64.toNat_add, hdiv]
    exact Nat.mod_eq_of_lt (by rw [← micros]; omega)
  have hlt : 2 * (s.g_esp_os_us + (s.ccount / defaultCpuFreqMhz).toUInt64).toNat < 2 ^ 64 := by omega
  rw [espTimerGetTime, ← hsum]
  exact BitVec.toInt_eq_toNat_of_lt hlt

/-- What one event does to the time and to the cycles counted. -/
theorem step_steady (hk : s.g_esp_ticks_per_us = 80) (hfits : s.elapsed + e.count < 80 * 2 ^ 63)
    (h : s.step e = some s') : s'.g_esp_ticks_per_us = 80 ∧ s.micros ≤ s'.micros ∧
      s'.elapsed ≤ s.elapsed + e.count ∧ s.elapsed + e.count ≤ s'.elapsed + 79 * e.ticks := by
  simp only [elapsed, micros] at hfits ⊢
  cases e with
  | cycles n =>
    simp only [step] at h
    split at h
    · cases h
      have hadd : (s.ccount + .ofNat n).toNat = s.ccount.toNat + n := by
        rw [UInt32.toNat_add, UInt32.toNat_ofNat']
        omega
      simp only [hadd, Event.count, Event.ticks]
      exact ⟨hk, by omega, by omega, by omega⟩
    · cases h
  | tick =>
    cases h
    have hdiv : (s.ccount / s.g_esp_ticks_per_us).toUInt64.toNat = s.ccount.toNat / 80 := by
      rw [UInt32.toNat_toUInt64, UInt32.toNat_div, hk]
      rfl
    have hadd : (s.g_esp_os_us + (s.ccount / s.g_esp_ticks_per_us).toUInt64).toNat =
        s.g_esp_os_us.toNat + s.ccount.toNat / 80 := by
      rw [UInt64.toNat_add, hdiv]
      omega
    have h0 : (0 : UInt32).toNat = 0 := rfl
    simp only [xPortSysTickHandle, hadd, h0, Event.count, Event.ticks]
    exact ⟨hk, by omega, by omega, by omega⟩

theorem after_steady (hk : s.g_esp_ticks_per_us = 80) (hfits : s.elapsed + cycles l < 80 * 2 ^ 63)
    (h : s.after l = some s') : s.micros ≤ s'.micros ∧
      s'.elapsed ≤ s.elapsed + cycles l ∧ s.elapsed + cycles l ≤ s'.elapsed + 79 * ticks l := by
  induction l generalizing s with
  | nil =>
    cases h
    exact ⟨le_rfl, le_rfl, le_rfl⟩
  | cons e l ih =>
    rw [after, List.foldlM_cons] at h
    obtain ⟨u, hu, hl⟩ := Option.bind_eq_some_iff.1 h
    have hc : cycles (e :: l) = e.count + cycles l := rfl
    have ht : ticks (e :: l) = e.ticks + ticks l := rfl
    obtain ⟨hk', hmono, hle, hge⟩ := step_steady hk (by omega) hu
    obtain ⟨hmono', hle', hge'⟩ := ih hk' (by omega) hl
    exact ⟨hmono.trans hmono', by omega, by omega⟩

/-- `esp_timer_get_time` is steady exactly where the clock is not doubled. -/
theorem steady_iff (doubleClk : Bool) : Steady (osUpdateCpuFrequency doubleClk) ↔ doubleClk = false := by
  cases doubleClk with
  | true =>
    refine iff_of_false (fun h => ?_) nofun
    -- 160 cycles count as two microseconds, then the tick adds one
    have hback := (h ⟨0, 160, 160⟩ ⟨1, 0, 160⟩ [.tick] rfl (by decide) rfl).1
    exact absurd hback (by decide)
  | false =>
    refine iff_of_true (fun s s' l hk hfits h => ?_) rfl
    have hk : s.g_esp_ticks_per_us = 80 := hk
    have hbound : s.elapsed + cycles l < 80 * 2 ^ 63 := by
      rw [Fits] at hfits
      rw [elapsed]
      omega
    obtain ⟨hmono, hle, hge⟩ := after_steady hk hbound h
    have hs : s.micros < 2 ^ 63 := by
      rw [elapsed] at hbound
      rw [micros]
      omega
    have hs' : s'.micros < 2 ^ 63 := by
      have hlt := hle.trans_lt hbound
      rw [elapsed] at hlt
      rw [micros]
      omega
    rw [Int64.le_iff_toInt_le, toInt_espTimerGetTime hs, toInt_espTimerGetTime hs', abs_le]
    have hk80 : (osUpdateCpuFrequency false).toNat = 80 := rfl
    rw [hk80]
    simp only [elapsed] at hle hge
    simp only [micros] at hmono ⊢
    exact ⟨by omega, by push_cast; omega, by push_cast; omega⟩

/-- At 160 cycles a microsecond: 240 cycles after the start the time is 3, after the tick it is 1. -/
theorem time_goes_back : ∃ s s' : Clock, (Clock.mk 0 0 (osUpdateCpuFrequency true)).after [.cycles 240] = some s ∧
    s.after [.tick] = some s' ∧ s.espTimerGetTime = 3 ∧ s'.espTimerGetTime = 1 :=
  ⟨⟨0, 240, 160⟩, ⟨1, 0, 160⟩, by decide, by decide, by decide, by decide⟩

end Clock

end Esp8266Sdk.Timer
