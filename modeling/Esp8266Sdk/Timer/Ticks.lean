import Mathlib
import Esp8266Sdk.Timer.Simulation

/-! The ticks of a start. The library divides the microseconds by the length of a
tick, rounding down, and narrows the quotient to 32 bits. The timer is never
programmed short only where neither loses anything, or where nothing is left. -/

namespace Esp8266Sdk.Timer

open Lts

theorem toNat_toTicks (us : UInt64) : (toTicks us).toNat = us.toNat / 10000 % 2 ^ 32 := by
  rw [toTicks, UInt64.toNat_toUInt32, UInt64.toNat_div]
  rfl

/-- The start has no ticks and is rejected, or its ticks last exactly as long as asked. -/
def WholeTicks (us : UInt64) : Prop :=
  us.toNat / 10000 % 2 ^ 32 = 0 ∨ us.toNat % 10000 = 0 ∧ us.toNat / 10000 < 2 ^ 32

instance (us : UInt64) : Decidable (WholeTicks us) := inferInstanceAs (Decidable (_ ∨ _))

/-- The ticks cover the time unless there are none, exactly where it is a whole number of representable ticks. -/
theorem wholeTicks_iff (us : UInt64) : WholeTicks us ↔ toTicks us = 0 ∨ us.toNat ≤ (toTicks us).toNat * 10000 := by
  have h0 : toTicks us = 0 ↔ us.toNat / 10000 % 2 ^ 32 = 0 := by
    rw [← UInt32.toNat_inj, toNat_toTicks]
    rfl
  rw [WholeTicks, h0, toNat_toTicks]
  omega

namespace Sys

variable {s s' : Sys} {r : Running}

/-- `xTimerChangePeriod` gets the period `p` from the start `r` and returns 1. The start goes on to write the
state of the timer and returns 0. -/
structure Hands (s s' : Sys) (r : Running) (p : {p : UInt32 // p ≠ 0}) : Prop where
  queue : s'.queue = s.queue ++ [⟨s.queued, r.timer, .changePeriod p⟩]
  calls : { r with sent := some s.queued } ∈ s'.calls

/-- What the start `c` with `us` microseconds may do in the states reached: it returns -1 and changes nothing, or
it hands over a period that covers the time. A time that no period covers is rejected. -/
structure NeverShort (c : Call) (us : UInt64) : Prop where
  covers : ∀ {n s s' r}, Run Step (fun _ _ => True) (boot n) s → r.call = c → r.sent = none → s.Step (.advance r) s' →
    s' = s.without r ∨ ∃ p, s.Hands s' r p ∧ 1 ≤ p.1.toNat ∧ us.toNat ≤ p.1.toNat * 10000
  rejects : (2 ^ 32 - 1) * 10000 < us.toNat → ∀ {n s s' r}, Run Step (fun _ _ => True) (boot n) s → r.call = c →
    r.sent = none → s.Step (.advance r) s' → s' = s.without r

/-- The first step of a start: it has no ticks or is refused and returns -1, or it hands its ticks over. -/
theorem step_changePeriod {us : UInt64} (hc : r.call.command = changePeriod us) (hsent : r.sent = none)
    (h : s.Step (.advance r) s') :
    s' = s.without r ∨ ∃ hne : toTicks us ≠ 0, s.Hands s' r ⟨toTicks us, hne⟩ := by
  simp only [Step, step] at h
  split at h
  · unfold callStep at h
    rw [hsent, hc, changePeriod] at h
    by_cases h0 : toTicks us = 0
    · rw [dif_pos h0] at h
      exact .inl (Option.some.inj h).symm
    · rw [dif_neg h0] at h
      obtain ⟨x, hx, rfl⟩ := Option.map_eq_some_iff.mp h
      obtain ⟨-, rfl⟩ | ⟨-, rfl⟩ := generic_cases hx
      · exact .inr ⟨h0, rfl, List.mem_cons_self⟩
      · exact .inl rfl
  · cases h

/-- A start on a new timer with an empty queue. -/
theorem exists_hands {c : Call} {us : UInt64} (hc : c.command = changePeriod us) (h0 : toTicks us ≠ 0) :
    ∃ s s' r, Run Step (fun _ _ => True) (boot 1) s ∧ r.call = c ∧ r.sent = none ∧ s.Step (.advance r) s' ∧
      s.Hands s' r ⟨toTicks us, h0⟩ := by
  let r : Running := ⟨.task 0, 0, c, none⟩
  let s₁ : Sys := { (boot 1).setObj 0 ⟨true, .init, .live⟩ with period := Function.update (boot 1).period 0 100 }
  let s : Sys := { s₁ with calls := [r] }
  have hcreate : (boot 1).Step (.create (.task 0) 0 true) s₁ := rfl
  have hcall : s₁.Step (.call (.task 0) 0 c) s := rfl
  have hmem : r ∈ s.calls ∧ (r.caller = .daemon ∨ !s.suspended) := ⟨List.mem_singleton_self r, .inr rfl⟩
  have hcommand : r.call.command = some (.changePeriod ⟨toTicks us, h0⟩) := by rw [hc, changePeriod, dif_neg h0]
  have hstep : s.step (.advance r) = s.callStep r := if_pos hmem
  have hsend : s.callStep r = (s.xTimerGenericCommand 0 (.changePeriod ⟨toTicks us, h0⟩)).map fun x =>
      if x.1 then { x.2.without r with calls := { r with sent := some s.queued } :: (x.2.without r).calls }
      else x.2.without r := by
    unfold callStep
    rw [hcommand]
  exact ⟨s, _, r, (Run.refl.tail trivial hcreate).tail trivial hcall, rfl, rfl, hstep.trans hsend, rfl, List.mem_cons_self⟩

theorem NeverShort.wholeTicks {c : Call} {us : UInt64} (hc : c.command = changePeriod us) (h : NeverShort c us) :
    WholeTicks us := by
  rw [wholeTicks_iff]
  by_cases h0 : toTicks us = 0
  · exact .inl h0
  right
  obtain ⟨s, s', r, hrun, hr, hsent, hstep, hhands⟩ := exists_hands hc h0
  obtain rfl | ⟨p, hp, -, hcovers⟩ := h.covers hrun hr hsent hstep
  · have hq := congrArg List.length hhands.queue
    simp [without] at hq
  · have hq := hhands.queue.symm.trans hp.queue
    obtain rfl : (⟨toTicks us, h0⟩ : {p : UInt32 // p ≠ 0}) = p := by simpa using hq
    exact hcovers

theorem neverShort_of_wholeTicks {c : Call} {us : UInt64} (hc : c.command = changePeriod us) (h : WholeTicks us) :
    NeverShort c us := by
  rw [wholeTicks_iff] at h
  refine ⟨fun _ hr hsent hstep => ?_, fun hlong _ _ _ _ _ hr hsent hstep => ?_⟩
  · obtain hrej | ⟨hne, hhands⟩ := step_changePeriod (hr ▸ hc) hsent hstep
    · exact .inl hrej
    · have hpos : (toTicks us).toNat ≠ 0 := fun e => hne (UInt32.toNat_inj.1 e)
      exact .inr ⟨_, hhands, Nat.one_le_iff_ne_zero.2 hpos, h.resolve_left hne⟩
  · obtain hrej | ⟨hne, -⟩ := step_changePeriod (hr ▸ hc) hsent hstep
    · exact hrej
    · have hle := h.resolve_left hne
      have hlt := (toTicks us).toNat_lt
      omega

/-- A start is never programmed short exactly where its time is a whole number of representable ticks or leaves
no ticks at all. -/
theorem neverShort_iff (us : UInt64) :
    (NeverShort (.startOnce us) us ↔ WholeTicks us) ∧ (NeverShort (.startPeriodic us) us ↔ WholeTicks us) :=
  ⟨⟨fun h => h.wholeTicks rfl, neverShort_of_wholeTicks rfl⟩, fun h => h.wholeTicks rfl, neverShort_of_wholeTicks rfl⟩

/-- A one-shot of 19999 microseconds gets one tick, and a period of `2 ^ 32 + 1` ticks gets one as well. -/
theorem started_short :
    ¬ NeverShort (.startOnce 19999) 19999 ∧ ¬ NeverShort (.startPeriodic 42949672970000) 42949672970000 := by
  constructor
  · exact fun h => absurd (h.wholeTicks rfl) (by decide)
  · exact fun h => absurd (h.wholeTicks rfl) (by decide)

end Sys

end Esp8266Sdk.Timer
