import Esp8266Sdk.Timer.Periodic

/-! The daemon as a sender. It is the only task that receives from the timer
queue, so that a send of `esp_timer_callback` to a full queue never ends. -/

namespace Esp8266Sdk.Timer

open Lts

/-- `esp_timer_callback` has decided on a command and has not sent it. -/
def Wrapper.sending : Wrapper → Bool
  | .stamp => true
  | .sendReset _ => true
  | .sendStop => true
  | .sendDelete => true
  | _ => false

namespace Sys

/-- The daemon has decided on a command, and the scheduler runs, so that the send waits for room. -/
def sending (s : Sys) : Bool :=
  match s.daemon with
  | .callback _ _ pc => pc.sending && !s.suspended
  | _ => false

/-- The daemon waits for room in the queue. -/
def Blocked (s : Sys) : Prop :=
  (∃ site t pc, s.daemon = .callback site t pc ∧ pc.command ≠ none) ∧ s.suspended = false ∧
    s.uxLength ≤ s.queue.length

/-- The state that `esp_timer_callback` is about to read makes it send a command. -/
def decides (s : Sys) : Bool :=
  match s.daemon with
  | .callback _ t .tail => (s.objs t).state.wrapper.isSome && !s.suspended
  | _ => false

/-- A step that does not go wrong. `esp_timer_callback` decides on a command with room in the queue, and until it has
sent it no task takes the last place. -/
def RoomOk (s : Sys) : Act → Prop
  | .daemon => s.decides → s.queue.length < s.uxLength
  | .advance r => s.sending → r.sent = none → s.queue.length + 1 < s.uxLength
  | _ => True

instance (s : Sys) : DecidablePred s.RoomOk
  | .daemon | .advance _ => inferInstanceAs (Decidable (_ → _))
  | .tick | .create .. | .call .. => inferInstanceAs (Decidable True)

/-- What was decided on can be sent. -/
def Room (s : Sys) : Prop := s.sending → s.queue.length < s.uxLength

variable {s s' : Sys}

theorem Room.not_blocked (h : s.Room) : ¬ s.Blocked := by
  rintro ⟨⟨site, t, pc, hd, hc⟩, hsus, hfull⟩
  have hsend : s.sending = true := by
    simp only [sending, hd, hsus]
    cases pc <;> first | rfl | exact absurd rfl hc
  exact absurd (h hsend) (Nat.not_lt.mpr hfull)

theorem room_of_not_sending (h : s.sending = false) : s.Room := fun hs => by simp [h] at hs

/-- A callback that was entered sends nothing yet. -/
theorem room_enter (s : Sys) (t : ℕ) (site : Site) : (s.enter t site).Room := by
  apply room_of_not_sending
  simp only [sending, enter]
  split <;> rfl

theorem room_execute (s : Sys) (m : Message) (now : UInt32) : (s.execute m now).Room := by
  unfold execute
  split
  · split
    · exact room_enter _ _ _
    · exact room_of_not_sending rfl
  all_goals exact room_of_not_sending rfl

theorem sending_congr (h : s'.daemon = s.daemon) : s'.sending = s.sending := by
  simp only [sending, suspended, h]

/-- A send of the daemon leaves it where it stands. -/
theorem room_wrapper {t : ℕ} {site : Site} {pc : Wrapper} (hd : s.daemon = .callback site t pc) (hv : s.Room)
    (hok : s.RoomOk .daemon) (h : s.wrapper t site pc = some s') : s'.Room := by
  have hback (s₁ : Sys) : ({ s₁ with daemon := site.back } : Sys).Room := room_of_not_sending (by cases site <;> rfl)
  have hsus (s₁ : Sys) (pc' : Wrapper) : ({ s₁ with daemon := .callback site t pc' } : Sys).suspended = s.suspended := by
    simp only [suspended, hd]
    cases site <;> rfl
  cases pc with
  | user =>
    simp only [wrapper] at h
    split at h
    · cases h
    · cases h
      exact room_of_not_sending rfl
  | tail =>
    have hdec : ∀ pc', (s.objs t).state.wrapper = some pc' →
        ({ s.access t with daemon := .callback site t pc' } : Sys).Room := fun pc' hpc hsend => by
      apply hok
      simp only [sending, hsus, Bool.and_eq_true] at hsend
      simp [decides, hd, hpc, hsend.2]
    simp only [wrapper] at h
    split at h
    all_goals
      cases h
      first | exact hback _ | exact hdec _ (by simp only [*, TimerState.wrapper])
  | stamp =>
    cases h
    intro hsend
    simp only [sending, hsus, Bool.and_eq_true] at hsend
    apply hv
    have hpc : Wrapper.stamp.sending = true := rfl
    simp [sending, hd, hsend.2, hpc]
  | writeStop | dealloc =>
    cases h
    exact hback _
  | sendReset =>
    obtain ⟨x, -, rfl⟩ := Option.map_eq_some_iff.mp h
    exact hback _
  | sendStop | sendDelete =>
    obtain ⟨x, -, rfl⟩ := Option.map_eq_some_iff.mp h
    exact room_of_not_sending rfl

theorem room_daemonStep (hv : s.Room) (hok : s.RoomOk .daemon) (h : s.daemonStep = some s') : s'.Room := by
  unfold daemonStep at h
  split at h
  · split at h
    · cases h
      exact room_of_not_sending rfl
    · split at h
      · cases h
        exact room_of_not_sending rfl
      · split at h
        · cases h
          exact room_enter _ _ _
        · cases h
          exact room_of_not_sending rfl
  · split at h <;> cases h <;> exact room_of_not_sending rfl
  · split at h
    · cases h
      exact room_of_not_sending rfl
    · cases h
      exact room_execute _ _ _
  · split at h <;> cases h
    · exact room_of_not_sending rfl
    · exact room_enter _ _ _
  · split at h <;> cases h
    · exact room_execute _ _ _
    · exact room_enter _ _ _
  · exact room_wrapper ‹_› hv hok h

/-- A call that makes a step leaves the daemon where it stands and takes at most one place, with its send. -/
theorem callStep_queue {r : Running} (h : s.callStep r = some s') :
    s'.daemon = s.daemon ∧ s'.uxLength = s.uxLength ∧
      (s'.queue.length = s.queue.length ∨ r.sent = none ∧ s'.queue.length = s.queue.length + 1) := by
  unfold callStep at h
  split at h
  · rename_i hnone
    split at h
    · cases h
      exact ⟨rfl, rfl, .inl rfl⟩
    · obtain ⟨x, hx, rfl⟩ := Option.map_eq_some_iff.mp h
      unfold xTimerGenericCommand at hx
      split at hx
      · cases hx
        exact ⟨rfl, rfl, .inr ⟨hnone, by simp [without]⟩⟩
      · split at hx
        · cases hx
          exact ⟨rfl, rfl, .inl rfl⟩
        · cases hx
  · cases h
    unfold finish
    split <;> exact ⟨rfl, rfl, .inl rfl⟩

theorem Room.step {a : Act} (hv : s.Room) (hok : s.RoomOk a) (h : s.Step a s') : s'.Room := by
  cases a with
  | tick | create | call =>
    simp only [Step, Sys.step] at h
    split at h
    all_goals
      cases h
      try exact hv
  | advance r =>
    simp only [Step, Sys.step] at h
    split at h
    · obtain ⟨hd, hn, hq | ⟨hnone, hq⟩⟩ := callStep_queue h <;> intro hs <;> rw [sending_congr hd] at hs
      · rw [hq, hn]
        exact hv hs
      · rw [hq, hn]
        exact hok hs hnone
    · cases h
  | daemon => exact room_daemonStep hv hok h

/-- With room for what `esp_timer_callback` decides on, the daemon never waits for room in its own queue. -/
theorem daemon_never_blocked {n : ℕ} (h : Run Step RoomOk (boot n) s) : ¬ s.Blocked :=
  (h.invariant (I := Room) Room.step (room_of_not_sending rfl)).not_blocked

/-! ### Two runs -/

/-- A periodic timer expires, and `esp_timer_callback` is about to send its reset. -/
theorem daemon_never_blocked_reset : ∃ s : Sys, s.sending = true ∧ ¬ s.Blocked := by
  have h : (exec step RoomOk (boot 1) (queueStart ++ [.advance (periodicStart (some 1))] ++ expiry ++
      [.daemon, .daemon])).any sending := by decide +kernel
  obtain ⟨s, h₁, h⟩ := run_of_any h
  exact ⟨s, h, daemon_never_blocked h₁⟩

/-- While the user callback runs, a task takes the only place of the queue. -/
theorem daemon_blocked : ∃ s : Sys, Run Step (fun _ _ => True) (boot 1) s ∧ s.Blocked := by
  have h : (exec step (fun _ _ => True) (boot 1) (queueStart ++ [.advance (periodicStart (some 1)), .daemon, .daemon,
      .daemon, .daemon, .tick, .daemon, .call (.task 0) 0 .stop, .advance ⟨.task 0, 0, .stop, none⟩, .daemon, .daemon,
      .daemon])).any fun s => s.daemon = .callback .expired 0 (.sendReset 1) ∧ s.suspended = false ∧
        s.uxLength ≤ s.queue.length := by decide +kernel
  obtain ⟨s, h₁, h⟩ := run_of_any h
  obtain ⟨hd, h⟩ := of_decide_eq_true h
  exact ⟨s, h₁, ⟨_, _, _, hd, nofun⟩, h⟩

end Sys

end Esp8266Sdk.Timer
