import Esp8266Sdk.Timer.Sane

/-! A periodic timer. Its FreeRTOS timer is a one-shot that `esp_timer_callback`
arms again when it reads `ESP_TIMER_CYCLE`; the state is written after the
command of the start was queued. -/

namespace Esp8266Sdk.Timer

open Lts

def Call.periodic : Call → Bool
  | .startPeriodic _ => true
  | _ => false

/-- `esp_timer_callback` goes on to arm the timer, if it reads `ESP_TIMER_CYCLE`. -/
def Wrapper.rearms : Wrapper → Bool
  | .user => true
  | .tail => true
  | .stamp => true
  | .sendReset _ => true
  | _ => false

def Wrapper.resets : Wrapper → Bool
  | .sendReset _ => true
  | _ => false

/-- The last command for the timer arms it, or there is none and it is in a list or about to be armed. -/
def View.Armed (v : View) : Prop :=
  (∃ m, v.pend.getLast? = some m ∧ m.command.arms) ∨
    (v.pend = [] ∧ (v.active = true ∨ ∃ pc, v.cb = some pc ∧ pc.rearms))

/-- A step that does not go wrong. A periodic start overlaps with periodic starts only; its command is not
queued before a stop that `esp_timer_callback` has decided on, nor its state written before one of
`esp_timer_callback`; the state is not read between the two, unless it is `ESP_TIMER_CYCLE` already; and no reset
is refused that was to arm the timer. -/
def PeriodicOk (v : View) : Event → Prop
  | .call r => ∀ r' ∈ v.calls, r'.call.periodic = r.call.periodic
  | .send r _ => r.call.periodic → v.cb ≠ some .sendStop
  | .finish r => r.call.periodic → v.cb ≠ some .writeStop
  | .read => v.obj.state ≠ .cycle → ∀ r ∈ v.calls, r.call.periodic → r.sent = none
  | .refused => v.cb.any Wrapper.resets → v.active = true ∨ ∃ m ∈ v.pend, m.command.arms
  | _ => True

instance (v : View) : (e : Event) → Decidable (PeriodicOk v e)
  | .call _ => inferInstanceAs (Decidable (∀ _ ∈ _, _))
  | .send .. | .finish _ | .read | .refused => inferInstanceAs (Decidable (_ → _))
  | .other | .create _ | .fail _ | .take | .execute | .overdue | .expire | .back | .stamp |
    .wrapperSend _ | .write => inferInstanceAs (Decidable True)

namespace View

variable {v v' : View} {e : Event}

/-- Between the command and the return of a periodic start. -/
structure Starting (v : View) : Prop where
  armed : v.Armed
  cb : v.cb ≠ some .sendStop

/-- A step that sends nothing but what arms the timer, and reads nothing but `ESP_TIMER_CYCLE`. -/
theorem Starting.step (hv : v.Starting) (hs : v.Sane) (hok : PeriodicOk v e)
    (hsend : ∀ r m, e = .send r m → m.command.arms) (hread : e = .read → v.obj.state = .cycle) (h : v.Step e v') :
    v'.Starting := by
  obtain ⟨harmed, hcb⟩ := hv
  have henter (o : Obj) : ∃ pc, some (if o.callback then Wrapper.user else .tail) = some pc ∧ pc.rearms :=
    ⟨_, rfl, by split <;> rfl⟩
  cases h with
  | other => exact ⟨harmed, hcb⟩
  | create hu => simp [Armed, (hs.empty hu).pend, (hs.empty hu).active, (hs.empty hu).cb] at harmed
  | call => exact ⟨harmed, hcb⟩
  | send => exact ⟨.inl ⟨_, List.getLast?_concat, hsend _ _ rfl⟩, hcb⟩
  | fail => exact ⟨harmed, hcb⟩
  | finish => exact ⟨harmed, hcb⟩
  | take hp =>
    refine ⟨harmed.imp_right fun h => ?_, hcb⟩
    simp [hp] at h
  | @execute m rest hp ht hc =>
    refine ⟨?_, hcb⟩
    obtain ⟨m', hlast, harms⟩ | ⟨hnil, -⟩ := harmed
    · rw [hp] at hlast
      cases rest with
      | nil =>
        cases hlast
        exact .inr ⟨rfl, .inl ((Bool.or_eq_true ..).mpr (.inr harms))⟩
      | cons x l => exact .inl ⟨m', by simpa using hlast, harms⟩
    · simp [hp] at hnil
  | @overdue m rest time hp ht hc hm =>
    refine ⟨?_, ?_⟩
    · obtain ⟨m', hlast, harms⟩ | ⟨hnil, -⟩ := harmed
      · rw [hp] at hlast
        cases rest with
        | nil => exact .inr ⟨rfl, .inr (henter _)⟩
        | cons x l => exact .inl ⟨m', by simpa [enter] using hlast, harms⟩
      · simp [hp] at hnil
    · simp only [enter]
      split <;> simp
  | expire ha =>
    refine ⟨harmed.imp_right fun h => ⟨h.1, .inr (henter _)⟩, ?_⟩
    simp only [enter]
    split <;> simp
  | back => exact ⟨harmed.imp_right fun h => ⟨h.1, .inr ⟨_, rfl, rfl⟩⟩, by simp⟩
  | read hc =>
    refine ⟨harmed.imp_right fun h => ⟨h.1, .inr ⟨.stamp, ?_, rfl⟩⟩, ?_⟩ <;> simp [hread rfl, TimerState.wrapper]
  | stamp => exact ⟨harmed.imp_right fun h => ⟨h.1, .inr ⟨_, rfl, rfl⟩⟩, by simp⟩
  | @wrapperSend pc m hc hm =>
    have hd := hs.cb _ hc
    cases pc with
    | sendReset time =>
      refine ⟨.inl ⟨m, List.getLast?_concat, ?_⟩, by simp [Wrapper.next]⟩
      rw [← Option.some.inj hm]
      rfl
    | sendStop => exact absurd hc hcb
    | sendDelete => simp [Wrapper.deletes] at hd
    | _ => cases hm
  | @refused pc hc hm =>
    have hd := hs.cb _ hc
    cases pc with
    | sendReset time =>
      refine ⟨harmed.imp_right fun h => ⟨h.1, .inl ?_⟩, by simp [Wrapper.next]⟩
      simpa [h.1] using hok (by simp [hc, Wrapper.resets])
    | sendStop => exact absurd hc hcb
    | sendDelete => simp [Wrapper.deletes] at hd
    | _ => exact absurd rfl hm
  | writeStop hc =>
    refine ⟨harmed.imp_right fun h => ⟨h.1, h.2.imp_right ?_⟩, by simp⟩
    rintro ⟨pc, hpc, hr⟩
    rw [hc] at hpc
    cases hpc
    cases hr
  | dealloc hc => exact absurd (hs.cb _ hc) (by simp [Wrapper.deletes])

/-! ### Every run -/

theorem arms_of_periodic {c : Call} (hc : c.periodic) {m : Command} (hm : c.command = some m) : m.arms := by
  cases c with
  | startPeriodic us =>
    simp only [Call.command, changePeriod] at hm
    split at hm
    · cases hm
    · cases hm
      rfl
  | _ => cases hc

structure PeriodicInv (v : View) : Prop where
  sane : v.Sane
  kinds : ∀ r ∈ v.calls, ∀ r' ∈ v.calls, r'.call.periodic = r.call.periodic
  starting : ∀ r ∈ v.calls, r.call.periodic → r.sent ≠ none → v.Starting

theorem PeriodicInv.step (hv : v.PeriodicInv) (hok : PeriodicOk v e) (h : v.Step e v') : v'.PeriodicInv := by
  refine ⟨hv.sane.step h, h.kinds hv.kinds fun r he => ?_, fun r hr hp hs => ?_⟩
  · subst he
    exact hok
  · obtain hold | ⟨-, hnone⟩ | ⟨r₀, m, rfl, hr₀, rfl⟩ := h.calls r hr
    · refine (hv.starting r hold hp hs).step hv.sane hok (fun r' m he => ?_) (fun he => ?_) h
      · subst he
        cases h with
        | send hr' _ hm => exact arms_of_periodic ((hv.kinds r hold r' hr').trans hp) hm
      · subst he
        by_contra hne
        exact hs (hok hne r hold hp)
    · exact absurd hnone hs
    · cases h with
      | send _ _ hm => exact ⟨.inl ⟨_, List.getLast?_concat, arms_of_periodic hp hm⟩, hok hp⟩

theorem periodicInv_boot : boot.PeriodicInv where
  sane := sane_boot
  kinds := nofun
  starting := nofun

/-! ### After the start returned -/

/-- A periodic start has returned 0 and no call but periodic starts was made since. -/
structure Kept (v : View) : Prop where
  sane : v.Sane
  starting : v.Starting
  rearms : ∀ pc, v.cb = some pc → pc.rearms
  calls : ∀ r ∈ v.calls, r.call.periodic
  state : v.obj.state = .cycle

theorem next_of_rearms {pc : Wrapper} (h : pc.rearms) : pc.next = none := by
  cases pc <;> first | rfl | cases h

theorem write_periodic {c : Call} (hc : c.periodic) (o : Obj) : (c.write o).state = .cycle := by
  cases c <;> first | rfl | cases hc

theorem PeriodicInv.kept (hv : v.PeriodicInv) {r : Running} (hp : r.call.periodic) (hok : PeriodicOk v (.finish r))
    (h : v.Step (.finish r) v') : v'.Kept := by
  have hsane := hv.sane.step h
  cases h with
  | finish hr hs =>
    have hst := hv.starting r hr hp (Option.isSome_iff_ne_none.mp hs)
    refine ⟨hsane, ⟨hst.armed, hst.cb⟩, fun pc hpc => ?_, fun r' hr' => ?_, write_periodic hp _⟩
    · have hd := hv.sane.cb pc hpc
      cases pc with
      | sendStop => exact absurd hpc hst.cb
      | writeStop => exact absurd hpc (hok hp)
      | sendDelete => cases hd
      | dealloc => cases hd
      | _ => rfl
    · exact (hv.kinds r hr r' (List.mem_filter.mp hr').1).trans hp

theorem Kept.step (hv : v.Kept) (hok : PeriodicOk v e) (hcall : ∀ r, e ≠ .call r) (h : v.Step e v') : v'.Kept := by
  have hcalls : ∀ r ∈ v'.calls, r.call.periodic := fun r hr => by
    obtain ⟨r₀, hr, hc⟩ | he := h.call_eq r hr
    · exact hc ▸ hv.calls r₀ hr
    · exact absurd he (hcall r)
  have hstart : v'.Starting := by
    refine hv.starting.step hv.sane hok (fun r m he => ?_) (fun _ => hv.state) h
    subst he
    cases h with
    | send hr _ hm => exact arms_of_periodic (hv.calls r hr) hm
  refine ⟨hv.sane.step h, hstart, ?_, hcalls, ?_⟩
  · have hold := hv.rearms
    cases h with
    | overdue | expire =>
      intro pc hpc
      simp only [enter, Option.some.injEq] at hpc
      subst hpc
      split <;> rfl
    | read =>
      intro pc hpc
      simp only [hv.state, TimerState.wrapper, Option.some.injEq] at hpc
      exact hpc ▸ rfl
    | back | stamp =>
      rintro pc ⟨⟩
      rfl
    | wrapperSend hc | refused hc =>
      intro pc hpc
      rw [next_of_rearms (hold _ hc)] at hpc
      cases hpc
    | writeStop | dealloc => rintro pc ⟨⟩
    | _ => exact hold
  · cases h with
    | create hu =>
      have hc := hv.starting.armed
      simp [Armed, (hv.sane.empty hu).pend, (hv.sane.empty hu).active, (hv.sane.empty hu).cb] at hc
    | finish hr => exact write_periodic (hv.calls _ hr) _
    | writeStop hc => exact absurd (hv.rearms _ hc) (by simp [Wrapper.rearms])
    | _ => exact hv.state

theorem Kept.armed (hv : v.Kept) : v.active = true ∨ (∃ m ∈ v.pend, m.command.arms) ∨ v.cb ≠ none := by
  obtain ⟨m, hm, ha⟩ | ⟨-, ha | ⟨pc, hpc, -⟩⟩ := hv.starting.armed
  · exact .inr (.inl ⟨m, List.mem_of_getLast? hm, ha⟩)
  · exact .inl ha
  · exact .inr (.inr (by simp [hpc]))

end View

namespace Sys

/-- A step that does not go wrong for the timer. -/
def PeriodicOk (t : ℕ) (s : Sys) (a : Act) : Prop := Timer.PeriodicOk (s.view t) (s.event t a)

/-- The timer is in a list, or a command that arms it is in the queue, or the daemon is in its callback. -/
def KeepsRunning (s : Sys) (t : ℕ) : Prop :=
  s.active t = true ∨ (∃ m ∈ s.pending, m.timer = t ∧ m.command.arms) ∨ s.daemon.inCallback t ≠ none

/-- After a periodic start has returned 0, and as long as no other call on the timer begins, the timer keeps
running. -/
theorem periodic_keeps_running {n : ℕ} {s₁ s₂ s : Sys} {r : Running} {us : UInt64} (hr : r.call = .startPeriodic us)
    (hsent : r.sent ≠ none) (h₁ : Run Step (PeriodicOk r.timer) (boot n) s₁) (hok : s₁.PeriodicOk r.timer (.advance r))
    (hret : s₁.Step (.advance r) s₂)
    (h : Run Step (fun s a => s.PeriodicOk r.timer a ∧ a.begins r.timer (fun _ => true) = false) s₂ s) :
    s.KeepsRunning r.timer := by
  have hp : r.call.periodic := by rw [hr]; rfl
  have hinv : (s₁.view r.timer).PeriodicInv := (run_view (fun _ _ h => h) h₁).invariant View.PeriodicInv.step View.periodicInv_boot
  have hfin := view_step r.timer hret
  unfold PeriodicOk at hok
  rw [event_finish s₁ hsent] at hok hfin
  have hkept : (s.view r.timer).Kept :=
    (run_view (Q := fun v e => Timer.PeriodicOk v e ∧ ∀ r, e ≠ .call r)
      (fun s a h => ⟨h.1, fun r' he => by simp [begins_of_event he] at h⟩) h).invariant
      (fun hv hok h => hv.step hok.1 hok.2 h) (hinv.kept hp hok hfin)
  simpa [KeepsRunning, view, and_assoc, and_left_comm] using hkept.armed

instance (s : Sys) (t : ℕ) : DecidablePred (s.PeriodicOk t) := fun _ =>
  inferInstanceAs (Decidable (Timer.PeriodicOk _ _))

instance (s : Sys) (t : ℕ) : Decidable (s.KeepsRunning t) := inferInstanceAs (Decidable (_ ∨ _ ∨ _))

/-! ### Two runs -/

/-- A periodic start of one tick by a task. -/
def periodicStart (sent : Option ℕ) : Running := ⟨.task 0, 0, .startPeriodic 10000, sent⟩

/-- A timer is created and the command of a periodic start is queued. -/
def queueStart : List Act :=
  [.create (.task 0) 0 true, .call (.task 0) 0 (.startPeriodic 10000), .advance (periodicStart none)]

/-- The daemon executes the command, a tick is counted, the timer expires and the user callback returns. -/
def expiry : List Act := [.daemon, .daemon, .daemon, .daemon, .tick, .daemon, .daemon]

/-- The start returns before the timer expires, and `esp_timer_callback` queues the reset. -/
theorem periodic_keeps_running_expiry : ∃ s : Sys, (s.hist 0).fired = [1] ∧ s.KeepsRunning 0 := by
  have h : (exec step (PeriodicOk 0) (boot 1) queueStart).any fun s₁ =>
      s₁.PeriodicOk 0 (.advance (periodicStart (some 1))) ∧
      (s₁.step (.advance (periodicStart (some 1)))).any fun s₂ =>
        (exec step (fun s a => s.PeriodicOk 0 a ∧ a.begins 0 (fun _ => true) = false) s₂
          (expiry ++ [.daemon, .daemon, .daemon])).any fun s => (s.hist 0).fired = [1] := by decide +kernel
  obtain ⟨s₁, h₁, h⟩ := run_of_any h
  obtain ⟨hok, h⟩ := of_decide_eq_true h
  obtain ⟨s₂, hret, h⟩ := (Option.any_eq_true ..).mp h
  obtain ⟨s, h₂, h⟩ := run_of_any h
  exact ⟨s, of_decide_eq_true h, periodic_keeps_running rfl (r := periodicStart (some 1)) nofun h₁ hok hret h₂⟩

/-- The timer expires before the start has written its state: the callback reads `ESP_TIMER_INIT`. -/
theorem periodic_lost : ∃ s₁ s₂ : Sys, Run Step (fun _ _ => True) (boot 1) s₁ ∧
    s₁.Step (.advance (periodicStart (some 1))) s₂ ∧ ¬ s₂.KeepsRunning 0 := by
  have h : (exec step (fun _ _ => True) (boot 1) (queueStart ++ expiry ++ [.daemon])).any fun s₁ =>
      (s₁.step (.advance (periodicStart (some 1)))).any fun s₂ => ¬ s₂.KeepsRunning 0 := by decide +kernel
  obtain ⟨s₁, h₁, h⟩ := run_of_any h
  obtain ⟨s₂, h₂, h⟩ := (Option.any_eq_true ..).mp h
  exact ⟨s₁, s₂, h₁, h₂, of_decide_eq_true h⟩

end Sys

end Esp8266Sdk.Timer
