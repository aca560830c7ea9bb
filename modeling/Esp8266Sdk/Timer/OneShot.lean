import Esp8266Sdk.Timer.Sane

/-! A one-shot timer. `esp_timer_callback` stops the timer when it reads
`ESP_TIMER_ONCE` after the user callback, whether the state belongs to the expiry
it handles or to a newer start. -/

namespace Esp8266Sdk.Timer

open Lts

def Call.once : Call → Bool
  | .startOnce _ => true
  | _ => false

def Command.changes : Command → Bool
  | .changePeriod _ => true
  | _ => false

def Command.resets : Command → Bool
  | .reset _ => true
  | _ => false

theorem arms_of_changes {c : Command} (h : c.changes) : c.arms := by cases c <;> first | rfl | cases h

theorem arms_of_resets {c : Command} (h : c.resets) : c.arms := by cases c <;> first | rfl | cases h

theorem source_execute_of_changes (h : History) {m : Message} (hm : m.command.changes) : (h.execute m).source = m.no := by
  unfold History.execute
  cases hc : m.command with
  | changePeriod p => rfl
  | _ =>
    rw [hc] at hm
    cases hm

theorem source_execute_of_resets (h : History) {m : Message} (hm : m.command.resets) :
    (h.execute m).source = h.source := by
  unfold History.execute
  cases hc : m.command with
  | changePeriod p =>
    rw [hc] at hm
    cases hm
  | _ => rfl

theorem ne_stop_of_resets {c : Command} (h : c.resets) : c ≠ .stop := by
  rintro rfl
  cases h

theorem changes_of_once {c : Call} (hc : c.once) {m : Command} (hm : c.command = some m) : m.changes := by
  cases c with
  | startOnce us =>
    simp only [Call.command, changePeriod] at hm
    split at hm
    · cases hm
    · cases hm
      rfl
  | _ => cases hc

/-- Nothing that stops the timer is behind the start whose command has the number `k`: its command is waiting, or
the daemon has executed it and the timer is in a list (or a reset that puts it there again is being executed). -/
def View.Waiting (v : View) (k : ℕ) : Prop :=
  (∃ xs m ys, v.pend = xs ++ m :: ys ∧ m.no = k ∧ m.command.changes ∧ ∀ m' ∈ ys, m'.command.resets) ∨
    (v.hist.source = k ∧ (v.active = true ∨ v.taken = true ∧ v.pend ≠ []) ∧ ∀ m ∈ v.pend, m.command.resets)

/-- A step that does not go wrong. No two calls overlap; the command of a one-shot start is not queued before a stop
that `esp_timer_callback` has decided on; and when `esp_timer_callback` reads `ESP_TIMER_ONCE` the timer was not
armed again: it is in no list and no command that arms it is waiting. -/
def OnceOk (v : View) : Event → Prop
  | .call _ => v.calls = []
  | .send r _ => r.call.once → v.cb ≠ some .sendStop
  | .read => v.obj.state = .once → v.active = false ∧ ∀ m ∈ v.pend, m.command.arms = false
  | _ => True

instance (v : View) : (e : Event) → Decidable (OnceOk v e)
  | .call _ => inferInstanceAs (Decidable (_ = _))
  | .send .. | .read => inferInstanceAs (Decidable (_ → _))
  | .other | .create _ | .fail _ | .finish _ | .take | .execute | .overdue | .expire | .back |
    .stamp | .wrapperSend _ | .refused | .write => inferInstanceAs (Decidable True)

namespace View

variable {v v' : View} {e : Event} {k : ℕ}

/-- The start with the number `k` was handed to the callback, or waits for it and will not be stopped. -/
def Pending (v : View) (k : ℕ) : Prop := k ∈ v.hist.fired ∨ (v.cb ≠ some .sendStop ∧ v.Waiting k)

theorem resets_of_command {pc : Wrapper} (hc : pc ≠ .sendStop) (hd : pc.deletes = false) {c : Command}
    (h : pc.command = some c) : c.resets := by
  cases pc with
  | sendReset time =>
    cases h
    rfl
  | sendStop => exact absurd rfl hc
  | sendDelete => cases hd
  | _ => cases h

theorem next_ne_sendStop (pc : Wrapper) : pc.next ≠ some .sendStop := by cases pc <;> nofun

/-- A timer with a waiting start was armed. -/
theorem Waiting.not_idle (hv : v.Waiting k) (ha : v.active = false) : ∃ m ∈ v.pend, m.command.arms := by
  obtain ⟨xs, m, ys, hp, -, hc, -⟩ | ⟨-, hact, hp⟩ := hv
  · exact ⟨m, by simp [hp], arms_of_changes hc⟩
  · obtain hact | ⟨-, hne⟩ := hact
    · simp [ha] at hact
    · obtain ⟨m, hm⟩ := List.exists_mem_of_ne_nil _ hne
      exact ⟨m, hm, arms_of_resets (hp m hm)⟩

/-- A reset behind a waiting start does no harm. -/
theorem Waiting.append {m : Message} (hv : v.Waiting k) (hm : m.command.resets) (cb : Option Wrapper) {h : History}
    (hh : h.source = v.hist.source) : View.Waiting { v with cb := cb, pend := v.pend ++ [m], hist := h } k := by
  obtain ⟨xs, m', ys, hp, hno, hc, hys⟩ | ⟨hsource, hact, hp⟩ := hv
  · refine .inl ⟨xs, m', ys ++ [m], by simp [hp], hno, hc, fun x hx => ?_⟩
    obtain hx | hx := List.mem_append.mp hx
    · exact hys x hx
    · rw [List.mem_singleton.mp hx]
      exact hm
  · refine .inr ⟨hh.trans hsource, hact.imp_right fun h => ⟨h.1, by simp⟩, fun x hx => ?_⟩
    obtain hx | hx := List.mem_append.mp hx
    · exact hp x hx
    · rw [List.mem_singleton.mp hx]
      exact hm

theorem Pending.step (hv : v.Pending k) (hs : v.Sane) (hok : OnceOk v e) (hsend : ∀ r m, e ≠ .send r m)
    (h : v.Step e v') : v'.Pending k := by
  obtain hf | ⟨hcb, hw⟩ := hv
  · refine .inl ?_
    cases h <;> first | exact hf | simp [hf, enter]
  have henter (o : Obj) : (some (if o.callback then Wrapper.user else .tail)) ≠ some .sendStop := by split <;> simp
  cases h with
  | other | call | fail => exact .inr ⟨hcb, hw⟩
  | create hu =>
    obtain ⟨m, hm, -⟩ := hw.not_idle (hs.empty hu).active
    simp [(hs.empty hu).pend] at hm
  | send => exact absurd rfl (hsend _ _)
  | finish => exact .inr ⟨hcb, by simpa [Waiting] using hw⟩
  | take hp => exact .inr ⟨hcb, hw.imp_right fun h => ⟨h.1, .inr ⟨rfl, by simp [hp]⟩, h.2.2⟩⟩
  | @execute m rest hp ht hc =>
    refine .inr ⟨hcb, ?_⟩
    obtain ⟨xs, m', ys, hp', hno, hch, hys⟩ | ⟨hsource, -, hall⟩ := hw
    · rw [hp] at hp'
      cases xs with
      | nil =>
        cases hp'
        exact .inr ⟨(source_execute_of_changes _ hch).trans hno, .inl (by simp [arms_of_changes hch]), hys⟩
      | cons x xs =>
        cases hp'
        exact .inl ⟨xs, m', ys, rfl, hno, hch, hys⟩
    · have hm := hall m (by simp [hp])
      exact .inr ⟨(source_execute_of_resets _ hm).trans hsource, .inl (by simp [arms_of_resets hm]),
        fun x hx => hall x (by simp [hp, hx])⟩
  | @overdue m rest time hp ht hc hm =>
    obtain ⟨xs, m', ys, hp', hno, hch, hys⟩ | ⟨hsource, -, -⟩ := hw
    · rw [hp] at hp'
      cases xs with
      | nil =>
        cases hp'
        rw [hm] at hch
        cases hch
      | cons x xs =>
        cases hp'
        exact .inr ⟨henter _, .inl ⟨xs, m', ys, rfl, hno, hch, hys⟩⟩
    · exact .inl (by simp [enter, hsource])
  | expire ha =>
    obtain hw | ⟨hsource, -, -⟩ := hw
    · exact .inr ⟨henter _, .inl hw⟩
    · exact .inl (by simp [enter, hsource])
  | back => exact .inr ⟨by simp, hw⟩
  | read hc =>
    refine .inr ⟨fun hstop => ?_, by simpa [Waiting] using hw⟩
    have honce : v.obj.state = .once := by cases ho : v.obj.state <;> simp [ho, TimerState.wrapper] at hstop ⊢
    obtain ⟨m, hm, harms⟩ := hw.not_idle (hok honce).1
    simp [(hok honce).2 m hm] at harms
  | stamp => exact .inr ⟨by simp, by simpa [Waiting] using hw⟩
  | wrapperSend hc hm =>
    have hr := resets_of_command (fun he => hcb (he ▸ hc)) (hs.cb _ hc) hm
    exact .inr ⟨next_ne_sendStop _, hw.append hr _ (by simp)⟩
  | refused hc hm => exact .inr ⟨next_ne_sendStop _, by simpa [Waiting] using hw⟩
  | writeStop hc => exact .inr ⟨by simp, by simpa [Waiting] using hw⟩
  | dealloc hc => exact absurd (hs.cb _ hc) (by simp [Wrapper.deletes])

/-! ### Every run -/

structure OnceInv (v : View) : Prop where
  sane : v.Sane
  single : ∀ r ∈ v.calls, ∀ r' ∈ v.calls, r' = r
  started : ∀ r ∈ v.calls, r.call.once → ∀ k, r.sent = some k → v.Pending k

theorem onceInv_boot : boot.OnceInv where
  sane := sane_boot
  single := nofun
  started := nofun

/-- Calls that do not overlap stay so. -/
theorem single_step (hv : ∀ r ∈ v.calls, ∀ r' ∈ v.calls, r' = r) (hok : OnceOk v e) (h : v.Step e v') :
    ∀ r ∈ v'.calls, ∀ r' ∈ v'.calls, r' = r := by
  cases h with
  | call =>
    have hnil : v.calls = [] := hok
    simp [hnil]
  | @send r₀ m hr₀ =>
    have hnil : v.without r₀ = [] := List.filter_eq_nil_iff.mpr fun r hr => by simp [hv r₀ hr₀ r hr]
    simp [hnil]
  | fail => exact fun r hr r' hr' => hv r (List.mem_filter.mp hr).1 r' (List.mem_filter.mp hr').1
  | finish => exact fun r hr r' hr' => hv r (List.mem_filter.mp hr).1 r' (List.mem_filter.mp hr').1
  | _ => exact hv

theorem OnceInv.step (hv : v.OnceInv) (hok : OnceOk v e) (h : v.Step e v') : v'.OnceInv := by
  refine ⟨hv.sane.step h, single_step hv.single hok h, fun r hr honce k hk => ?_⟩
  obtain hold | ⟨-, hnone⟩ | ⟨r₀, m, rfl, hr₀, rfl⟩ := h.calls r hr
  · refine (hv.started r hold honce k hk).step hv.sane hok (fun r' m he => ?_) h
    subst he
    cases h with
    | send hr' hnone =>
      rw [hv.single _ hold _ hr', hk] at hnone
      cases hnone
  · rw [hk] at hnone
    cases hnone
  · cases h with
    | send _ _ hm =>
      cases hk
      exact .inr ⟨hok honce, .inl ⟨v.pend, m, [], rfl, rfl, changes_of_once honce hm, nofun⟩⟩

/-! ### After the start returned -/

/-- The one-shot start `k` has returned 0 and no call was made since. -/
structure Accepted (v : View) (k : ℕ) : Prop where
  sane : v.Sane
  calls : v.calls = []
  pending : v.Pending k

theorem OnceInv.accepted (hv : v.OnceInv) {r : Running} (honce : r.call.once) (hk : r.sent = some k)
    (h : v.Step (.finish r) v') : v'.Accepted k := by
  have hsane := hv.sane.step h
  have hpend (hr : r ∈ v.calls) : v'.Pending k :=
    (hv.started r hr honce k hk).step hv.sane (show OnceOk v (.finish r) from trivial) nofun h
  cases h with
  | finish hr =>
    exact ⟨hsane, List.filter_eq_nil_iff.mpr fun r' hr' => by simp [hv.single r hr r' hr'], hpend hr⟩

theorem Accepted.step (hv : v.Accepted k) (hok : OnceOk v e) (hcall : ∀ r, e ≠ .call r) (h : v.Step e v') :
    v'.Accepted k := by
  refine ⟨hv.sane.step h, List.eq_nil_iff_forall_not_mem.mpr fun r hr => ?_, ?_⟩
  · obtain ⟨r₀, hr₀, -⟩ | he := h.call_eq r hr
    · simp [hv.calls] at hr₀
    · exact hcall r he
  · refine hv.pending.step hv.sane hok (fun r m he => ?_) h
    subst he
    cases h with
    | send hr => simp [hv.calls] at hr

end View

namespace Sys

/-- A step that does not go wrong for the timer. -/
def OnceOk (t : ℕ) (s : Sys) (a : Act) : Prop := Timer.OnceOk (s.view t) (s.event t a)

/-- The start with the number `k` was handed to the callback; or the timer is in a list (a command that the daemon
is executing puts it there) and no stop waits; or the command of the start waits with no stop behind it. -/
def NotCancelled (s : Sys) (t k : ℕ) : Prop :=
  k ∈ (s.hist t).fired ∨
    ((s.active t = true ∨ ∃ m, s.daemon.executing = some m ∧ m.timer = t ∧ m.command.arms) ∧
      ∀ m ∈ s.pending, m.timer = t → m.command ≠ .stop) ∨
    ∃ xs m ys, s.pending.filter (·.timer = t) = xs ++ m :: ys ∧ m.no = k ∧ m.command.changes ∧
      ∀ m' ∈ ys, m'.command ≠ .stop

/-- After a one-shot start has returned 0, and as long as no other call on the timer begins, the start is not
cancelled. -/
theorem once_not_cancelled {n k : ℕ} {s₁ s₂ s : Sys} {r : Running} {us : UInt64} (hr : r.call = .startOnce us)
    (hsent : r.sent = some k) (h₁ : Run Step (OnceOk r.timer) (boot n) s₁) (hret : s₁.Step (.advance r) s₂)
    (h : Run Step (fun s a => s.OnceOk r.timer a ∧ a.begins r.timer (fun _ => true) = false) s₂ s) :
    s.NotCancelled r.timer k := by
  have honce : r.call.once := by rw [hr]; rfl
  have hinv : (s₁.view r.timer).OnceInv := (run_view (fun _ _ h => h) h₁).invariant View.OnceInv.step View.onceInv_boot
  have hfin := view_step r.timer hret
  rw [event_finish s₁ (by simp [hsent])] at hfin
  have hacc : (s.view r.timer).Accepted k :=
    (run_view (Q := fun v e => Timer.OnceOk v e ∧ ∀ r, e ≠ .call r)
      (fun s a h => ⟨h.1, fun r' he => (by simp [begins_of_event he] at h)⟩) h).invariant
      (I := fun v => v.Accepted k) (fun hv hok h => hv.step hok.1 hok.2 h) (hinv.accepted honce hsent hfin)
  obtain hf | ⟨-, ⟨xs, m, ys, hp, hno, hch, hys⟩ | ⟨-, hact, hp⟩⟩ := hacc.pending
  · exact .inl hf
  · exact .inr (.inr ⟨xs, m, ys, hp, hno, hch, fun x hx => ne_stop_of_resets (hys x hx)⟩)
  · have hmem : ∀ m ∈ s.pending, m.timer = r.timer → m.command.resets := fun m hm ht =>
      hp m (List.mem_filter.mpr ⟨hm, decide_eq_true ht⟩)
    refine .inr (.inl ⟨hact.imp_right fun h => ?_, fun m hm ht => ne_stop_of_resets (hmem m hm ht)⟩)
    obtain ⟨m, hm, ht⟩ := (Option.any_eq_true ..).mp h.1
    have ht := of_decide_eq_true ht
    exact ⟨m, hm, ht, arms_of_resets (hmem m (by simp [pending, hm]) ht)⟩

/-! ### Two runs -/

instance (s : Sys) (t : ℕ) : DecidablePred (s.OnceOk t) := fun _ => inferInstanceAs (Decidable (Timer.OnceOk _ _))

/-- A one-shot start of one tick. -/
def onceStart (caller : Caller) (sent : Option ℕ) : Running := ⟨caller, 0, .startOnce 10000, sent⟩

/-- A timer is created and the command of a one-shot start is queued. -/
def queueOnce : List Act :=
  [.create (.task 0) 0 true, .call (.task 0) 0 (.startOnce 10000), .advance (onceStart (.task 0) none)]

/-- The command of the start is executed, and the timer waits in its list. -/
theorem once_not_cancelled_waiting : ∃ s : Sys, s.active 0 = true ∧ s.NotCancelled 0 1 := by
  have h : (exec step (OnceOk 0) (boot 1) queueOnce).any fun s₁ =>
      (s₁.step (.advance (onceStart (.task 0) (some 1)))).any fun s₂ =>
        (exec step (fun s a => s.OnceOk 0 a ∧ a.begins 0 (fun _ => true) = false) s₂
          [.daemon, .daemon, .daemon]).any fun s => s.active 0 := by decide +kernel
  obtain ⟨s₁, h₁, h⟩ := run_of_any h
  obtain ⟨s₂, hret, h⟩ := (Option.any_eq_true ..).mp h
  obtain ⟨s, h₂, h⟩ := run_of_any h
  exact ⟨s, h, once_not_cancelled (r := onceStart (.task 0) (some 1)) rfl rfl h₁ hret h₂⟩

/-- The first start expires and the user callback starts the timer again. -/
def restart : List Act :=
  queueOnce ++ [.advance (onceStart (.task 0) (some 1)), .daemon, .daemon, .daemon, .daemon, .tick, .daemon,
    .call .daemon 0 (.startOnce 10000), .advance (onceStart .daemon none)]

/-- `esp_timer_callback` reads the state of the second start and stops it: its stop is executed behind the change of
period. -/
theorem once_cancelled : ∃ s₁ s₂ s : Sys, Run Step (fun _ _ => True) (boot 2) s₁ ∧
    s₁.Step (.advance (onceStart .daemon (some 2))) s₂ ∧
    Run Step (fun _ a => a.begins 0 (fun _ => true) = false) s₂ s ∧ ¬ s.NotCancelled 0 2 := by
  have h : (exec step (fun _ _ => True) (boot 2) restart).any fun s₁ =>
      (s₁.step (.advance (onceStart .daemon (some 2)))).any fun s₂ =>
        (exec step (fun _ a => a.begins 0 (fun _ => true) = false) s₂ (.replicate 8 .daemon)).any fun s =>
          2 ∉ (s.hist 0).fired ∧ s.active 0 = false ∧ s.pending = [] := by decide +kernel
  obtain ⟨s₁, h₁, h⟩ := run_of_any h
  obtain ⟨s₂, hret, h⟩ := (Option.any_eq_true ..).mp h
  obtain ⟨s, h₂, h⟩ := run_of_any h
  obtain ⟨hfired, hactive, hp⟩ := of_decide_eq_true h
  refine ⟨s₁, s₂, s, h₁, hret, h₂, ?_⟩
  have hnone : s.daemon.executing = none := by
    cases he : s.daemon.executing <;> simp [pending, he] at hp ⊢
  simp [NotCancelled, hfired, hactive, hp, hnone]

end Sys

end Esp8266Sdk.Timer
