import Esp8266Sdk.Timer.Periodic

/-! A stopped timer. `esp_timer_stop` queues its command first and writes the
state second; `esp_timer_callback` reads the state first and queues its reset
second. -/

namespace Esp8266Sdk.Timer

open Lts

def Call.starts : Call → Bool
  | .startOnce _ => true
  | .startPeriodic _ => true
  | _ => false

/-- `esp_timer_callback` has read `ESP_TIMER_CYCLE` and its reset is not queued. -/
def Wrapper.resetting : Wrapper → Bool
  | .stamp => true
  | .sendReset _ => true
  | _ => false

/-- Nothing arms the timer behind a stop that meets `q`, or the timer is in no list and no command arms it. -/
structure View.Ended (v : View) (q : Message → Prop) : Prop where
  cb : v.cb.any Wrapper.resetting = false
  stop : (∃ xs m ys, v.pend = xs ++ m :: ys ∧ q m ∧ m.command = .stop ∧ ∀ m' ∈ ys, m'.command.arms = false) ∨
    (v.active = false ∧ ∀ m ∈ v.pend, m.command.arms = false)

/-- A step that does not go wrong. A stop does not overlap with a start; its command is not queued before a reset that
`esp_timer_callback` has decided on; and `ESP_TIMER_CYCLE` is not read between the command and the write of the
state. -/
def StopOk (v : View) : Event → Prop
  | .call r => ∀ r' ∈ v.calls, r'.call.starts = r.call.starts
  | .send r _ => r.call = .stop → v.cb.any Wrapper.resetting = false
  | .read => v.obj.state = .cycle → ∀ r ∈ v.calls, r.call = .stop → r.sent = none
  | _ => True

/-- The daemon takes no expiry of a timer while a stop for it waits. -/
def StopFirst (v : View) : Event → Prop
  | .expire => ∀ m ∈ v.pend, m.command ≠ .stop
  | .overdue => ∀ m ∈ v.pend, m.command ≠ .stop
  | _ => True

instance (v : View) : (e : Event) → Decidable (StopOk v e)
  | .call _ => inferInstanceAs (Decidable (∀ _ ∈ _, _))
  | .send .. | .read => inferInstanceAs (Decidable (_ → _))
  | .other | .create _ | .fail _ | .finish _ | .take | .execute | .overdue | .expire | .back |
    .stamp | .wrapperSend _ | .refused | .write => inferInstanceAs (Decidable True)

instance (v : View) : (e : Event) → Decidable (StopFirst v e)
  | .expire | .overdue => inferInstanceAs (Decidable (∀ _ ∈ _, _))
  | .other | .create _ | .call _ | .send .. | .fail _ | .finish _ | .take | .execute | .back | .read |
    .stamp | .wrapperSend _ | .refused | .write => inferInstanceAs (Decidable True)

theorem arms_of_not_starts {c : Call} (hc : c.starts = false) {m : Command} (hm : c.command = some m) : m.arms = false := by
  cases c with
  | stop | delete =>
    cases hm
    rfl
  | _ => cases hc

theorem arms_of_not_resetting {pc : Wrapper} (hc : pc.resetting = false) {m : Command} (hm : pc.command = some m) :
    m.arms = false := by
  cases pc with
  | sendStop | sendDelete =>
    cases hm
    rfl
  | sendReset => cases hc
  | _ => cases hm

theorem next_not_resetting (pc : Wrapper) : pc.next.any Wrapper.resetting = false := by cases pc <;> rfl

theorem wrapper_not_resetting {st : TimerState} (h : st ≠ .cycle) : st.wrapper.any Wrapper.resetting = false := by
  cases st <;> first | rfl | exact absurd rfl h

namespace View

variable {v v' : View} {e : Event} {q : Message → Prop}

theorem not_resetting_enter (o : Obj) :
    (some (if o.callback then Wrapper.user else .tail)).any Wrapper.resetting = false := by
  split <;> rfl

/-- A command that arms nothing does no harm behind the stop. -/
theorem Ended.append (hv : v.Ended q) {m : Message} (hm : m.command.arms = false) {v' : View}
    (hp : v'.pend = v.pend ++ [m]) (ha : v'.active = v.active) (hcb : v'.cb.any Wrapper.resetting = false) : v'.Ended q := by
  refine ⟨hcb, ?_⟩
  obtain ⟨xs, m', ys, hp', hq, hstop, hys⟩ | ⟨hactive, hall⟩ := hv.stop
  · refine .inl ⟨xs, m', ys ++ [m], by simp [hp, hp'], hq, hstop, fun x hx => ?_⟩
    obtain hx | hx := List.mem_append.mp hx
    · exact hys x hx
    · rw [List.mem_singleton.mp hx]
      exact hm
  · refine .inr ⟨ha.trans hactive, fun x hx => ?_⟩
    obtain hx | hx := List.mem_append.mp (hp ▸ hx)
    · exact hall x hx
    · rw [List.mem_singleton.mp hx]
      exact hm

theorem Ended.step (hv : v.Ended q) (hs : v.Sane) (hread : e = .read → v.obj.state ≠ .cycle)
    (hsend : ∀ r m, e = .send r m → m.command.arms = false) (h : v.Step e v') : v'.Ended q := by
  have hcb := hv.cb
  cases h with
  | other | create | call | fail | finish => exact ⟨hcb, hv.stop⟩
  | send => exact hv.append (hsend _ _ rfl) rfl rfl hcb
  | take => exact ⟨hcb, hv.stop.imp_right fun h => ⟨rfl, h.2⟩⟩
  | @execute m rest hp ht hc =>
    refine ⟨hcb, ?_⟩
    obtain ⟨xs, m', ys, hp', hq, hstop, hys⟩ | ⟨hactive, hall⟩ := hv.stop
    · rw [hp] at hp'
      cases xs with
      | nil =>
        cases hp'
        exact .inr ⟨by simp [hs.quiet ht, hstop, Command.arms], hys⟩
      | cons x xs =>
        cases hp'
        exact .inl ⟨xs, m', ys, rfl, hq, hstop, hys⟩
    · exact .inr ⟨by simp [hactive, hall m (by simp [hp])], fun x hx => hall x (by simp [hp, hx])⟩
  | @overdue m rest time hp ht hc hm =>
    refine ⟨not_resetting_enter _, ?_⟩
    obtain ⟨xs, m', ys, hp', hq, hstop, hys⟩ | ⟨-, hall⟩ := hv.stop
    · rw [hp] at hp'
      cases xs with
      | nil =>
        cases hp'
        rw [hm] at hstop
        cases hstop
      | cons x xs =>
        cases hp'
        exact .inl ⟨xs, m', ys, rfl, hq, hstop, hys⟩
    · have := hall m (by simp [hp])
      simp [hm, Command.arms] at this
  | expire ha => exact ⟨not_resetting_enter _, hv.stop.imp_right fun h => ⟨rfl, h.2⟩⟩
  | back => exact ⟨rfl, hv.stop⟩
  | read => exact ⟨wrapper_not_resetting (hread rfl), hv.stop⟩
  | stamp hc =>
    rw [hc] at hcb
    cases hcb
  | wrapperSend hc hm =>
    rw [hc] at hcb
    exact hv.append (arms_of_not_resetting hcb hm) rfl rfl (next_not_resetting _)
  | refused => exact ⟨next_not_resetting _, hv.stop⟩
  | writeStop | dealloc => exact ⟨rfl, hv.stop⟩

/-! ### Every run -/

structure StopInv (v : View) : Prop where
  sane : v.Sane
  kinds : ∀ r ∈ v.calls, ∀ r' ∈ v.calls, r'.call.starts = r.call.starts
  stopping : ∀ r ∈ v.calls, r.call = .stop → r.sent ≠ none → v.Ended fun _ => True

theorem stopInv_boot : boot.StopInv where
  sane := sane_boot
  kinds := nofun
  stopping := nofun

theorem StopInv.step (hv : v.StopInv) (hok : StopOk v e) (h : v.Step e v') : v'.StopInv := by
  refine ⟨hv.sane.step h, h.kinds hv.kinds fun r he => ?_, fun r hr hstop hs => ?_⟩
  · subst he
    exact hok
  · obtain hold | ⟨-, hnone⟩ | ⟨r₀, m, rfl, hr₀, rfl⟩ := h.calls r hr
    · refine (hv.stopping r hold hstop hs).step hv.sane (fun he hc => ?_) (fun r' m he => ?_) h
      · subst he
        exact hs (hok hc r hold hstop)
      · subst he
        cases h with
        | send hr' _ hm =>
          exact arms_of_not_starts ((hv.kinds r hold r' hr').trans (by rw [hstop]; rfl)) hm
    · exact absurd hnone hs
    · cases h with
      | send _ _ hm =>
        have hms : m.command = .stop := by
          rw [show r₀.call = .stop from hstop] at hm
          exact (Option.some.inj hm).symm
        exact ⟨hok hstop, .inl ⟨v.pend, m, [], rfl, trivial, hms, nofun⟩⟩

/-! ### After the stop returned -/

/-- A stop has returned 0 and no start was made since. -/
structure Stopped (v : View) (q : Message → Prop) : Prop where
  sane : v.Sane
  created : v.obj.block ≠ .unused
  calls : ∀ r ∈ v.calls, r.call.starts = false
  state : v.obj.state = .stop
  ended : v.Ended q

theorem StopInv.stopped (hv : v.StopInv) {r : Running} (hr : r.call = .stop) (h : v.Step (.finish r) v') :
    v'.Stopped fun _ => True := by
  have hsane := hv.sane.step h
  cases h with
  | finish hmem hs =>
    have hend := hv.stopping r hmem hr (Option.isSome_iff_ne_none.mp hs)
    refine ⟨hsane, fun hu => ?_, fun r' hr' => ?_, by rw [hr]; rfl, hend.cb, hend.stop⟩
    · simp [(hv.sane.empty (write_unused _ hu)).calls] at hmem
    · rw [hv.kinds r hmem r' (List.mem_filter.mp hr').1, hr]
      rfl

theorem Stopped.step (hv : v.Stopped q) (hcall : ∀ r, e = .call r → r.call.starts = false) (h : v.Step e v') :
    v'.Stopped q := by
  have hend : v'.Ended q := by
    refine hv.ended.step hv.sane (fun _ => by simp [hv.state]) (fun r m he => ?_) h
    subst he
    cases h with
    | send hr _ hm => exact arms_of_not_starts (hv.calls r hr) hm
  have hcalls : ∀ r ∈ v'.calls, r.call.starts = false := fun r hr => by
    obtain ⟨r₀, hr₀, hc⟩ | he := h.call_eq r hr
    · exact hc ▸ hv.calls r₀ hr₀
    · exact hcall r he
  refine ⟨hv.sane.step h, ?_, hcalls, ?_, hend⟩
  · cases h with
    | finish => exact fun hu => hv.created (write_unused _ hu)
    | dealloc => nofun
    | create hu => exact absurd hu hv.created
    | _ => exact hv.created
  · cases h with
    | create hu => exact absurd hu hv.created
    | @finish r hr =>
      have hst := hv.calls r hr
      cases hc : r.call <;> simp_all [Call.write, Call.starts, hv.state]
    | writeStop => rfl
    | _ => exact hv.state

/-- No expiry is handed to the callback. -/
theorem Stopped.fired (hv : v.Stopped q) (hfirst : StopFirst v e) (h : v.Step e v') : v'.hist.fired = v.hist.fired := by
  cases h with
  | @overdue m rest time hp ht hc hm =>
    obtain ⟨xs, m', ys, hp', -, hstop, -⟩ | ⟨-, hall⟩ := hv.ended.stop
    · exact absurd hstop (hfirst m' (by simp [hp']))
    · have := hall m (by simp [hp])
      simp [hm, Command.arms] at this
  | expire ha =>
    obtain ⟨xs, m', ys, hp', -, hstop, -⟩ | ⟨hactive, -⟩ := hv.ended.stop
    · exact absurd hstop (hfirst m' (by simp [hp']))
    · simp [hactive] at ha
  | _ => simp

/-- The stop is one of the commands that wait now. -/
theorem Stopped.rebase (hv : v.Stopped q) : v.Stopped (· ∈ v.pend) := by
  refine ⟨hv.sane, hv.created, hv.calls, hv.state, hv.ended.cb, hv.ended.stop.imp_left ?_⟩
  rintro ⟨xs, m, ys, hp, -, h⟩
  exact ⟨xs, m, ys, hp, by simp [hp], h⟩

end View

namespace Sys

/-- A step that does not go wrong for the timer. -/
def StopOk (t : ℕ) (s : Sys) (a : Act) : Prop := Timer.StopOk (s.view t) (s.event t a)

/-- A step after the stop: no start begins, and no expiry is taken before the stop. -/
def AfterStop (t : ℕ) (s : Sys) (a : Act) : Prop :=
  Timer.StopFirst (s.view t) (s.event t a) ∧ a.begins t Call.starts = false

theorem AfterStop.stopped {t : ℕ} {s s' : Sys} {q : Message → Prop} (h : Run Step (AfterStop t) s s')
    (hs : (s.view t).Stopped q) : (s'.view t).Stopped q ∧ (s'.hist t).fired = (s.hist t).fired := by
  refine (run_view (Q := fun v e => StopFirst v e ∧ ∀ r, e = .call r → r.call.starts = false)
    (fun _ a h => ⟨h.1, fun r he => (begins_of_event he _).symm.trans h.2⟩) h).invariant
    (I := fun v => v.Stopped q ∧ v.hist.fired = (s.hist t).fired) (fun hv hok h => ?_) ⟨hs, rfl⟩
  exact ⟨hv.1.step hok.2 h, (hv.1.fired hok.1 h).trans hv.2⟩

/-- After a stop has returned 0, and as long as no start on the timer begins: from any state on, the user callback is
not invoked, and when the commands that wait in that state are executed the timer is in no list. -/
theorem stop_is_final {n : ℕ} {s₁ s₂ s₃ s : Sys} {r : Running} (hr : r.call = .stop) (hsent : r.sent ≠ none)
    (h₁ : Run Step (StopOk r.timer) (boot n) s₁) (hret : s₁.Step (.advance r) s₂)
    (h₂ : Run Step (AfterStop r.timer) s₂ s₃) (h₃ : Run Step (AfterStop r.timer) s₃ s) :
    (s.hist r.timer).fired = (s₃.hist r.timer).fired ∧
      ((∀ m ∈ s₃.pending, m.timer = r.timer → m ∉ s.pending) → s.active r.timer = false) := by
  have hinv : (s₁.view r.timer).StopInv := (run_view (fun _ _ h => h) h₁).invariant View.StopInv.step View.stopInv_boot
  have hfin := view_step r.timer hret
  rw [event_finish s₁ hsent] at hfin
  have hpoint := (AfterStop.stopped h₂ (hinv.stopped hr hfin)).1.rebase
  obtain ⟨hs, hfired⟩ := AfterStop.stopped h₃ hpoint
  refine ⟨hfired, fun hgone => ?_⟩
  obtain ⟨xs, m, ys, hp, hm, -⟩ | ⟨hactive, -⟩ := hs.ended.stop
  · have hmem : m ∈ (s.view r.timer).pend := by simp [hp]
    obtain ⟨hm₃, ht⟩ := List.mem_filter.mp hm
    exact absurd (List.mem_filter.mp hmem).1 (hgone m hm₃ (of_decide_eq_true ht))
  · exact hactive

/-! ### Two runs -/

instance (s : Sys) (t : ℕ) : DecidablePred (s.StopOk t) := fun _ => inferInstanceAs (Decidable (Timer.StopOk _ _))

instance (s : Sys) (t : ℕ) : DecidablePred (s.AfterStop t) := fun _ => inferInstanceAs (Decidable (_ ∧ _))

def stopCall (sent : Option ℕ) : Running := ⟨.task 0, 0, .stop, sent⟩

/-- A periodic timer runs, and the command of a stop is queued. -/
def queueStop : List Act :=
  queueStart ++ [.advance (periodicStart (some 1)), .daemon, .daemon, .daemon, .call (.task 0) 0 .stop,
    .advance (stopCall none)]

theorem stop_is_final_executed : ∃ s₁ s : Sys, s₁.active 0 = true ∧ s.active 0 = false := by
  have h : (exec step (StopOk 0) (boot 1) queueStop).any fun s₁ =>
      s₁.active 0 ∧ (s₁.step (.advance (stopCall (some 2)))).any fun s₂ =>
        (exec step (AfterStop 0) s₂ [.daemon, .daemon]).any fun s => s.pending = [] := by decide +kernel
  obtain ⟨s₁, h₁, h⟩ := run_of_any h
  obtain ⟨hactive, h⟩ := of_decide_eq_true h
  obtain ⟨s₂, hret, h⟩ := (Option.any_eq_true ..).mp h
  obtain ⟨s, h₃, h⟩ := run_of_any h
  have hp : s.pending = [] := of_decide_eq_true h
  exact ⟨s₁, s, hactive, (stop_is_final (r := stopCall (some 2)) rfl nofun h₁ hret .refl h₃).2 (by simp [hp])⟩

/-- The stop returns after `esp_timer_callback` has read `ESP_TIMER_CYCLE`: the reset is queued behind the stop and
arms the timer. -/
theorem stop_not_final : ∃ s₁ s₂ s₃ s : Sys, Run Step (fun _ _ => True) (boot 2) s₁ ∧
    s₁.Step (.advance (stopCall (some 2))) s₂ ∧ Run Step (fun _ a => a.begins 0 Call.starts = false) s₂ s₃ ∧
    s₃.daemon.inCallback 0 = none ∧ Run Step (fun _ a => a.begins 0 Call.starts = false) s₃ s ∧
    s.pending = [] ∧ s.active 0 = true := by
  have h : (exec step (fun _ _ => True) (boot 2)
      (queueStart ++ [.advance (periodicStart (some 1))] ++ expiry ++ [.daemon, .call (.task 0) 0 .stop,
        .advance (stopCall none)])).any fun s₁ =>
      (s₁.step (.advance (stopCall (some 2)))).any fun s₂ =>
        (exec step (fun _ a => a.begins 0 Call.starts = false) s₂ [.daemon, .daemon]).any fun s₃ =>
          s₃.daemon.inCallback 0 = none ∧
          (exec step (fun _ a => a.begins 0 Call.starts = false) s₃ [.daemon, .daemon, .daemon, .daemon]).any fun s =>
            s.pending = [] ∧ s.active 0 = true := by decide +kernel
  obtain ⟨s₁, h₁, h⟩ := run_of_any h
  obtain ⟨s₂, hret, h⟩ := (Option.any_eq_true ..).mp h
  obtain ⟨s₃, h₂, h⟩ := run_of_any h
  obtain ⟨hcb, h⟩ := of_decide_eq_true h
  obtain ⟨s, h₃, h⟩ := run_of_any h
  exact ⟨s₁, s₂, s₃, s, h₁, hret, h₂, hcb, h₃, of_decide_eq_true h⟩

end Sys

end Esp8266Sdk.Timer
