import Esp8266Sdk.Timer.View

/-! A step of the system is a step of each timer's view. For every function of
the model there is the event it is to the timer it is about; the views of the
other timers stay as they are. -/

namespace Esp8266Sdk.Timer

open Lts

variable {s s' : Sys} {t u : ℕ}

theorem View.Step.of_eq {v w w' : View} {e : Event} (h : v.Step e w') (he : w = w') : v.Step e w := he ▸ h

namespace Sys

/-- A step that is the event `o`, and nothing to the timers it is not about. -/
def Affects (s : Sys) (o : Option (ℕ × Event)) (s' : Sys) : Prop :=
  match o with
  | none => ∀ t, s'.view t = s.view t
  | some (u, e) => (s.view u).Step e (s'.view u) ∧ ∀ t, t ≠ u → s'.view t = s.view t

theorem Affects.congr {s₁ : Sys} {o : Option (ℕ × Event)} (hv : ∀ t, s₁.view t = s.view t) (h : s₁.Affects o s') :
    s.Affects o s' := by
  cases o with
  | none => exact fun t => (h t).trans (hv t)
  | some x => exact ⟨hv x.1 ▸ h.1, fun t ht => (h.2 t ht).trans (hv t)⟩

/-! ### The daemon -/

theorem execute_affects {m : Message} {now : UInt32} (hm : s.daemon.executing = some m)
    (hcb : ∀ t, s.daemon.inCallback t = none) :
    s.Affects (some (m.timer, s.executeEvent m now)) (s.execute m now) := by
  have hp : (s.view m.timer).pend = m :: s.queue.filter (·.timer = m.timer) := by
    simp [view, pending, hm]
  have ht : (s.view m.timer).taken = true := by simp [view, hm]
  cases hc : m.command with
  | stop =>
    simp only [executeEvent, execute, hc]
    refine ⟨(View.Step.execute hp ht (hcb _)).of_eq ?_, fun t h => ?_⟩
    · ext1 <;> simp [view, active, pending, hcb, hc, History.execute, Command.arms]
    · ext1 <;> simp [view, active, pending, hcb, hm, h.symm]
  | delete =>
    simp only [executeEvent, execute, hc]
    refine ⟨(View.Step.execute hp ht (hcb _)).of_eq ?_, fun t h => ?_⟩
    · ext1 <;> simp [view, active, pending, hcb, hc, History.execute, Command.arms]
    · ext1 <;> simp [view, active, pending, hcb, hm, h.symm]
  | changePeriod p =>
    set s₁ : Sys := { s.setHist m.timer { s.hist m.timer with source := m.no } with
      period := Function.update s.period m.timer p } with hs₁
    have hin : (s₁.prvInsertTimerInActiveList m.timer (now + p) now now).1 = false := by
      have hp : s₁.period m.timer = p := by simp [hs₁]
      exact hp ▸ s₁.insert_of_change m.timer now (hp ▸ p.2)
    obtain ⟨c, o, heq, hact⟩ := s₁.insert_eq m.timer (now + p) now now
    simp only [hin, Bool.not_false, Bool.and_true] at hact
    simp only [executeEvent, execute, hc, ← hs₁, heq]
    refine ⟨(View.Step.execute hp ht (hcb _)).of_eq ?_, fun t h => ?_⟩
    · ext1 <;> simp [view, active, hs₁, pending, hcb, hc, History.execute, Command.arms, hact, setHist]
    · ext1 <;> simp [view, active, hs₁, pending, hcb, hm, h, h.symm, hact, setHist]
  | reset time =>
    obtain ⟨c, o, heq, hact⟩ := s.insert_eq m.timer (time + s.period m.timer) now time
    cases hin : (s.prvInsertTimerInActiveList m.timer (time + s.period m.timer) now time).1 with
    | false =>
      have hpair : s.prvInsertTimerInActiveList m.timer (time + s.period m.timer) now time =
        (false, { s with current := c, overflow := o }) := Prod.ext hin heq
      simp only [executeEvent, execute, hc, hpair]
      refine ⟨(View.Step.execute hp ht (hcb _)).of_eq ?_, fun t h => ?_⟩
      · ext1 <;> simp [view, active, pending, hcb, hc, History.execute, Command.arms, hin, hact]
      · ext1 <;> simp [view, active, pending, hcb, hm, h.symm, hact]
    | true =>
      have hpair : s.prvInsertTimerInActiveList m.timer (time + s.period m.timer) now time =
        (true, { s with current := c, overflow := o }) := Prod.ext hin heq
      simp only [executeEvent, execute, hc, hpair]
      refine ⟨(View.Step.overdue hp ht (hcb _) hc).of_eq ?_, fun t h => ?_⟩
      · ext1 <;> simp [view, active, pending, hcb, hin, hact, enter, View.enter, setHist, Site.back]
      · ext1 <;> simp [view, active, pending, hcb, hm, h, h.symm, hact, enter, setHist, Site.back]

/-- The head of the current list expires. -/
theorem expire_affects {x : UInt32 × ℕ} {l : List (UInt32 × ℕ)} {site : Site} (hx : s.current = x :: l)
    (hcb : ∀ t, s.daemon.inCallback t = none) (hsite : site.back.executing = s.daemon.executing) :
    s.Affects (some (x.2, .expire)) ((s.uxListRemove x.2).enter x.2 site) := by
  have hactive : (s.view x.2).active = true := by simp [view, active, hx]
  refine ⟨(View.Step.expire hactive (hcb _)).of_eq ?_, fun t h => ?_⟩
  · ext1 <;> simp [view, pending, active, uxListRemove, enter, View.enter, setHist, hsite]
  · have hne := active_uxListRemove_of_ne s h
    ext1 <;> simp_all [view, pending, active, uxListRemove, enter, setHist, h.symm]

/-- A send is done, or it is refused and changes nothing. -/
theorem generic_cases {c : Command} {r : Bool × Sys} (h : s.xTimerGenericCommand t c = some r) :
    (s.queue.length < s.uxLength ∧ r = (true, { s.setHist t ((s.hist t).queue c) with
      queue := s.queue ++ [⟨s.queued, t, c⟩], queued := s.queued + 1 })) ∨
    (¬ s.queue.length < s.uxLength ∧ r = (false, s)) := by
  unfold xTimerGenericCommand at h
  split at h
  · exact .inl ⟨‹_›, (Option.some.inj h).symm⟩
  · split at h
    · exact .inr ⟨‹_›, (Option.some.inj h).symm⟩
    · cases h

theorem wrapper_affects {site : Site} {pc : Wrapper} (hd : s.daemon = .callback site u pc)
    (h : s.wrapper u site pc = some s') : s.Affects (some (u, s.wrapperEvent u pc)) s' := by
  have hcb : (s.view u).cb = some pc := by simp [view, hd]
  cases pc with
  | user =>
    simp only [wrapper] at h
    split at h
    · cases h
    · cases h
      refine ⟨(View.Step.back hcb).of_eq ?_, fun t h => ?_⟩
      · ext1 <;> simp [view, pending, active, hd]
      · ext1 <;> simp [view, pending, active, hd, h.symm]
  | tail =>
    refine ⟨(View.Step.read hcb).of_eq ?_, fun t ht => ?_⟩ <;> simp only [wrapper] at h <;> split at h <;> cases h
    all_goals ext1 <;> simp_all [view, pending, active, access, setHist, TimerState.wrapper, @eq_comm _ u]
  | stamp =>
    cases h
    refine ⟨(@View.Step.stamp _ s.xTickCount hcb).of_eq ?_, fun t h => ?_⟩
    · ext1 <;> simp [view, pending, active, hd, access, setHist]
    · ext1 <;> simp [view, pending, active, hd, h, h.symm, access, setHist]
  | writeStop =>
    cases h
    refine ⟨(View.Step.writeStop hcb).of_eq ?_, fun t h => ?_⟩
    · ext1 <;> simp [view, pending, active, hd, access, setHist, setObj]
    · ext1 <;> simp [view, pending, active, hd, h, h.symm, access, setHist, setObj]
  | dealloc =>
    cases h
    refine ⟨(View.Step.dealloc hcb).of_eq ?_, fun t h => ?_⟩
    · ext1 <;> simp [view, pending, active, hd, dealloc, setHist, setObj]
    · ext1 <;> simp [view, pending, active, hd, h, h.symm, dealloc, setHist, setObj]
  | sendReset time =>
    obtain ⟨r, hr, rfl⟩ := Option.map_eq_some_iff.mp h
    obtain ⟨hroom, rfl⟩ | ⟨hroom, rfl⟩ := generic_cases hr
    · simp only [wrapperEvent, sendEvent, if_pos hroom]
      refine ⟨(View.Step.wrapperSend hcb rfl).of_eq ?_, fun t h => ?_⟩
      · ext1 <;> simp [view, pending, active, hd, setHist, Wrapper.next, History.wrapperSend]
      · ext1 <;> simp [view, pending, active, hd, h, h.symm, setHist]
    · simp only [wrapperEvent, sendEvent, if_neg hroom]
      refine ⟨(View.Step.refused hcb (Option.some_ne_none _)).of_eq ?_, fun t h => ?_⟩
      · ext1 <;> simp [view, pending, active, hd, Wrapper.next, History.wrapperSend]
      · ext1 <;> simp [view, pending, active, hd, h.symm]
  | sendStop =>
    obtain ⟨r, hr, rfl⟩ := Option.map_eq_some_iff.mp h
    obtain ⟨hroom, rfl⟩ | ⟨hroom, rfl⟩ := generic_cases hr <;>
      simp only [access, setHist] at hroom
    · simp only [wrapperEvent, sendEvent, if_pos hroom]
      refine ⟨(View.Step.wrapperSend hcb rfl).of_eq ?_, fun t h => ?_⟩
      · ext1 <;> simp [view, pending, active, hd, access, setHist, Wrapper.next, History.wrapperSend]
      · ext1 <;> simp [view, pending, active, hd, h, h.symm, access, setHist]
    · simp only [wrapperEvent, sendEvent, if_neg hroom]
      refine ⟨(View.Step.refused hcb (Option.some_ne_none _)).of_eq ?_, fun t h => ?_⟩
      · ext1 <;> simp [view, pending, active, hd, access, setHist, Wrapper.next, History.wrapperSend]
      · ext1 <;> simp [view, pending, active, hd, h, h.symm, access, setHist]
  | sendDelete =>
    obtain ⟨r, hr, rfl⟩ := Option.map_eq_some_iff.mp h
    obtain ⟨hroom, rfl⟩ | ⟨hroom, rfl⟩ := generic_cases hr <;>
      simp only [access, setHist] at hroom
    · simp only [wrapperEvent, sendEvent, if_pos hroom]
      refine ⟨(View.Step.wrapperSend hcb rfl).of_eq ?_, fun t h => ?_⟩
      · ext1 <;> simp [view, pending, active, hd, access, setHist, Wrapper.next, History.wrapperSend]
      · ext1 <;> simp [view, pending, active, hd, h, h.symm, access, setHist]
    · simp only [wrapperEvent, sendEvent, if_neg hroom]
      refine ⟨(View.Step.refused hcb (Option.some_ne_none _)).of_eq ?_, fun t h => ?_⟩
      · ext1 <;> simp [view, pending, active, hd, access, setHist, Wrapper.next, History.wrapperSend]
      · ext1 <;> simp [view, pending, active, hd, h, h.symm, access, setHist]

theorem view_exchange (s : Sys) (t : ℕ) : s.exchange.view t = s.view t := by
  simp only [view, active_exchange]
  rfl

theorem executeEvent_congr {s₁ : Sys} (h : s₁.period = s.period) (m : Message) (now : UInt32) :
    s₁.executeEvent m now = s.executeEvent m now := by
  simp only [executeEvent, prvInsertTimerInActiveList, h]
  split
  · split_ifs <;> rfl
  · rfl

theorem execute_affects_of {s₀ : Sys} (hv : ∀ t, s.view t = s₀.view t) (hp : s₀.period = s.period) {m : Message}
    {now : UInt32} (hm : s.daemon.executing = some m) (hcb : ∀ t, s.daemon.inCallback t = none) :
    s₀.Affects (some (m.timer, s₀.executeEvent m now)) (s.execute m now) := by
  rw [executeEvent_congr hp]
  exact (execute_affects hm hcb).congr hv

theorem daemonStep_affects (h : s.daemonStep = some s') : s.Affects s.daemonEvent s' := by
  obtain ⟨uxLength, tick, last, current, overflow, period, queue, queued, objs, calls, daemon, hist⟩ := s
  cases daemon with
  | top =>
    simp only [daemonStep] at h
    simp only [daemonEvent]
    split at h
    · cases h
      cases current with
      | nil => exact fun t => rfl
      | cons x l =>
        simp only [if_pos (Or.inl ‹_›)]
        exact fun t => rfl
    · cases current with
      | nil =>
        cases h
        exact fun t => rfl
      | cons x l =>
        simp only at h ⊢
        split at h
        · cases h
          rw [if_neg (not_or.mpr ⟨‹_›, UInt32.not_lt.mpr ‹_›⟩)]
          exact Affects.congr (fun t => rfl) (expire_affects rfl (fun _ => rfl) rfl)
        · cases h
          rw [if_pos (.inr (UInt32.not_le.mp ‹_›))]
          exact fun t => rfl
  | receive =>
    cases queue with
    | nil =>
      cases h
      exact fun t => rfl
    | cons m q =>
      cases h
      refine ⟨(View.Step.take (?_ : _ = m :: q.filter (·.timer = m.timer)) rfl rfl).of_eq ?_, fun t h => ?_⟩
      · simp [view, pending]
      · ext1 <;> simp [view, pending, active, uxListRemove]
      · have hne := active_uxListRemove_of_ne (u := m.timer) ⟨uxLength, tick, last, current, overflow, period, m :: q, queued,
          objs, calls, .receive, hist⟩ h
        ext1 <;> simp_all [view, pending, active, uxListRemove, h.symm]
  | received m =>
    simp only [daemonStep] at h
    simp only [daemonEvent]
    split at h
    · cases h
      rw [if_pos ‹_›]
      exact fun t => rfl
    · cases h
      rw [if_neg ‹_›]
      refine execute_affects_of (fun t => ?_) ?_ ?_ fun t => ?_ <;> rfl
  | switchBlock =>
    cases current with
    | nil =>
      cases h
      exact Affects.congr (view_exchange _) fun t => rfl
    | cons x l =>
      cases h
      exact expire_affects rfl (fun _ => rfl) rfl
  | switchReceived now m =>
    cases current with
    | nil =>
      cases h
      exact execute_affects_of (s := exchange _) (view_exchange _) rfl rfl fun _ => rfl
    | cons x l =>
      cases h
      exact expire_affects rfl (fun _ => rfl) rfl
  | callback site u pc => exact wrapper_affects rfl h

/-! ### The tasks -/

/-- To another timer no call ended. -/
theorem filter_without (l : List Running) {r : Running} (h : t ≠ r.timer) :
    (l.filter (· ≠ r)).filter (·.timer = t) = l.filter (·.timer = t) := by
  rw [List.filter_filter]
  refine List.filter_congr fun x _ => ?_
  by_cases hx : x.timer = t
  · have hxr : x ≠ r := fun hxr => h (hxr ▸ hx.symm)
    simp [hx, hxr]
  · simp [hx]

theorem callStep_affects {r : Running} (hr : r ∈ s.calls) (h : s.callStep r = some s') :
    s.Affects (some (r.timer, s.callEvent r)) s' := by
  have hmem : r ∈ (s.view r.timer).calls := by simpa [view] using hr
  cases hs : r.sent with
  | some no =>
    simp only [callStep, hs] at h
    cases h
    simp only [callEvent, hs]
    refine ⟨(View.Step.finish hmem (by simp [hs])).of_eq ?_, fun t ht => ?_⟩
    · simp only [finish]
      split <;> ext1 <;>
        simp [view, pending, active, without, View.without, setObj, setHist, dealloc, Call.write, Call.note,
          Bool.and_comm, *]
    · have hc := filter_without s.calls ht
      simp only [finish]
      split <;> ext1 <;> simp_all [view, pending, active, without, setObj, setHist, dealloc]
  | none =>
    simp only [callStep, hs] at h
    split at h
    · cases h
      simp only [callEvent, hs, ‹r.call.command = none›]
      refine ⟨(View.Step.fail hmem hs).of_eq ?_, fun t ht => ?_⟩
      · ext1 <;> simp [view, pending, active, without, View.without, Bool.and_comm]
      · have hc := filter_without s.calls ht
        ext1 <;> simp_all [view, pending, active, without]
    · rename_i c hc
      obtain ⟨x, hx, rfl⟩ := Option.map_eq_some_iff.mp h
      obtain ⟨hroom, rfl⟩ | ⟨hroom, rfl⟩ := generic_cases hx
      · simp only [callEvent, hs, hc, sendEvent, if_pos hroom, if_true]
        refine ⟨(View.Step.send (m := ⟨s.queued, r.timer, c⟩) hmem hs hc).of_eq ?_, fun t ht => ?_⟩
        · ext1 <;> simp [view, pending, active, without, View.without, setHist, Bool.and_comm]
        · have hf := filter_without s.calls ht
          ext1 <;> simp_all [view, pending, active, without, setHist, ht.symm]
      · simp only [callEvent, hs, hc, sendEvent, if_neg hroom]
        refine ⟨(View.Step.fail hmem hs).of_eq ?_, fun t ht => ?_⟩
        · ext1 <;> simp [view, pending, active, without, View.without, Bool.and_comm]
        · have hf := filter_without s.calls ht
          ext1 <;> simp_all [view, pending, active, without]

theorem step_affects {a : Act} (h : s.Step a s') : s.Affects (s.about a) s' := by
  cases a with
  | tick =>
    simp only [Step, step] at h
    split at h
    · cases h
    · cases h
      exact fun t => rfl
  | create c u callback =>
    simp only [Step, step] at h
    split at h
    · rename_i hc
      cases h
      refine ⟨(View.Step.create hc.2).of_eq ?_, fun t ht => ?_⟩
      · ext1 <;> simp [view, pending, active, setObj]
      · ext1 <;> simp [view, pending, active, setObj, ht]
    · cases h
  | call c u call =>
    simp only [Step, step] at h
    split at h
    · rename_i hc
      cases h
      refine ⟨(View.Step.call hc.2 rfl).of_eq ?_, fun t ht => ?_⟩
      · ext1 <;> simp [view, pending, active]
      · ext1 <;> simp [view, pending, active, ht.symm]
    · cases h
  | advance r =>
    simp only [Step, step] at h
    split at h
    · exact callStep_affects (‹r ∈ s.calls ∧ _›).1 h
    · cases h
  | daemon => exact daemonStep_affects h

/-- A step of the system is a step of each of its views. -/
theorem view_step {a : Act} (t : ℕ) (h : s.Step a s') : (s.view t).Step (s.event t a) (s'.view t) := by
  have ha := step_affects h
  unfold event
  cases ho : s.about a with
  | none =>
    rw [ho] at ha
    exact ha t ▸ .other
  | some x =>
    rw [ho] at ha
    change (s.view t).Step (if x.1 = t then x.2 else .other) _
    by_cases hx : x.1 = t
    · rw [if_pos hx]
      exact hx ▸ ha.1
    · rw [if_neg hx]
      exact ha.2 t (Ne.symm hx) ▸ .other

theorem run_view {ok : Sys → Act → Prop} {Q : View → Event → Prop} (hok : ∀ s a, ok s a → Q (s.view t) (s.event t a))
    (h : Run Step ok s s') : Run View.Step Q (s.view t) (s'.view t) :=
  h.map (f := (·.view t)) (g := (·.event t)) (view_step t) hok

/-! ### Calls as events -/

theorem wrapperEvent_ne_call (s : Sys) (t : ℕ) (pc : Wrapper) (r : Running) : s.wrapperEvent t pc ≠ .call r := by
  cases pc <;> simp only [wrapperEvent, sendEvent, ne_eq, reduceCtorEq, not_false_eq_true]
  all_goals split <;> nofun

theorem executeEvent_ne_call (s : Sys) (m : Message) (now : UInt32) (r : Running) : s.executeEvent m now ≠ .call r := by
  simp only [executeEvent]
  split
  · split <;> nofun
  · nofun

/-- Only the beginning of a call is that event. -/
theorem eq_call_of_event {a : Act} {r : Running} (h : s.event t a = .call r) : a = .call r.caller t r.call := by
  unfold event at h
  split at h
  · rename_i u e ho
    split at h
    · rename_i hu
      subst hu h
      cases a with
      | call c u call =>
        cases ho
        rfl
      | daemon =>
        simp only [about, daemonEvent] at ho
        have hw := wrapperEvent_ne_call s u
        have he := executeEvent_ne_call s
        grind
      | advance r' =>
        simp only [about, callEvent, sendEvent] at ho
        grind
      | _ => cases ho
    · cases h
  · cases h

theorem begins_of_event {a : Act} {r : Running} (h : s.event t a = .call r) (P : Call → Bool) :
    a.begins t P = P r.call := by
  simp [eq_call_of_event h, Act.begins]

/-- A call whose command was queued returns 0. -/
theorem event_finish (s : Sys) {r : Running} (hr : r.sent ≠ none) : s.event r.timer (.advance r) = .finish r := by
  obtain ⟨k, hk⟩ := Option.ne_none_iff_exists'.mp hr
  simp [event, about, callEvent, hk]

end Sys

end Esp8266Sdk.Timer
