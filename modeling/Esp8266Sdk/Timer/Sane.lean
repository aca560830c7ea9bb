import Esp8266Sdk.Timer.Simulation

/-! What holds of every timer in every run. The state `ESP_TIMER_DELETE` is never
written, so that `esp_timer_callback` never deletes; a command that is being
executed finds its timer in no list; and an address without an object has no
commands, no calls and no expiries. -/

namespace Esp8266Sdk.Timer

open Lts

/-- `esp_timer_callback` deletes the timer. -/
def Wrapper.deletes : Wrapper → Bool
  | .sendDelete => true
  | .dealloc => true
  | _ => false

/-- An address that no object was created at. -/
structure View.Empty (v : View) : Prop where
  active : v.active = false
  pend : v.pend = []
  cb : v.cb = none
  calls : v.calls = []
  hist : v.hist = {}

structure View.Sane (v : View) : Prop where
  quiet : v.taken = true → v.active = false
  state : v.obj.state ≠ .delete
  cb : ∀ pc, v.cb = some pc → pc.deletes = false
  empty : v.obj.block = .unused → v.Empty

/-- The view of a timer before it is created. -/
def View.boot : View := ⟨false, [], false, none, [], ⟨false, .init, .unused⟩, {}⟩

namespace View

variable {v v' : View} {e : Event}

theorem sane_boot : View.boot.Sane where
  quiet := fun h => by cases h
  state := fun h => by cases h
  cb := fun _ h => by cases h
  empty := fun _ => ⟨rfl, rfl, rfl, rfl, rfl⟩

/-- A call never writes `ESP_TIMER_DELETE`. -/
theorem write_state (c : Call) {o : Obj} (h : o.state ≠ .delete) : (c.write o).state ≠ .delete := by
  cases c <;> simp_all [Call.write]

theorem write_unused (c : Call) {o : Obj} (h : (c.write o).block = .unused) : o.block = .unused := by
  cases c <;> simp_all [Call.write]

theorem not_deletes_enter (o : Obj) : ∀ pc, some (if o.callback then Wrapper.user else .tail) = some pc → pc.deletes = false := by
  rintro pc h
  cases h
  split <;> rfl

theorem wrapper_deletes {st : TimerState} (h : st ≠ .delete) {pc : Wrapper} (hpc : st.wrapper = some pc) : pc.deletes = false := by
  cases st <;> simp [TimerState.wrapper] at h hpc
  all_goals
    subst hpc
    rfl

theorem next_deletes {pc pc' : Wrapper} (h : pc.deletes = false) (hpc : pc.next = some pc') : pc'.deletes = false := by
  cases pc <;> simp [Wrapper.next, Wrapper.deletes] at h hpc
  subst hpc
  rfl

theorem Sane.step (hs : v.Sane) (h : v.Step e v') : v'.Sane := by
  cases h with
  | other => exact hs
  | create =>
    exact ⟨hs.quiet, by simp, hs.cb, fun h => by cases h⟩
  | call hb => exact ⟨hs.quiet, hs.state, hs.cb, fun h => absurd h hb⟩
  | send hr => exact ⟨hs.quiet, hs.state, hs.cb, fun hu => by simp [(hs.empty hu).calls] at hr⟩
  | fail hr => exact ⟨hs.quiet, hs.state, hs.cb, fun hu => by simp [(hs.empty hu).calls] at hr⟩
  | finish hr =>
    exact ⟨hs.quiet, write_state _ hs.state, hs.cb, fun hu => by simp [(hs.empty (write_unused _ hu)).calls] at hr⟩
  | take hp => exact ⟨fun _ => rfl, hs.state, hs.cb, fun hu => by simp [(hs.empty hu).pend] at hp⟩
  | execute hp => exact ⟨fun h => (by cases h), hs.state, hs.cb, fun hu => by simp [(hs.empty hu).pend] at hp⟩
  | overdue hp =>
    exact ⟨fun h => (by cases h), hs.state, not_deletes_enter _, fun hu => by simp [(hs.empty hu).pend] at hp⟩
  | expire ha => exact ⟨fun _ => rfl, hs.state, not_deletes_enter _, fun hu => by simp [(hs.empty hu).active] at ha⟩
  | back hc =>
    exact ⟨hs.quiet, hs.state, fun pc h => by cases h; rfl, fun hu => by simp [(hs.empty hu).cb] at hc⟩
  | read hc =>
    exact ⟨hs.quiet, hs.state, fun _ => wrapper_deletes hs.state, fun hu => by simp [(hs.empty hu).cb] at hc⟩
  | stamp hc => exact ⟨hs.quiet, hs.state, fun pc h => by cases h; rfl, fun hu => by simp [(hs.empty hu).cb] at hc⟩
  | wrapperSend hc =>
    exact ⟨hs.quiet, hs.state, fun _ => next_deletes (hs.cb _ hc), fun hu => by simp [(hs.empty hu).cb] at hc⟩
  | refused hc =>
    exact ⟨hs.quiet, hs.state, fun _ => next_deletes (hs.cb _ hc), fun hu => by simp [(hs.empty hu).cb] at hc⟩
  | writeStop hc => exact ⟨hs.quiet, by simp, fun pc h => (by cases h), fun hu => by simp [(hs.empty hu).cb] at hc⟩
  | dealloc hc => exact absurd (hs.cb _ hc) (by simp [Wrapper.deletes])

/-- Where the calls after a step come from. -/
theorem Step.calls (h : v.Step e v') (r : Running) (hr : r ∈ v'.calls) :
    r ∈ v.calls ∨ (e = .call r ∧ r.sent = none) ∨
      ∃ r₀ m, e = .send r₀ m ∧ r₀ ∈ v.calls ∧ r = { r₀ with sent := some m.no } := by
  cases h with
  | call _ hs =>
    obtain rfl | hr := List.mem_cons.mp hr
    · exact .inr (.inl ⟨rfl, hs⟩)
    · exact .inl hr
  | send hr₀ =>
    obtain rfl | hr := List.mem_cons.mp hr
    · exact .inr (.inr ⟨_, _, rfl, hr₀, rfl⟩)
    · exact .inl (List.mem_filter.mp hr).1
  | fail => exact .inl (List.mem_filter.mp hr).1
  | finish => exact .inl (List.mem_filter.mp hr).1
  | _ => exact .inl hr

theorem Step.call_eq (h : v.Step e v') (r : Running) (hr : r ∈ v'.calls) :
    (∃ r₀ ∈ v.calls, r.call = r₀.call) ∨ e = .call r := by
  obtain hold | ⟨he, -⟩ | ⟨r₀, m, -, hr₀, rfl⟩ := h.calls r hr
  · exact .inl ⟨r, hold, rfl⟩
  · exact .inr he
  · exact .inl ⟨r₀, hr₀, rfl⟩

/-- Calls that overlap only with calls of their kind stay so. -/
theorem Step.kinds {κ : Type} {f : Call → κ} (h : v.Step e v') (hv : ∀ r ∈ v.calls, ∀ r' ∈ v.calls, f r'.call = f r.call)
    (hok : ∀ r, e = .call r → ∀ r' ∈ v.calls, f r'.call = f r.call) :
    ∀ r ∈ v'.calls, ∀ r' ∈ v'.calls, f r'.call = f r.call := by
  intro r hr r' hr'
  obtain ⟨r₀, hr, hc⟩ | hr := h.call_eq r hr <;> obtain ⟨r₀', hr', hc'⟩ | hr' := h.call_eq r' hr'
  · rw [hc, hc']
    exact hv r₀ hr r₀' hr'
  · rw [hc]
    exact (hok r' hr' r₀ hr).symm
  · rw [hc']
    exact hok r hr r₀' hr'
  · cases hr.symm.trans hr'
    rfl

end View

end Esp8266Sdk.Timer
