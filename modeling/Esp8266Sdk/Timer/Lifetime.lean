import Esp8266Sdk.Timer.Periodic

/-! The lifetime of a timer. `esp_timer_delete` deallocates the object when its
command is queued; the daemon may then still take an expiry, and
`esp_timer_callback` accesses the object again behind the user callback. -/

namespace Esp8266Sdk.Timer

open Lts

namespace History

variable (h : History) (o : Obj) (c : Command) (pc : Wrapper) (m : Message) (k : Call) (f : Fault) (b : Bool)

@[simp] theorem deleted_note : (h.note f b).deleted = h.deleted := by unfold note; split <;> rfl
@[simp] theorem deleted_access : (h.access o).deleted = h.deleted := h.deleted_note ..
@[simp] theorem deleted_free : (h.free o).deleted = h.deleted := h.deleted_note ..
@[simp] theorem deleted_enter : (h.enter o).deleted = h.deleted := h.deleted_note ..
@[simp] theorem deleted_queue : (h.queue c).deleted = (h.deleted || decide (c = .delete)) := rfl
@[simp] theorem deleted_wrapperSend : (h.wrapperSend o pc).deleted = h.deleted := by
  cases pc <;> first | rfl | exact h.deleted_note ..
@[simp] theorem deleted_execute : (h.execute m).deleted = h.deleted := by unfold execute; split <;> rfl
@[simp] theorem deleted_callNote : (k.note o h).deleted = h.deleted := by cases k <;> first | rfl | exact h.deleted_note ..

@[simp] theorem faults_execute : (h.execute m).faults = h.faults := by unfold execute; split <;> rfl

variable {o}

theorem access_eq (ho : o.block = .live) : h.access o = h := by simp [access, note, ho]

theorem free_eq (ho : o.block = .live) : h.free o = h := by simp [free, note, ho]

theorem wrapperSend_eq (ho : o.block = .live) : h.wrapperSend o pc = h := by
  cases pc <;> first | rfl | exact h.access_eq ho

theorem faults_enter (ho : o.block = .live) : (h.enter o).faults = h.faults := by simp [enter, h.access_eq ho]

theorem faults_queue (hd : h.deleted = false) : (h.queue c).faults = h.faults := by simp [queue, note, hd]

end History

/-- A step that does not go wrong. A handle is not used while or after it is deleted; the delete command is queued
when the daemon is not in the callback and no other call has a command to queue; and from then on the daemon takes no
expiry of the timer. -/
def DeleteOk (v : View) : Event → Prop
  | .call _ => v.obj.block = .live ∧ ∀ r ∈ v.calls, r.call ≠ .delete
  | .send r _ => r.call = .delete → v.cb = none ∧ ∀ r' ∈ v.calls, r' ≠ r → r'.sent ≠ none
  | .expire => v.hist.deleted = false
  | .overdue => v.hist.deleted = false
  | _ => True

instance (v : View) : (e : Event) → Decidable (DeleteOk v e)
  | .call _ => inferInstanceAs (Decidable (_ ∧ _))
  | .send .. => inferInstanceAs (Decidable (_ → _))
  | .expire | .overdue => inferInstanceAs (Decidable (_ = _))
  | .other | .create _ | .fail _ | .finish _ | .take | .execute | .back | .read | .stamp |
    .wrapperSend _ | .refused | .write => inferInstanceAs (Decidable True)

theorem delete_iff {c : Call} {m : Command} (hm : c.command = some m) : m = .delete ↔ c = .delete := by
  cases c with
  | stop | delete =>
    cases hm
    simp
  | _ =>
    simp only [Call.command, changePeriod] at hm
    split at hm
    · cases hm
    · cases hm
      simp

namespace View

variable {v v' : View} {e : Event}

structure Lifetime (v : View) : Prop where
  sane : v.Sane
  faults : v.hist.faults = []
  /-- an object is deallocated after its delete command was queued -/
  freed : v.obj.block = .freed → v.hist.deleted = true
  cb : v.hist.deleted = true → v.cb = none
  calls : v.hist.deleted = true → ∀ r ∈ v.calls, r.sent ≠ none
  deleting : v.hist.deleted = true → v.obj.block = .freed ∨ ∃ r ∈ v.calls, r.call = .delete
  /-- a delete finds its object allocated -/
  live : ∀ r ∈ v.calls, r.call = .delete → v.obj.block = .live
  sent : ∀ r ∈ v.calls, r.call = .delete → r.sent ≠ none → v.hist.deleted = true
  single : ∀ r ∈ v.calls, ∀ r' ∈ v.calls, r.call = .delete → r'.call = .delete → r' = r

theorem lifetime_boot : boot.Lifetime where
  sane := sane_boot
  faults := rfl
  freed := nofun
  cb := nofun
  calls := nofun
  deleting := nofun
  live := nofun
  sent := nofun
  single := nofun

/-- The object that the daemon is about to access. -/
theorem Lifetime.live_of_not_deleted (hv : v.Lifetime) (hd : v.hist.deleted = false) (he : ¬ v.Empty) :
    v.obj.block = .live := by
  cases hb : v.obj.block with
  | unused => exact absurd (hv.sane.empty hb) he
  | live => rfl
  | freed => simp [hv.freed hb] at hd

theorem Lifetime.of_cb (hv : v.Lifetime) {pc : Wrapper} (hc : v.cb = some pc) :
    v.hist.deleted = false ∧ v.obj.block = .live := by
  have hd : v.hist.deleted = false := by
    by_contra hd
    simp [hv.cb (by simpa using hd)] at hc
  exact ⟨hd, hv.live_of_not_deleted hd fun he => by simp [he.cb] at hc⟩

/-- A step that changes neither the calls nor the object nor what is deleted. -/
theorem Lifetime.congr (hv : v.Lifetime) (hs : v'.Sane) (hf : v'.hist.faults = []) (hc : v'.calls = v.calls)
    (ho : v'.obj.block = v.obj.block) (hd : v'.hist.deleted = v.hist.deleted)
    (hcb : v'.hist.deleted = true → v'.cb = none) : v'.Lifetime := by
  refine ⟨hs, hf, ?_, hcb, ?_, ?_, ?_, ?_, ?_⟩
  · rw [ho, hd]
    exact hv.freed
  · rw [hd, hc]
    exact hv.calls
  · rw [hd, hc, ho]
    exact hv.deleting
  · rw [hc, ho]
    exact hv.live
  · rw [hc, hd]
    exact hv.sent
  · rw [hc]
    exact hv.single

theorem Lifetime.step (hv : v.Lifetime) (hok : DeleteOk v e) (h : v.Step e v') : v'.Lifetime := by
  have hs := hv.sane.step h
  cases h with
  | other => exact hv
  | create hu =>
    have he := hv.sane.empty hu
    exact ⟨hs, hv.faults, by simp, hv.cb, hv.calls, by simp [he.hist], fun _ _ _ => rfl, hv.sent, hv.single⟩
  | @call r hb hnone =>
    obtain ⟨hl, hnodel⟩ := hok
    have hd : v.hist.deleted = false := by
      by_contra hd
      obtain hf | ⟨r', hr', hc⟩ := hv.deleting (by simpa using hd)
      · simp [hl] at hf
      · exact hnodel r' hr' hc
    refine ⟨hs, hv.faults, hv.freed, hv.cb, by simp [hd], by simp [hd], fun _ _ _ => hl, fun r' hr' hc hsent => ?_, ?_⟩
    · obtain rfl | hr' := List.mem_cons.mp hr'
      · exact absurd hnone hsent
      · exact absurd hc (hnodel r' hr')
    · intro r₁ h₁ r₂ h₂ hc₁ hc₂
      obtain rfl | h₁ := List.mem_cons.mp h₁
      · obtain rfl | h₂ := List.mem_cons.mp h₂
        · rfl
        · exact absurd hc₂ (hnodel r₂ h₂)
      · exact absurd hc₁ (hnodel r₁ h₁)
  | @send r m hr hnone hm =>
    have hd : v.hist.deleted = false := by
      by_contra hd
      exact hv.calls (by simpa using hd) r hr hnone
    have hf : (v.hist.queue m.command).faults = [] := (History.faults_queue _ _ hd).trans hv.faults
    have hdel : m.command = .delete ↔ r.call = .delete := delete_iff hm
    refine ⟨hs, hf, fun hb => by simp [hv.freed hb], ?_, ?_, ?_, ?_, ?_, ?_⟩
    · simp only [History.deleted_queue, hd, Bool.false_or, decide_eq_true_eq, hdel]
      exact fun hc => (hok hc).1
    · simp only [History.deleted_queue, hd, Bool.false_or, decide_eq_true_eq, hdel]
      intro hc r' hr'
      obtain rfl | hr' := List.mem_cons.mp hr'
      · simp
      · obtain ⟨hr', hne⟩ := List.mem_filter.mp hr'
        exact (hok hc).2 r' hr' (of_decide_eq_true hne)
    · simp only [History.deleted_queue, hd, Bool.false_or, decide_eq_true_eq, hdel]
      exact fun hc => .inr ⟨_, List.mem_cons_self, hc⟩
    · intro r' hr' hc
      obtain rfl | hr' := List.mem_cons.mp hr'
      · exact hv.live r hr hc
      · exact hv.live r' (List.mem_filter.mp hr').1 hc
    · intro r' hr' hc hsent
      obtain rfl | hr' := List.mem_cons.mp hr'
      · simp [hdel.mpr hc]
      · simp [hv.sent r' (List.mem_filter.mp hr').1 hc hsent]
    · intro r₁ h₁ r₂ h₂ hc₁ hc₂
      obtain rfl | h₁ := List.mem_cons.mp h₁ <;> obtain rfl | h₂ := List.mem_cons.mp h₂
      · rfl
      · obtain ⟨h₂, hne⟩ := List.mem_filter.mp h₂
        exact absurd (hv.single r hr r₂ h₂ hc₁ hc₂) (of_decide_eq_true hne)
      · obtain ⟨h₁, hne⟩ := List.mem_filter.mp h₁
        exact absurd (hv.single r hr r₁ h₁ hc₂ hc₁) (of_decide_eq_true hne)
      · exact hv.single r₁ (List.mem_filter.mp h₁).1 r₂ (List.mem_filter.mp h₂).1 hc₁ hc₂
  | @fail r hr hnone =>
    have hd : v.hist.deleted = false := by
      by_contra hd
      exact hv.calls (by simpa using hd) r hr hnone
    have hmem : ∀ r' ∈ v.without r, r' ∈ v.calls := fun r' h => (List.mem_filter.mp h).1
    exact ⟨hs, hv.faults, hv.freed, hv.cb, by simp [hd], by simp [hd], fun r' h => hv.live r' (hmem r' h),
      fun r' h => hv.sent r' (hmem r' h), fun r₁ h₁ r₂ h₂ => hv.single r₁ (hmem r₁ h₁) r₂ (hmem r₂ h₂)⟩
  | @finish r hr hsome =>
    have hmem : ∀ r' ∈ v.without r, r' ∈ v.calls := fun r' h => (List.mem_filter.mp h).1
    by_cases hc : r.call = .delete
    · -- the object is deallocated, and no other delete is in progress
      have hnodel : ∀ r' ∈ v.without r, r'.call ≠ .delete := fun r' h hc' =>
        of_decide_eq_true (List.mem_filter.mp h).2 (hv.single r hr r' (hmem r' h) hc hc')
      have hd := hv.sent r hr hc (Option.isSome_iff_ne_none.mp hsome)
      refine ⟨hs, ?_, by simp [hd], by simpa using hv.cb, fun _ r' h => hv.calls hd r' (hmem r' h), fun _ => .inl ?_,
        fun r' h hc' => absurd hc' (hnodel r' h), by simp [hd], fun r₁ h₁ _ _ hc₁ => absurd hc₁ (hnodel r₁ h₁)⟩
      · simpa [hc, Call.note, History.free_eq _ (hv.live r hr hc)] using hv.faults
      · simp [hc, Call.write]
    · have hb : (r.call.write v.obj).block = v.obj.block := by cases h : r.call <;> first | rfl | exact absurd h hc
      have hn : r.call.note v.obj v.hist = v.hist := by cases h : r.call <;> first | rfl | exact absurd h hc
      have hin : ∀ r' ∈ v.calls, r'.call = .delete → r' ∈ v.without r := fun r' h hc' =>
        List.mem_filter.mpr ⟨h, decide_eq_true fun he => hc (he ▸ hc')⟩
      refine ⟨hs, ?_, ?_, ?_, ?_, ?_, ?_, ?_, fun r₁ h₁ r₂ h₂ => hv.single r₁ (hmem r₁ h₁) r₂ (hmem r₂ h₂)⟩ <;>
        simp only [hn, hb]
      · exact hv.faults
      · exact hv.freed
      · exact hv.cb
      · exact fun hd r' h => hv.calls hd r' (hmem r' h)
      · intro hd
        refine (hv.deleting hd).imp_right ?_
        rintro ⟨r', h, hc'⟩
        exact ⟨r', hin r' h hc', hc'⟩
      · exact fun r' h => hv.live r' (hmem r' h)
      · exact fun r' h => hv.sent r' (hmem r' h)
  | take hp ht hc => exact hv.congr hs hv.faults rfl rfl rfl hv.cb
  | execute hp ht hc => exact hv.congr hs (by simpa using hv.faults) rfl rfl (by simp) fun _ => hc
  | overdue hp ht hc hm =>
    have hd : v.hist.deleted = false := hok
    have hl := hv.live_of_not_deleted hd fun he => by simp [he.pend] at hp
    exact hv.congr hs ((History.faults_enter _ hl).trans hv.faults) rfl rfl (by simp [enter]) (by simp [enter, hd])
  | expire ha hc =>
    have hd : v.hist.deleted = false := hok
    have hl := hv.live_of_not_deleted hd fun he => by simp [he.active] at ha
    exact hv.congr hs ((History.faults_enter _ hl).trans hv.faults) rfl rfl (by simp [enter]) (by simp [enter, hd])
  | back hc => exact hv.congr hs hv.faults rfl rfl rfl (by simp [(hv.of_cb hc).1])
  | read hc | stamp hc | writeStop hc =>
    obtain ⟨hd, hl⟩ := hv.of_cb hc
    exact hv.congr hs (by simpa [History.access_eq _ hl] using hv.faults) rfl rfl (by simp) (by simp [hd])
  | @wrapperSend pc m hc hm =>
    obtain ⟨hd, hl⟩ := hv.of_cb hc
    have hne : m.command ≠ .delete := by
      intro he
      have hw := hv.sane.cb _ hc
      rw [he] at hm
      cases pc with
      | sendDelete => cases hw
      | _ => cases hm
    refine hv.congr hs ?_ rfl rfl (by simp [hne]) (by simp [hd, hne])
    rw [History.wrapperSend_eq _ _ hl, History.faults_queue _ _ hd]
    exact hv.faults
  | refused hc hm =>
    obtain ⟨hd, hl⟩ := hv.of_cb hc
    exact hv.congr hs (by simpa [History.wrapperSend_eq _ _ hl] using hv.faults) rfl rfl (by simp) (by simp [hd])
  | dealloc hc => exact absurd (hv.sane.cb _ hc) (by simp [Wrapper.deletes])

end View

namespace Sys

/-- A step that does not go wrong for the timer. -/
def DeleteOk (t : ℕ) (s : Sys) (a : Act) : Prop := Timer.DeleteOk (s.view t) (s.event t a)

/-- The callback accesses no object that was deallocated, no object is deallocated twice, and no command is queued
after the delete command. -/
theorem lifetime_safe {n t : ℕ} {s : Sys} (h : Run Step (DeleteOk t) (boot n) s) : (s.hist t).faults = [] :=
  ((run_view (fun _ _ h => h) h).invariant (I := View.Lifetime) View.Lifetime.step View.lifetime_boot).faults

/-! ### Two runs -/

instance (s : Sys) (t : ℕ) : DecidablePred (s.DeleteOk t) := fun _ => inferInstanceAs (Decidable (Timer.DeleteOk _ _))

def deleteCall (caller : Caller) (sent : Option ℕ) : Running := ⟨caller, 0, .delete, sent⟩

/-- A running periodic timer is deleted by a task, and the daemon executes the command. -/
theorem lifetime_safe_deleted : ∃ s : Sys, (s.objs 0).block = .freed ∧ (s.hist 0).faults = [] := by
  have h : (exec step (DeleteOk 0) (boot 1) (queueStart ++ [.advance (periodicStart (some 1)), .daemon, .daemon, .daemon,
      .call (.task 0) 0 .delete, .advance (deleteCall (.task 0) none), .advance (deleteCall (.task 0) (some 2)),
      .daemon, .daemon])).any fun s => (s.objs 0).block = .freed := by decide +kernel
  obtain ⟨s, h₁, h⟩ := run_of_any h
  exact ⟨s, of_decide_eq_true h, lifetime_safe h₁⟩

/-- No handle is used after its delete returned 0. -/
def HandleOk (s : Sys) : Act → Prop
  | .call _ t _ => (s.objs t).block ≠ .freed
  | _ => True

instance (s : Sys) : DecidablePred s.HandleOk
  | .call .. => inferInstanceAs (Decidable (_ ≠ _))
  | .tick | .create .. | .advance _ | .daemon => inferInstanceAs (Decidable True)

/-- The user callback of a periodic timer deletes it: `esp_timer_callback` reads the deallocated object, finds
`ESP_TIMER_CYCLE` and queues a reset behind the delete. -/
theorem lifetime_unsafe : ∃ s : Sys, Run Step HandleOk (boot 2) s ∧
    .access ∈ (s.hist 0).faults ∧ .command ∈ (s.hist 0).faults := by
  have h : (exec step HandleOk (boot 2) (queueStart ++ [.advance (periodicStart (some 1)), .daemon, .daemon, .daemon,
      .daemon, .tick, .daemon, .call .daemon 0 .delete, .advance (deleteCall .daemon none),
      .advance (deleteCall .daemon (some 2)), .daemon, .daemon, .daemon, .daemon])).any fun s =>
        .access ∈ (s.hist 0).faults ∧ .command ∈ (s.hist 0).faults := by decide +kernel
  obtain ⟨s, h₁, h⟩ := run_of_any h
  exact ⟨s, h₁, of_decide_eq_true h⟩

end Sys

end Esp8266Sdk.Timer
