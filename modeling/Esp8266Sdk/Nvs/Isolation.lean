import Esp8266Sdk.Lts.Run
import Esp8266Sdk.Nvs.Durability
import Esp8266Sdk.Nvs.Frame
import Esp8266Sdk.Nvs.Concurrent

/-! Namespaces. `nvs_open` keeps the index of a name in namespace 0, and gives
every new name the index 10. Writes through a handle of one index leave what is
read through a handle of another, and the registry stays as it is while nothing
is written through the index 0. -/

namespace Esp8266Sdk.Nvs

open Nor Prog Kv

/-- A call made on a stack of the given depth, or a reboot. -/
inductive Event
  | call (depth : ℕ) (c : Call)
  | reboot

namespace Event

/-- The call returns. -/
def Step (env : Env) (w : NvsWorld) : Event → NvsWorld → Prop
  | call depth c, w' => ∃ r, (c.prog env depth).run w = (.ok r, w')
  | reboot, w' => w' = powerOn w.flash

/-- The event is a reboot or a call that meets the condition. -/
def Meets (P : Call → Prop) : Event → Prop
  | call _ c => P c
  | reboot => True

end Event

/-- Power is lost between calls only. -/
def betweenCalls : ℕ → NvsWorld → Call → ℕ → Prop := fun _ _ _ k => k = 0

/-- A set or an erasure through a handle of the namespace. -/
def Call.WritesTo (nsIndex : UInt8) : Call → Prop
  | .set _ handle _ | .eraseKey handle _ | .eraseAll handle => nsIndexOf handle = nsIndex
  | _ => False

/-- A call that erases nothing of the namespace and sets nothing in it. -/
def Call.Leaves (nsIndex : UInt8) : Call → Prop
  | .set _ handle _ | .eraseKey handle _ | .eraseAll handle => nsIndexOf handle ≠ nsIndex
  | .flashErase => False
  | _ => True

instance (nsIndex : UInt8) : (c : Call) → Decidable (c.WritesTo nsIndex)
  | .set .. | .eraseKey .. | .eraseAll _ => inferInstanceAs (Decidable (_ = _))
  | .flashInit | .flashDeinit | .flashErase | .open _ | .close _ | .commit _ | .get .. =>
    inferInstanceAs (Decidable False)

instance (nsIndex : UInt8) : (c : Call) → Decidable (c.Leaves nsIndex)
  | .set .. | .eraseKey .. | .eraseAll _ => inferInstanceAs (Decidable (_ ≠ _))
  | .flashErase => inferInstanceAs (Decidable False)
  | .flashInit | .flashDeinit | .open _ | .close _ | .commit _ | .get .. => inferInstanceAs (Decidable True)

/-! ### The abstract store -/

namespace Store

variable (s : Store) (depth : ℕ)

/-- Writes to one namespace do not change what is found in another. -/
theorem lookup_step {nsIndex : UInt8} {c : Call} (h : c.WritesTo nsIndex) {name : UInt8 × List UInt8}
    (hne : nsIndex ≠ name.1) : (s.step depth c).2.log.lookup name = s.log.lookup name := by
  cases c with
  | set st handle key =>
    change nsIndexOf handle = nsIndex at h
    have hname : (newRecord (nsIndexOf handle) st.itemType.code key.bytes st.data st.length).name ≠ name := by
      rintro rfl
      exact hne h.symm
    refine (lookup_putRecord _ depth _ hname).trans (Log.lookup_drop_other fun e _ he hp => hne ?_)
    rw [← he, hp.1, h]
  | eraseKey handle key =>
    refine Log.lookup_drop_other fun e _ he hp => hne ?_
    rw [← he, hp]
    exact h.symm
  | eraseAll handle =>
    refine Log.lookup_drop_other fun e _ he hp => hne ?_
    rw [← he, hp]
    exact h.symm
  | _ => exact h.elim

variable {s depth}

theorem mem_putRecord {n : ℕ} {e x : Record} (h : x ∈ s.log) : x ∈ (s.put depth n e).2.log := by
  unfold put
  split_ifs <;> first | exact h | exact Log.mem_put.2 (.inl h)

/-- A record whose `put` returned `ESP_OK` is in the store. -/
theorem mem_of_put {n : ℕ} {e : Record} (h : (s.put depth n e).1 = .ok espOk) : e ∈ (s.put depth n e).2.log := by
  unfold put at h ⊢
  split_ifs at h ⊢ <;> first | exact Log.mem_put.2 (.inr rfl) | cases h

/-- A record stays while its namespace is left alone. -/
theorem mem_step {c : Call} {e : Record} (h : c.Leaves e.name.1) (he : e ∈ s.log) : e ∈ (s.step depth c).2.log := by
  cases c with
  | «open» name =>
    simp only [step]
    split_ifs
    · exact he
    · split
      · exact he
      · exact mem_putRecord he
  | set st handle key =>
    refine mem_putRecord (Log.mem_drop.2 ⟨he, fun hp => h ?_⟩)
    rw [hp.1]
  | eraseKey handle key =>
    refine Log.mem_drop.2 ⟨he, fun hp => h ?_⟩
    rw [hp]
  | eraseAll handle => exact Log.mem_drop.2 ⟨he, fun hp => h hp.symm⟩
  | flashErase => exact h.elim
  | _ => exact he

variable (s)

/-- The name is registered, and `nvs_open` gives it this handle. -/
def Registered (name : CString) (handle : UInt32) : Prop :=
  if name.bytes = phyName then handle = 0x1234
  else ∃ e ∈ s.log, e.name = (0, name.bytes) ∧ e.kind = ItemType.u8.code ∧ (e.value.getD 0 0).toUInt32 = handle

/-- The reply of `nvs_open`. -/
def opened (handle : UInt32) : Reply := ⟨espOk, none, none, some handle⟩

variable {s} {name : CString} {handle : UInt32}

theorem registered_step {c : Call} (h : c.Leaves 0) (hr : s.Registered name handle) :
    (s.step depth c).2.Registered name handle := by
  unfold Registered at hr ⊢
  split_ifs at hr ⊢ with hphy
  · exact hr
  · obtain ⟨e, he, hn, hk, hv⟩ := hr
    have h0 : c.Leaves e.name.1 := by rwa [hn]
    exact ⟨e, mem_step h0 he, hn, hk, hv⟩

/-- A successful `nvs_open` registers the name. -/
theorem registered_open (hlen : name.bytes.length ≤ 15) {r : Reply} (hr : (s.step depth (.open name)).1 = .ok r)
    (hok : r.err = espOk) : ∃ handle, r = opened handle ∧ (s.step depth (.open name)).2.Registered name handle := by
  by_cases hphy : name.bytes = phyName
  · simp only [step, hphy, if_true] at hr
    cases hr
    refine ⟨0x1234, rfl, ?_⟩
    rw [Registered, if_pos hphy]
  · have hregistered : ∀ {s' : Store} {handle : UInt32}, (∃ e ∈ s'.log, e.name = (0, name.bytes) ∧
        e.kind = ItemType.u8.code ∧ (e.value.getD 0 0).toUInt32 = handle) → s'.Registered name handle := by
      intro s' handle h
      rwa [Registered, if_neg hphy]
    simp only [step, hphy, if_false] at hr ⊢
    cases hf : (s.log.lookup (0, name.bytes)).filter fun e => e.kind = ItemType.u8.code with
    | none =>
      simp only [hf] at hr ⊢
      cases hp : (s.put depth 1 (registration name.bytes)).1 with
      | error e =>
        rw [hp] at hr
        cases hr
      | ok err =>
        rw [hp] at hr
        obtain rfl : openReply err = r := Except.ok.inj hr
        have he : err = espOk := by
          by_contra he
          rw [openReply, if_neg he] at hok
          exact absurd hok (by decide)
        refine ⟨10, if_pos he, hregistered ⟨registration name.bytes, mem_of_put (he ▸ hp), ?_, rfl, rfl⟩⟩
        exact congrArg (Prod.mk 0) (List.take_of_length_le hlen)
    | some e =>
      simp only [hf] at hr ⊢
      obtain ⟨hl, hk⟩ := Option.filter_eq_some_iff.1 hf
      cases hr
      exact ⟨_, rfl, hregistered ⟨e, Log.lookup_mem hl, Log.lookup_name hl, of_decide_eq_true hk, rfl⟩⟩

end Store

/-! ### Opening again -/

section

variable {f : Flash} {w : NvsWorld} {s : Store}

/-- The name and the type determine a record. -/
theorem Abs.eq_of_name (h : Abs f s) {e e' : Record} (he : e ∈ s.log) (he' : e' ∈ s.log) (hn : e.name = e'.name)
    (hk : e.kind = e'.kind) : e = e' := by
  rw [h.log] at he he'
  obtain ⟨p, hp, i, hi, rfl⟩ := mem_logOf.1 he
  obtain ⟨q, hq, j, hj, rfl⟩ := mem_logOf.1 he'
  obtain ⟨h1, h2⟩ := Prod.mk.inj hn
  obtain ⟨rfl, rfl⟩ := h.sound.distinct p hp q hq i j hi hj h1 h2 hk
  rfl

theorem Abs.not_freeName (h : Abs f s) {e : Record} (he : e ∈ s.log) {nsIndex : UInt8} {key : List UInt8}
    (hn : e.name = (nsIndex, key)) (hlen : key.length ≤ 15) : ¬ FreeName f nsIndex e.kind key := by
  intro hfree
  rw [h.log] at he
  obtain ⟨p, hp, i, hi, rfl⟩ := mem_logOf.1 he
  refine hfree p hp i hi.1 hi ⟨?_, rfl⟩
  rw [List.take_of_length_le hlen]
  exact name_recordAt.1 hn

/-- A faithful `nvs_open` of a registered name finds its own record first. -/
theorem Refines.lookup_registered (h : Refines w s) {env : Env} {name : CString} (hphy : name.bytes ≠ phyName)
    (hlen : name.bytes.length ≤ 15) (hc : Faithful env w (.open name)) {e : Record} (he : e ∈ s.log)
    (hn : e.name = (0, name.bytes)) (hk : e.kind = ItemType.u8.code) : s.log.lookup (0, name.bytes) = some e := by
  obtain ⟨hlook, hnew⟩ := hc hphy
  have hs := h.abs.sound
  have hu8 : ItemType.u8.code ≠ ItemType.any.code := by decide
  cases hl : s.log.lookup (0, name.bytes) with
  | none => exact absurd hn (Log.lookup_eq_none.1 hl e he)
  | some e' =>
    have he' := Log.lookup_mem hl
    have hn' := Log.lookup_name hl
    by_cases hk' : e'.kind = ItemType.u8.code
    · rw [h.abs.eq_of_name he' he (hn'.trans hn.symm) (hk'.trans hk.symm)]
    · -- a record of another type in front would make the lookup fail and the registration a second one
      rw [h.abs.log, lookup_logOf] at hl
      obtain ⟨x, hx, rfl⟩ := Option.map_eq_some_iff.1 hl
      have hne : (lookup env w 0 ItemType.u8.code name.bytes 0xff).1.err ≠ espOk := by
        rw [(lookup_regular env hs h.cache hu8 hlook).1, hx, foundAt, answer, if_neg fun ht => hk' ((typed_iff hu8).1 ht)]
        exact (by decide : espErrNvsTypeMismatch ≠ espOk)
      exact absurd (hk ▸ (hnew hne).1) (h.abs.not_freeName he hn hlen)

/-- Opening a registered name again gives its handle. -/
theorem Refines.open_registered (h : Refines w s) {env : Env} {name : CString} (hlen : name.bytes.length ≤ 15)
    (hc : Faithful env w (.open name)) {handle : UInt32} (hr : s.Registered name handle) (depth : ℕ) :
    ((nvsOpen env depth name).run w).1 = .ok (Store.opened handle) := by
  refine (h.run hc depth).trans ?_
  unfold Store.Registered at hr
  split_ifs at hr with hphy
  · simp only [Store.step, hphy, if_true, hr]
    rfl
  · obtain ⟨e, he, hn, hk, rfl⟩ := hr
    simp only [Store.step, hphy, if_false, h.lookup_registered hphy hlen hc he hn hk, Option.filter_some, hk, decide_true,
      if_true]
    rfl

end

/-! ### Runs -/

section

variable {env : Env} {w w' : NvsWorld}

theorem Reach.refines_betweenCalls (hw : Reach env (Faithful env) betweenCalls w) : ∃ s, Refines w s := by
  refine hw.invariant (I := fun w => ∃ s, Refines w s) (fun f hf => ⟨_, refines_powerOn hf.abs⟩)
    (fun w c depth r w' ⟨s, h⟩ hc hr => ?_) fun w c depth k ⟨s, h⟩ _ hk => ?_
  · exact ⟨_, (wp_ok (call_refines env depth h hc) hr).2⟩
  · obtain rfl : k = 0 := hk
    exact ⟨s, refines_powerOn h.abs⟩

def Store.after (s : Store) : Event → Store
  | .call depth c => (s.step depth c).2
  | .reboot => s

theorem Refines.after {s : Store} (h : Refines w s) {x : Event} (hok : x.Meets (Faithful env w)) (hstep : x.Step env w w') :
    Refines w' (s.after x) := by
  cases x with
  | call depth c =>
    obtain ⟨r, hr⟩ := hstep
    exact (wp_ok (call_refines env depth h hok) hr).2
  | reboot =>
    obtain rfl : w' = powerOn w.flash := hstep
    exact refines_powerOn h.abs

theorem Event.Meets.and {P Q : Call → Prop} {x : Event} (h : x.Meets fun c => P c ∧ Q c) : x.Meets P ∧ x.Meets Q := by
  cases x with
  | call depth c => exact h
  | reboot => exact ⟨trivial, trivial⟩

/-- A registered name stays registered while nothing is written to namespace 0. -/
theorem refines_of_leaves {s : Store} (h : Refines w s) {name : CString} {handle : UInt32} (hr : s.Registered name handle)
    (hrun : Lts.Run (Event.Step env) (fun w x => x.Meets fun c => Faithful env w c ∧ c.Leaves 0) w w') :
    ∃ s', Refines w' s' ∧ s'.Registered name handle := by
  refine hrun.invariant (I := fun w' => ∃ s', Refines w' s' ∧ s'.Registered name handle) ?_ ⟨s, h, hr⟩
  rintro w x w' ⟨s, h, hr⟩ hok hstep
  refine ⟨_, h.after hok.and.1 hstep, ?_⟩
  cases x with
  | call depth c => exact Store.registered_step hok.2 hr
  | reboot => exact hr

/-- While only one namespace is written to, what is found in the others stays. -/
theorem refines_of_writes {s : Store} (h : Refines w s) {nsIndex : UInt8}
    (hrun : Lts.Run (Event.Step env) (fun w x => x.Meets fun c => Faithful env w c ∧ c.WritesTo nsIndex) w w') :
    ∃ s', Refines w' s' ∧ ∀ name : UInt8 × List UInt8, nsIndex ≠ name.1 → s'.log.lookup name = s.log.lookup name := by
  refine hrun.invariant (I := fun w' => ∃ s', Refines w' s' ∧ ∀ name : UInt8 × List UInt8, nsIndex ≠ name.1 →
    s'.log.lookup name = s.log.lookup name) ?_ ⟨s, h, fun _ _ => rfl⟩
  rintro w x w' ⟨s', h', hl⟩ hok hstep
  refine ⟨_, h'.after hok.and.1 hstep, fun name hne => ?_⟩
  cases x with
  | call depth c => exact (s'.lookup_step depth hok.2 hne).trans (hl name hne)
  | reboot => exact hl name hne

/-- In every run of faithful calls and reboots: writes through a handle of one
namespace leave every get through a handle of another, and a name that was opened is
opened again with the same handle while nothing is written to the registry. -/
theorem namespaces_isolated (hw : Reach env (Faithful env) betweenCalls w) :
    (∀ handle handle' : UInt32, nsIndexOf handle ≠ nsIndexOf handle' → ∀ w',
      Lts.Run (Event.Step env) (fun w x => x.Meets fun c => Faithful env w c ∧ c.WritesTo (nsIndexOf handle)) w w' →
      ∀ (g : Getter) (key : CString), Faithful env w (.get g handle' key) → Faithful env w' (.get g handle' key) →
        ((g.prog env handle' key).run w').1 = ((g.prog env handle' key).run w).1) ∧
    ∀ (name : CString) (depth : ℕ) (r : Reply) (w₁ : NvsWorld), name.bytes.length ≤ 15 → Faithful env w (.open name) →
      (nvsOpen env depth name).run w = (.ok r, w₁) → r.err = espOk → ∀ w',
      Lts.Run (Event.Step env) (fun w x => x.Meets fun c => Faithful env w c ∧ c.Leaves 0) w₁ w' →
        Faithful env w' (.open name) → ∀ depth', ((nvsOpen env depth' name).run w').1 = .ok r := by
  obtain ⟨s, h⟩ := hw.refines_betweenCalls
  constructor
  · intro handle handle' hne w' hrun g key hg hg'
    obtain ⟨s', h', hlookup⟩ := refines_of_writes h hrun
    have hafter : ((g.prog env handle' key).run w').1 = g.read (s'.log.lookup (nsIndexOf handle', key.bytes)) :=
      h'.run hg' 0
    have hbefore : ((g.prog env handle' key).run w).1 = g.read (s.log.lookup (nsIndexOf handle', key.bytes)) := h.run hg 0
    rw [hafter, hbefore, hlookup _ hne]
  · intro name depth r w₁ hlen hc hr hok w' hrun hc' depth'
    have hopen := wp_ok (call_refines env depth h hc) hr
    obtain ⟨handle, rfl, hregistered⟩ := Store.registered_open hlen hopen.1 hok
    obtain ⟨s', h', hregistered'⟩ := refines_of_leaves hopen.2 hregistered hrun
    exact h'.open_registered hlen hc' hregistered' depth'

/-- The namespace "b" is opened and written to, and then opened again; nothing is found through the handle of "phy". -/
theorem namespaces_isolated_factory : ∃ w₁ w₂,
    (nvsOpen (.built []) 1 keyB).run factory = (.ok (Store.opened 10), w₁) ∧
      ((Call.set (.scalar .u8 7#8) 10 keyA).prog (.built []) 1).run w₁ = (.ok (.code espOk), w₂) ∧
      (((Getter.scalar .u8).prog (.built []) 0x1234 keyA).run w₂).1 =
        (((Getter.scalar .u8).prog (.built []) 0x1234 keyA).run w₁).1 ∧
      ((nvsOpen (.built []) 1 keyB).run w₂).1 = .ok (Store.opened 10) := by
  have hopen := refines_factory.faithful (.built []) (c := .open keyB) (by decide)
  have hr := run_eq ((refines_factory.run hopen 1).trans (show _ = Except.ok (Store.opened 10) by decide))
  have h₁ := refines_factory.next hopen (show (Store.empty.step 1 _).1 = .ok (Store.opened 10) by decide)
  have hset := h₁.faithful (.built []) (c := .set (.scalar .u8 7#8) 10 keyA) (by decide)
  have hr' := run_eq ((h₁.run hset 1).trans (show _ = Except.ok (.code espOk) by decide))
  have h₂ := h₁.next hset (show (Store.step 1 _ _).1 = .ok (.code espOk) by decide)
  have hw₁ : Reach (.built []) (Faithful (.built [])) betweenCalls _ := reach_factory.call hopen hr
  let x : Event := .call 1 (.set (.scalar .u8 7#8) 10 keyA)
  have hstep : x.Step (.built []) _ _ := ⟨_, hr'⟩
  refine ⟨_, _, hr, hr', ?_, ?_⟩
  · exact (namespaces_isolated hw₁).1 10 0x1234 (by decide) _ (Lts.Run.refl.tail (a := x) ⟨hset, rfl⟩ hstep) (.scalar .u8)
      keyA (h₁.faithful _ (by decide)) (h₂.faithful _ (by decide))
  · exact (namespaces_isolated reach_factory).2 keyB 1 _ _ (by decide) hopen hr rfl _
      (Lts.Run.refl.tail (a := x) ⟨hset, by decide⟩ hstep) (h₂.faithful _ (by decide)) 1

/-- Two new names get one index: what is set through the handle of "a" is read through that of "b". -/
theorem namespaces_shared :
    let l := calls (.built []) [(1, .open keyA), (1, .open keyB), (1, .get (.scalar .u8) 10 keyA),
      (1, .set (.scalar .u8 7#8) 10 keyA), (1, .get (.scalar .u8) 10 keyA)] factory
    l.1 = [.ok (Store.opened 10), .ok (Store.opened 10), .ok (.code espErrNvsNotFound), .ok (.code espOk),
      .ok ⟨espOk, some [7], none, none⟩] := by decide +kernel

end

end Esp8266Sdk.Nvs
