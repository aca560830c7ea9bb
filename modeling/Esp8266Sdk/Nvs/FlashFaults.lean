import Esp8266Sdk.Nvs.ActivePage
import Esp8266Sdk.Nvs.Durability
import Esp8266Sdk.Nvs.EraseAll

/-! Calls whose flash operations may fail. The source discards every status, so
`ESP_OK` tells nothing of them. A call that returns it has taken effect where an
operation fails only if it would have changed nothing, or marks a page dirty. -/

namespace Esp8266Sdk.Nvs

open Nor Prog

variable {env : Env} {w w' : NvsWorld}

/-! ### Steps other than dirty marks -/

/-- The step is no dirty mark, or it changes nothing. -/
def Unmarked (f : Flash) (op : Op) : Prop := (∀ p, op ≠ dirtyStep p) ∨ op.apply f = f

theorem Unmarked.same {op : Op} (h : Unmarked w.flash op) (hm : Harmless w op) : op.apply w.flash = w.flash :=
  h.elim hm.same id

/-- A step at the start of a page. -/
theorem unmarked_base (f : Flash) (p : ℕ) (bs : List UInt8) : Unmarked f (.write (base p) bs) := by
  left
  intro q e
  injection e with ha
  simp only [base] at ha
  omega

theorem unmarked_erase (f : Flash) (a n : ℕ) : Unmarked f (.erase a n) := .inl fun _ => nofun

theorem unmarked_rule : WriterRule Unmarked (fun _ => True) fun _ => True where
  init := fun _ _ _ => ⟨unmarked_erase _ _ _, unmarked_base _ _ _, trivial⟩
  full := fun _ _ _ => ⟨unmarked_base _ _ _, trivial⟩
  body := fun _ _ hb _ => ⟨.inl hb.ne_dirtyStep, trivial⟩
  ones := fun a _ hbs _ => .inr (Flash.program_ff _ a hbs)
  idle := fun _ _ => trivial

/-- The calls that run `eraseOldItem`. -/
def Call.erasesOld : Call → Bool
  | .set _ _ _ | .eraseKey _ _ => true
  | _ => false

/-- The other calls mark no page dirty. -/
theorem call_unmarked (env : Env) (depth : ℕ) {c : Call} (hc : c.erasesOld = false) (w : NvsWorld) :
    wp (fun w op => Unmarked w.flash op) (fun _ _ => True) (fun _ _ => True) (c.prog env depth) w := by
  cases c with
  | flashInit =>
    rw [Call.prog, nvsFlashInit, wp_bind, reads_findActivePage]
    simp only
    split_ifs
    · rw [wp_bind]
      exact wp_post (unmarked_rule.initializePage (p := 0) (by omega) 1 trivial) fun _ _ _ => trivial
    · trivial
  | flashErase =>
    rw [Call.prog, nvsFlashErase, wp_bind]
    refine wp_post (wp_range (fun _ _ _ => True) (fun p _ _ w _ => ?_) trivial) fun _ _ _ => trivial
    rw [wp_eraseSector]
    exact ⟨unmarked_erase _ _ _, trivial⟩
  | «open» name =>
    rw [Call.prog, nvsOpen]
    split_ifs
    · trivial
    · rw [wp_bind, wp_findItem]
      split_ifs
      · trivial
      · simp only [wp_bind]
        refine wp_post (unmarked_rule.writeItem env depth (fits_of_le _ (by decide)) trivial) fun err _ _ => ?_
        split_ifs <;> trivial
  | get g handle key =>
    rw [Call.prog, wp_getter]
    split <;> trivial
  | eraseAll handle =>
    rw [Call.prog, nvsEraseAll, wp_bind]
    refine wp_post (wp_range (fun _ _ _ => True) (fun p hp _ w _ => ?_) trivial) fun _ _ _ => trivial
    exact wp_eraseAllPage hp (fun table _ v hv => .inl (body_wordStep p table hv).ne_dirtyStep) (fun _ _ => trivial)
      (fun _ _ => trivial) fun _ => trivial
  | set s handle key => cases hc
  | eraseKey handle key => cases hc
  | flashDeinit => trivial
  | close handle => trivial
  | commit handle => trivial

/-- What such a call does without faults it also does where only harmless steps fail. -/
theorem wpFaults_of_unmarked {depth : ℕ} {c : Call} {Q : Reply → NvsWorld → Prop} {E : Defect → NvsWorld → Prop}
    (hc : c.erasesOld = false) (h : wp (fun _ _ => True) Q E (c.prog env depth) w) :
    wpFaults Harmless Q E (c.prog env depth) w :=
  wpFaults_of_wp (wp_mono (wp_and h (call_unmarked env depth hc w)) (fun _ _ h => h.2.same) (fun _ _ h => h.1)
    fun _ _ h => h.1)

/-! ### Regular calls with faults -/

/-- A regular set erases the old block and stores the value. -/
theorem wpFaults_set (env : Env) (depth : ℕ) {a u : ℕ} (hs : Sound w.flash a u) {s : Setter} {handle : UInt32}
    {key : CString} (hc : RegularSet w.flash s (nsIndexOf handle) key.bytes) :
    wpFaults Harmless
      (fun r w' => (∃ a' u', Sound w'.flash a' u') ∧ ∃ w₁ err, r = .code err ∧
        ErasedOld w w₁ (nsIndexOf handle) s.itemType.code key.bytes ∧
        Wrote w₁ w' a u (nsIndexOf handle) s.itemType.code key.bytes s.data s.length err)
      (fun _ _ => True) ((Call.set s handle key).prog env depth) w := by
  rw [Call.prog, Setter.prog_eq, nvsSetValue, wpFaults_bind]
  refine wpFaults_post (wpFaults_eraseOldItem hs.packed hc.clear) fun _ w₁ he => ?_
  rw [wpFaults_bind]
  have hwrite := wp_and (hc.wp_writeItem env depth hs.abs he) (unmarked_rule.writeItem env depth hc.fits trivial)
  refine wpFaults_of_wp (wp_mono hwrite (fun _ _ h => h.2.same) ?_ fun _ _ _ => trivial)
  rintro err w' ⟨⟨-, habs, hw⟩, -⟩
  exact ⟨⟨_, _, habs.sound⟩, w₁, err, rfl, he, hw⟩

/-- A regular call keeps the store sound. -/
theorem wpFaults_sound (env : Env) (depth : ℕ) {c : Call} {a u : ℕ} (hs : Sound w.flash a u) (hc : Regular env w c) :
    wpFaults Harmless (fun _ w' => ∃ a' u', Sound w'.flash a' u') (fun _ _ => True) (c.prog env depth) w := by
  cases c with
  | set s handle key => exact wpFaults_post (wpFaults_set env depth hs hc) fun _ _ h => h.1
  | eraseKey handle key =>
    rw [Call.prog, nvsEraseKey, wpFaults_bind]
    exact wpFaults_post (wpFaults_eraseOldItem hs.packed hc) fun _ _ he => ⟨a, u, he.removes.sound hs⟩
  | _ => exact wpFaults_of_unmarked rfl (call_sound env depth hs hc)

/-! ### Effects -/

/-- With the cache cleared the call has its effect on the flash: a value that was
set is read back, and erased keys are not found. -/
def TookEffect (env : Env) (f : Flash) : Call → Prop
  | .set s handle key => ∀ bs, s.Carries bs → ((s.getter.prog env handle key).run (powerOn f)).1 = .ok (s.echo bs)
  | .eraseKey handle key => ∀ g : Getter, ((g.prog env handle key).run (powerOn f)).1 = .ok (.code espErrNvsNotFound)
  | .eraseAll handle => ∀ (g : Getter) (key : CString),
      ((g.prog env handle key).run (powerOn f)).1 = .ok (.code espErrNvsNotFound)
  | _ => True

/-- A key that is not cut, a length whose block count is not narrowed, and no
other type stored under the key. -/
def Readable (f : Flash) : Call → Prop
  | .set s handle key => key.bytes.length ≤ 15 ∧ s.length.toNat ≤ 8136 ∧
      OneType f (nsIndexOf handle) s.itemType.code key.bytes
  | _ => True

instance (f : Flash) : (c : Call) → Decidable (Readable f c)
  | .set .. => inferInstanceAs (Decidable (_ ∧ _))
  | .flashInit | .flashDeinit | .flashErase | .open _ | .close _ | .commit _ | .get .. |
    .eraseKey .. | .eraseAll _ => inferInstanceAs (Decidable True)

theorem get_notFound_powerOn {f : Flash} {handle : UInt32} {key : CString} (hh : Hidden f (nsIndexOf handle) key.bytes)
    (g : Getter) : ((g.prog env handle key).run (powerOn f)).1 = .ok (.code espErrNvsNotFound) :=
  get_notFound (w := powerOn f) (cacheSilent_powerOn env f _ _) hh g

theorem wpFaults_effect (depth : ℕ) {c : Call} {a u : ℕ} (hs : Sound w.flash a u) (hc : Regular env w c)
    (hread : Readable w.flash c) :
    wpFaults Harmless (fun r w' => r.err = espOk → TookEffect env w'.flash c) (fun _ _ => True) (c.prog env depth) w := by
  cases c with
  | set s handle key =>
    obtain ⟨hkey, hlt, htype⟩ := hread
    refine wpFaults_post (wpFaults_set env depth hs hc) ?_
    rintro r w' ⟨⟨a', u', hs'⟩, w₁, err, rfl, he, hw⟩ hok bs hv
    obtain rfl : err = espOk := hok
    cases hw with
    | stored hplace hwords hput ram =>
      have hvis := he.visible hs key.nul_free hkey hc.clear htype hput
      rw [get_visible hs'.packed hvis, read_newRecord hv (hv.length_le_of hlt (by omega))]
  | eraseKey handle key =>
    rw [Call.prog, nvsEraseKey, wpFaults_bind]
    refine wpFaults_post (wpFaults_eraseOldItem hs.packed hc) fun _ w' he _ g => ?_
    exact get_notFound_powerOn (he.hidden_of hs.packed hc fun _ _ _ _ _ => .inl rfl) g
  | eraseAll handle =>
    refine wpFaults_of_unmarked rfl (wp_mono (wp_nvsEraseAll_exact handle) (fun _ _ h => h) ?_ fun _ _ _ => trivial)
    exact fun r w' he _ g key => get_notFound_powerOn (he.2.hidden key.bytes) g
  | _ => exact wpFaults_of_unmarked rfl (wp_post (call_sound env depth hs hc) fun _ _ _ _ => trivial)

/-! ### Runs -/

/-- Worlds reached from an erased partition by returning calls in which flash
operations fail, each call and its faults meeting `ok`. -/
inductive FlakyReach (env : Env) (ok : NvsWorld → Call → ℕ → (ℕ → Bool) → Prop) : NvsWorld → Prop
  | boot {f : Flash} (h : Erased f) : FlakyReach env ok (powerOn f)
  | call {w w' : NvsWorld} {c : Call} {depth : ℕ} {fails : ℕ → Bool} {r : Reply} (hw : FlakyReach env ok w)
      (hc : ok w c depth fails) (hr : (c.prog env depth).flaky fails w = (.ok r, w')) : FlakyReach env ok w'

/-- The call is regular and only harmless steps of it fail. -/
structure Tolerable (env : Env) (w : NvsWorld) (c : Call) (depth : ℕ) (fails : ℕ → Bool) : Prop where
  regular : Regular env w c
  harmless : ∀ s ∈ (c.prog env depth).failed fails w, Harmless s.1 s.2

theorem FlakyReach.sound (hw : FlakyReach env (Tolerable env) w) : ∃ a u, Sound w.flash a u := by
  induction hw with
  | boot h => exact ⟨0, 0, h.abs.sound⟩
  | call _ hc hr ih =>
    obtain ⟨a, u, hs⟩ := ih
    exact wpFaults_ok (wpFaults_sound env _ hs hc.regular) hc.harmless hr

/-- In every run with faults whose calls are regular and lose harmless steps
only: a set, of the one type of its key, or an erase that returns `ESP_OK` has taken effect on the flash. -/
theorem ok_tookEffect (hw : FlakyReach env (Tolerable env) w) {c : Call} {depth : ℕ} {fails : ℕ → Bool}
    (hc : Tolerable env w c depth fails) (hread : Readable w.flash c) {r : Reply}
    (hr : (c.prog env depth).flaky fails w = (.ok r, w')) (hok : r.err = espOk) : TookEffect env w'.flash c := by
  obtain ⟨a, u, hs⟩ := hw.sound
  exact wpFaults_ok (wpFaults_effect depth hs hc.regular hread) hc.harmless hr hok

/-- For examples: "a" is set through handle 10. -/
def setA (value : BitVec 8) : Call := .set (.scalar .u8 value) 10 keyA

/-- A value is set over an old one while the dirty mark fails. -/
theorem ok_tookEffect_factory : ∃ w₁ w₂,
    ((setA 7#8).prog (.built []) 1).run factory = (.ok (.code espOk), w₁) ∧
      ((setA 8#8).prog (.built []) 1).flaky (· == 0) w₁ = (.ok (.code espOk), w₂) ∧
      (((Call.get (.scalar .u8) 10 keyA).prog (.built []) 1).run (powerOn w₂.flash)).1 = .ok ⟨espOk, some [8], none, none⟩ := by
  have hc₁ := refines_factory.faithful (.built []) (c := setA 7#8) (by decide)
  have hr₁ := run_eq ((refines_factory.run hc₁ 1).trans (show _ = Except.ok (.code espOk) by decide))
  have h₁ := refines_factory.next hc₁ (show (Store.empty.step 1 _).1 = .ok (.code espOk) by decide)
  have hc₂ := h₁.faithful (.built []) (c := setA 8#8) (by decide)
  have hw₁ : FlakyReach (.built []) (Tolerable (.built [])) (((setA 7#8).prog (.built []) 1).run factory).2 :=
    .call (.boot fun _ _ _ => rfl) ⟨hc₁.regular, by simp [failed_never]⟩ ((flaky_never _ _).trans hr₁)
  have hend : (((setA 8#8).prog (.built []) 1).flaky (· == 0) (((setA 7#8).prog (.built []) 1).run factory).2).1 =
        .ok (.code espOk) ∧
      (((setA 8#8).prog (.built []) 1).failed (· == 0) (((setA 7#8).prog (.built []) 1).run factory).2).map Prod.snd =
        [dirtyStep 0] := by decide +kernel
  have hc : Tolerable (.built []) (((setA 7#8).prog (.built []) 1).run factory).2 (setA 8#8) 1 (· == 0) := by
    refine ⟨hc₂.regular, fun s hs => .inr ⟨0, ?_⟩⟩
    have hmem := List.mem_map_of_mem (f := Prod.snd) hs
    rw [hend.2] at hmem
    exact List.mem_singleton.1 hmem
  have hread : Readable (((setA 7#8).prog (.built []) 1).run factory).2.flash (setA 8#8) :=
    ⟨by decide, by decide, h₁.abs.oneType (by decide) (by decide)⟩
  have hr₂ : ((setA 8#8).prog (.built []) 1).flaky (· == 0) (((setA 7#8).prog (.built []) 1).run factory).2 =
      (.ok (.code espOk), _) := Prod.ext hend.1 rfl
  exact ⟨_, _, hr₁, hr₂, ok_tookEffect hw₁ hc hread hr₂ rfl [8] ⟨rfl, rfl⟩⟩

/-- A set whose item is not written, and an erase of which no step is made, return `ESP_OK`. -/
theorem ok_without_effect :
    let read := fun w : NvsWorld => (((Call.get (.scalar .u8) 10 keyA).prog (.built []) 1).run (powerOn w.flash)).1
    let set := ((setA 7#8).prog (.built []) 1).flaky (· == 3) factory
    let erase := ((Call.eraseKey 10 keyA).prog (.built []) 1).flaky (fun _ => true)
      (calls (.built []) [(1, setA 7#8)] factory).2
    set.1 = .ok (.code espOk) ∧ read set.2 = .ok (.code espErrNvsNotFound) ∧
      erase.1 = .ok (.code espOk) ∧ read erase.2 = .ok ⟨espOk, some [7], none, none⟩ := by decide +kernel

end Esp8266Sdk.Nvs
