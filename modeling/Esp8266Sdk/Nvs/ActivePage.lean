import Esp8266Sdk.Nvs.WriterRule
import Esp8266Sdk.Nvs.GetSpec

/-! At most one page is active between any two flash steps, in every run with
power cuts. A page becomes active only while no other is. -/

namespace Esp8266Sdk.Nvs

open Nor Prog

/-- A flash step with at most one active page on both sides. -/
def KeepsOneActive (f : Flash) (op : Op) : Prop := AtMostOneActive f ∧ AtMostOneActive (op.apply f)

theorem oneActive_rule : WriterRule KeepsOneActive AtMostOneActive NoActive where
  init := fun {f p} seqNumber hp hn =>
    ⟨⟨hn.atMostOne, (hn.erase p).atMostOne⟩, ⟨(hn.erase p).atMostOne, hn.initFlash p seqNumber⟩, hn.initFlash p seqNumber⟩
  full := fun hp ha hm => ⟨⟨hm, (hm.markFull hp ha).atMostOne⟩, hm.markFull hp ha⟩
  body := fun hp ha hb hm =>
    ⟨⟨hm, hm.congr fun q _ => hb.inner.stateAt q⟩, hm.congr fun q _ => hb.inner.stateAt q⟩
  ones := fun {f} a {bs} hbs hm => ⟨hm, by rwa [Op.apply_write, Flash.program_ff f a hbs]⟩
  idle := fun hn _ => hn

variable {w : NvsWorld}

/-- Steps inside pages, whatever their state. -/
theorem keeps_inner {f : Flash} {p : ℕ} {op : Op} (hi : Inner p op) (hm : AtMostOneActive f) : KeepsOneActive f op :=
  ⟨hm, hm.congr fun q _ => hi.stateAt q⟩

theorem atMostOne_tableFlash {f : Flash} (p : ℕ) (table : EntryTable) {lo n : ℕ} (hn : lo + n ≤ 8)
    (hm : AtMostOneActive f) : AtMostOneActive (tableFlash f p table lo n) := by
  induction n with
  | zero => exact hm
  | succ n ih =>
    rw [tableFlash_succ]
    exact (keeps_inner (inner_wordStep p table (by omega)) (ih (by omega))).2

theorem eraseOldItem_oneActive (nsIndex datatype : UInt8) (key : List UInt8) (hm : AtMostOneActive w.flash) :
    wp (fun w op => KeepsOneActive w.flash op) (fun _ w' => AtMostOneActive w'.flash) (fun _ _ => True)
      (eraseOldItem nsIndex datatype key) w := by
  rw [eraseOldItem]
  refine wp_range (fun _ _ w => AtMostOneActive w.flash) (fun p hp _ w hm => ?_) hm
  have hd := keeps_inner (inner_dirtyStep p) hm
  refine wp_erasePage hp (fun _ _ => hd) (fun table _ v hv => ?_) (fun _ _ => hm) (fun table _ => ?_) fun _ => trivial
  · exact keeps_inner (inner_wordStep p table hv) (atMostOne_tableFlash p table (by omega) hd.2)
  · exact atMostOne_tableFlash p table (by omega) hd.2

theorem nvsEraseAll_oneActive (handle : UInt32) (hm : AtMostOneActive w.flash) :
    wp (fun w op => KeepsOneActive w.flash op) (fun _ w' => AtMostOneActive w'.flash) (fun _ _ => True)
      (nvsEraseAll handle) w := by
  rw [nvsEraseAll, wp_bind]
  refine wp_range (fun _ _ w => AtMostOneActive w.flash) (fun p hp _ w hm => ?_) hm
  refine wp_eraseAllPage hp (fun table _ v hv => ?_) (fun _ _ => hm) (fun table _ => ?_) fun _ => trivial
  · exact keeps_inner (inner_wordStep p table hv) (atMostOne_tableFlash p table (by omega) hm)
  · exact atMostOne_tableFlash p table (by omega) hm

theorem AtMostOneActive.erase {f : Flash} (hm : AtMostOneActive f) (p : ℕ) :
    AtMostOneActive (f.erase (base p) 4096) := by
  have hp : stateAt (f.erase (base p) 4096) p ≠ PageState.active.word := by
    rw [(blank_erase f p).stateAt]
    decide
  intro q hq r hr hqa hra
  have hqp : q ≠ p := by
    rintro rfl
    exact hp hqa
  have hrp : r ≠ p := by
    rintro rfl
    exact hp hra
  rw [stateAt_erase_otherPage hqp] at hqa
  rw [stateAt_erase_otherPage hrp] at hra
  exact hm q hq r hr hqa hra

theorem nvsFlashErase_oneActive (hm : AtMostOneActive w.flash) :
    wp (fun w op => KeepsOneActive w.flash op) (fun _ w' => AtMostOneActive w'.flash) (fun _ _ => True)
      nvsFlashErase w := by
  rw [nvsFlashErase, wp_bind]
  refine wp_range (fun _ _ w => AtMostOneActive w.flash) (fun p hp _ w hm => ?_) hm
  rw [wp_eraseSector, KeepsOneActive, after_flash, Op.apply_erase]
  exact ⟨⟨hm, hm.erase p⟩, hm.erase p⟩

theorem nvsFlashInit_oneActive (hm : AtMostOneActive w.flash) :
    wp (fun w op => KeepsOneActive w.flash op) (fun _ w' => AtMostOneActive w'.flash) (fun _ _ => True)
      nvsFlashInit w := by
  rw [nvsFlashInit, wp_bind, reads_findActivePage]
  simp only
  split_ifs with h
  · have hn : NoActive w.flash := by
      rcases activePage_cases w.flash with ⟨p, -, he, -⟩ | ⟨hn, -⟩ | ⟨hn, -⟩
      · omega
      · exact hn
      · exact hn
    rw [wp_bind]
    exact wp_post (oneActive_rule.initializePage (p := 0) (by omega) 1 hn) fun _ w' h => h.1
  · exact hm

theorem nvsSetValue_oneActive (env : Env) (depth : ℕ) (datatype : ItemType) (handle : UInt32) (key : CString)
    {data : Option (List UInt8)} {length : UInt32} (hfit : Fits data length) (hm : AtMostOneActive w.flash) :
    wp (fun w op => KeepsOneActive w.flash op) (fun _ w' => AtMostOneActive w'.flash) (fun _ _ => True)
      (nvsSetValue env depth datatype handle key data length) w := by
  rw [nvsSetValue, wp_bind]
  refine wp_post (eraseOldItem_oneActive _ _ _ hm) fun _ w' hm' => ?_
  rw [wp_bind]
  exact wp_post (oneActive_rule.writeItem env depth hfit hm') fun _ w'' h => h.1

theorem nvsOpen_oneActive (env : Env) (depth : ℕ) (name : CString) (hm : AtMostOneActive w.flash) :
    wp (fun w op => KeepsOneActive w.flash op) (fun _ w' => AtMostOneActive w'.flash) (fun _ _ => True)
      (nvsOpen env depth name) w := by
  rw [nvsOpen]
  split_ifs
  · exact hm
  · rw [wp_bind, wp_findItem]
    split_ifs
    · exact hm
    · simp only [wp_bind]
      refine wp_post (oneActive_rule.writeItem env depth (fits_of_le _ (by decide)) hm) fun err w'' h => ?_
      split_ifs <;> exact h.1

/-- The value of a set fits the entries of its span. -/
def Call.Fits : Call → Prop
  | .set s _ _ => Nvs.Fits s.data s.length
  | _ => True

/-- No call whose value fits makes two pages active at any step. -/
theorem call_oneActive (env : Env) (depth : ℕ) {c : Call} (hc : c.Fits) (hm : AtMostOneActive w.flash) :
    wp (fun w op => KeepsOneActive w.flash op) (fun _ w' => AtMostOneActive w'.flash) (fun _ _ => True)
      (c.prog env depth) w := by
  cases c with
  | flashInit => exact nvsFlashInit_oneActive hm
  | flashErase => exact nvsFlashErase_oneActive hm
  | «open» name => exact nvsOpen_oneActive env depth name hm
  | get g handle key =>
    rw [Call.prog, wp_getter]
    split
    · exact hm
    · trivial
  | set s handle key =>
    rw [Call.prog, Setter.prog_eq]
    exact nvsSetValue_oneActive env depth _ handle key hc hm
  | eraseKey handle key =>
    rw [Call.prog, nvsEraseKey, wp_bind]
    exact wp_post (eraseOldItem_oneActive _ _ _ hm) fun _ _ h => h
  | eraseAll handle => exact nvsEraseAll_oneActive handle hm
  | flashDeinit => exact hm
  | close handle => exact hm
  | commit handle => exact hm

theorem Reach.atMostOneActive {env : Env} {ok : NvsWorld → Call → Prop} {cutOk : ℕ → NvsWorld → Call → ℕ → Prop}
    (hok : ∀ w c, ok w c → c.Fits) (hw : Reach env ok cutOk w) : AtMostOneActive w.flash := by
  refine hw.invariant (I := fun w => AtMostOneActive w.flash) (fun f hf => ?_) (fun w c depth r w' hm hc hr => ?_)
    fun w c depth k hm hc _ => ?_
  · refine NoActive.atMostOne fun p hp => ?_
    rw [powerOn, (hf.blank hp).stateAt]
    decide
  · exact wp_ok (call_oneActive env depth (hok w c hc) hm) hr
  · exact wp_cut (fun _ _ h => h.2) (call_oneActive env depth (hok w c hc) hm) hm k

theorem Call.fits_of_valueSize {c : Call} (h : c.valueSize ≤ 4000) : c.Fits := by
  cases c with
  | set s handle key => exact fits_of_le _ ((Setter.length_le h).trans (by omega))
  | _ => trivial

/-- In every run with power cuts anywhere, between any two flash steps of any
call at most one page is active. -/
theorem atMostOneActive_between_steps {env : Env} {w : NvsWorld}
    (hw : Reach env (fun _ c => c.valueSize ≤ 4000) anyCut w) {c : Call} (hc : c.valueSize ≤ 4000) (depth k : ℕ) :
    AtMostOneActive ((c.prog env depth).cut w k) := by
  have hI := hw.atMostOneActive fun _ _ h => Call.fits_of_valueSize h
  exact wp_cut (fun _ _ h => h.2) (call_oneActive env depth (Call.fits_of_valueSize hc) hI) hI k

theorem atMostOneActive_between_steps_factory :
    AtMostOneActive (((Call.set (.scalar .u8 7#8) 10 keyA).prog (.built []) 1).cut factory 2) :=
  atMostOneActive_between_steps reach_factory (by decide) 1 2

end Esp8266Sdk.Nvs
