import Esp8266Sdk.Nvs.EraseExact
import Esp8266Sdk.Nvs.Visible

/-! `nvs_erase_key`. Where a page has a match the key is gone, from the flash and
from the cache. Where none has one, the cache is left as it is, and may still
answer for the key. -/

namespace Esp8266Sdk.Nvs

open Nor Prog

variable {env : Env} {w : NvsWorld} {handle : UInt32} {key : CString}

/-! ### Getters that find nothing -/

/-- The cache answers no getter of the key. -/
def CacheSilent (env : Env) (w : NvsWorld) (nsIndex : UInt8) (key : List UInt8) : Prop :=
  ∀ g : Getter, cachedAt w.flash nsIndex g.itemType.code key 0xff (getFromCache env nsIndex key w.ram) = none

theorem cacheSilent_of_zero {nsIndex : UInt8} {k : List UInt8} (h : getFromCache env nsIndex k w.ram = 0) :
    CacheSilent env w nsIndex k := by
  intro g
  rw [h, cachedAt_zero]

theorem cacheSilent_powerOn (env : Env) (f : Flash) (nsIndex : UInt8) (k : List UInt8) :
    CacheSilent env (powerOn f) nsIndex k := by
  apply cacheSilent_of_zero
  simp only [powerOn, getFromCache, Cache.empty, Vector.getElem_replicate]
  split_ifs <;> rfl

theorem get_notFound (hc : CacheSilent env w (nsIndexOf handle) key.bytes) (hh : Hidden w.flash (nsIndexOf handle) key.bytes)
    (g : Getter) : ((g.prog env handle key).run w).1 = .ok (.code espErrNvsNotFound) := by
  rw [run_getter, lookup, hc g, scan_eq_none_iff.2 hh]
  rfl

/-- A getter that found an item does not end in `ESP_ERR_NVS_NOT_FOUND`. -/
theorem Getter.reply_ne_notFound {f : Flash} {r : Found} (g : Getter) (h : r.err = espOk) :
    g.reply f r ≠ .ok (.code espErrNvsNotFound) := by
  have hcode : ∀ {a : Reply}, a.err = espOk → (Except.ok a : Except Defect Reply) ≠ .ok (.code espErrNvsNotFound) := by
    intro a ha e
    injection e with e
    rw [e] at ha
    exact absurd ha (by decide : espErrNvsNotFound ≠ espOk)
  unfold Getter.reply
  rw [if_neg fun hne => hne h]
  cases g with
  | scalar k => exact hcode rfl
  | str capacity =>
    cases capacity with
    | none => exact hcode rfl
    | some length =>
      simp only
      split_ifs
      · split
        · exact hcode rfl
        · nofun
      · nofun
  | blob capacity => cases capacity <;> exact hcode rfl

/-- What the cache answers, a getter does not miss. -/
theorem cacheSilent_of_notFound (h : ∀ g : Getter, ((g.prog env handle key).run w).1 = .ok (.code espErrNvsNotFound)) :
    CacheSilent env w (nsIndexOf handle) key.bytes := by
  intro g
  by_contra hne
  obtain ⟨r, hr⟩ := Option.ne_none_iff_exists'.1 hne
  have hok : r.err = espOk := by
    rw [cachedAt] at hr
    split_ifs at hr
    rw [← Option.some.inj hr]
  have hg := h g
  rw [run_getter, lookup, hr] at hg
  exact g.reply_ne_notFound hok hg

/-! ### Reboot -/

/-- The device was restarted on the flash `f`, perhaps with `nvs_flash_init`. -/
def Rebooted (f : Flash) (w : NvsWorld) : Prop :=
  w = powerOn f ∨ ∃ r, nvsFlashInit.run (powerOn f) = (.ok r, w)

theorem Hidden.initFlash {f : Flash} {nsIndex : UInt8} {k : List UInt8} (h : Hidden f nsIndex k) (p : ℕ)
    (seqNumber : UInt32) : Hidden (initFlash f p seqNumber) nsIndex k := by
  rintro q i ⟨hq, hi, hl, hw, hn, hc⟩
  have hqp : q ≠ p := by
    rintro rfl
    rw [entryAt, tableAt_initFlash, getEntryState_blank (by omega)] at hw
    cases hw
  have hpage : ∀ x, base q ≤ x → x < base q + 4096 → Nvs.initFlash f p seqNumber x = f x :=
    fun x h1 h2 => initFlash_otherPage f seqNumber hqp h1 h2
  rw [PageLive, stateAt_initFlash_other f seqNumber hqp] at hl
  rw [entryAt_page (by omega) hpage] at hw
  rw [itemAt_page hpage hi] at hn hc
  exact h q i ⟨hq, hi, hl, hw, hn, hc⟩

/-- Initialising a page brings no item back. -/
theorem Rebooted.hidden {f : Flash} (hr : Rebooted f w) {nsIndex : UInt8} {k : List UInt8} (h : Hidden f nsIndex k) :
    Hidden w.flash nsIndex k ∧ w.ram = .empty := by
  rcases hr with rfl | ⟨r, hr⟩
  · exact ⟨h, rfl⟩
  · refine wp_ok (G := fun _ _ => True) (E := fun _ _ => True)
      (Q := fun _ w => Hidden w.flash nsIndex k ∧ w.ram = .empty) ?_ hr
    rw [nvsFlashInit, wp_bind, reads_findActivePage]
    simp only
    split_ifs
    · rw [wp_bind, show (0 : ℤ) = ((0 : ℕ) : ℤ) from rfl, wp_initializePage (by omega)]
      exact ⟨trivial, trivial, trivial, h.initFlash 0 1, rfl⟩
    · exact ⟨h, rfl⟩

/-! ### Erasing a key -/

/-- Every getter of the key ends in `ESP_ERR_NVS_NOT_FOUND`, at once and after a reboot. -/
structure KeyGone (env : Env) (w : NvsWorld) (handle : UInt32) (key : CString) : Prop where
  now : ∀ g : Getter, ((g.prog env handle key).run w).1 = .ok (.code espErrNvsNotFound)
  rebooted : ∀ w', Rebooted w.flash w' → ∀ g : Getter, ((g.prog env handle key).run w').1 = .ok (.code espErrNvsNotFound)

theorem keyGone_of_hidden (hc : CacheSilent env w (nsIndexOf handle) key.bytes)
    (hh : Hidden w.flash (nsIndexOf handle) key.bytes) : KeyGone env w handle key where
  now := get_notFound hc hh
  rebooted := by
    intro w' hr
    obtain ⟨hh', hram⟩ := hr.hidden hh
    refine get_notFound ?_ hh'
    have hsilent := cacheSilent_powerOn env w'.flash (nsIndexOf handle) key.bytes
    rwa [powerOn, ← hram] at hsilent

theorem NoHit.hidden {f : Flash} {nsIndex : UInt8} {k : List UInt8} (h : NoHit f nsIndex ItemType.any.code k) :
    Hidden f nsIndex k :=
  fun p i hm => h p hm.1 i hm.2.1 hm.2.2.2.1 ⟨hm.2.2.2.2.1, .inl rfl⟩

/-- Whatever the flash and the cache hold, where the entries that match end
inside their pages: after `nvs_erase_key` no getter finds the key, if and only if
some page had a match, or the cache did not answer for the key. -/
theorem eraseKey_complete_iff (h : HitsFit w.flash (nsIndexOf handle) ItemType.any.code key.bytes) :
    (∃ w', (nvsEraseKey handle key).run w = (.ok (.code espOk), w') ∧ KeyGone env w' handle key) ↔
      (∃ p < 8, HasHit w.flash (nsIndexOf handle) ItemType.any.code key.bytes p) ∨
        CacheSilent env w (nsIndexOf handle) key.bytes := by
  have hrun := wp_run (wp_eraseOldItem_swept h)
  rcases hr : (eraseOldItem (nsIndexOf handle) ItemType.any.code key.bytes).run w with ⟨e | ⟨⟩, w'⟩
  · rw [hr] at hrun
    exact hrun.elim
  rw [hr] at hrun
  have hcall : (nvsEraseKey handle key).run w = (.ok (.code espOk), w') := by
    rw [nvsEraseKey, run_bind, hr]
    rfl
  simp only [hcall, Prod.mk.injEq, true_and, exists_eq_left']
  constructor
  · intro hgone
    refine or_iff_not_imp_left.2 fun hno => ?_
    -- without a match `eraseOldItem` leaves the world as it is
    have hsame : w' = w := wp_ok (G := fun _ _ => True) (E := fun _ _ => True) (Q := fun _ w' => w' = w)
      (wp_eraseOldItem_noHit (fun p hp i hi hw hhit => hno ⟨p, hp, i, hi, hw, hhit⟩) rfl) hr
    rw [hsame] at hgone
    exact cacheSilent_of_notFound hgone.now
  · intro hc
    refine keyGone_of_hidden ?_ hrun.noHit.hidden
    by_cases hhit : ∃ p < 8, HasHit w.flash (nsIndexOf handle) ItemType.any.code key.bytes p
    · exact cacheSilent_of_zero (hrun.cache env hhit)
    · have hsame : w' = w := wp_ok (G := fun _ _ => True) (E := fun _ _ => True) (Q := fun _ w' => w' = w)
        (wp_eraseOldItem_noHit (fun p hp i hi hw hm => hhit ⟨p, hp, i, hi, hw, hm⟩) rfl) hr
      rw [hsame]
      exact hc.resolve_left hhit

theorem eraseKey_complete_iff_factory :
    let w := (((Call.set (.scalar .u8 7#8) 10 keyA).prog (.built []) 1).run factory).2
    (∃ w', (nvsEraseKey 10 keyA).run w = (.ok (.code espOk), w') ∧ KeyGone (.built []) w' 10 keyA) ↔
      (∃ p < 8, HasHit w.flash 10 ItemType.any.code keyA.bytes p) ∨ CacheSilent (.built []) w 10 keyA.bytes := by
  have hc := refines_factory.faithful (.built []) (c := .set (.scalar .u8 7#8) 10 keyA) (by decide)
  have h := refines_factory.next hc (show (Store.empty.step 1 _).1 = .ok (.code espOk) by decide)
  exact eraseKey_complete_iff ((h.abs.clear (by decide) 10 ItemType.any.code keyA.bytes).hitsFit h.abs.sound.packed)

/-- The state of a value behind a blob of four entries is never written back, so
erasing its key finds no entry. The cache still answers. -/
theorem eraseKey_incomplete :
    let l := calls (.built []) [(1, .set (.blob (some (List.replicate 104 0)) 104) 10 keyB),
      (1, .set (.scalar .u8 7#8) 10 keyA)] factory
    l.1 = [.ok (.code espOk), .ok (.code espOk)] ∧
      ¬ ∃ w', (nvsEraseKey 10 keyA).run l.2 = (.ok (.code espOk), w') ∧ KeyGone (.built []) w' 10 keyA := by
  intro l
  have h : l.1 = [.ok (.code espOk), .ok (.code espOk)] ∧
      (((Getter.scalar .u8).prog (.built []) 10 keyA).run ((nvsEraseKey 10 keyA).run l.2).2).1 =
        .ok ⟨espOk, some [7], none, none⟩ := by decide +kernel
  refine ⟨h.1, ?_⟩
  rintro ⟨w', hr, hgone⟩
  have hget := h.2
  rw [hr, hgone.now] at hget
  exact absurd hget (by decide)

end Esp8266Sdk.Nvs
