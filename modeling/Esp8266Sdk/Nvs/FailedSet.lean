import Esp8266Sdk.Nvs.Frame

/-! Sets that return an error. A set erases the old value before it knows whether
the new one fits. Where there is nothing to erase, a set that fails leaves every
lookup as it was, however often it is repeated. -/

namespace Esp8266Sdk.Nvs

open Nor Prog Kv

/-- A set with nothing to erase, and with room or an unused page behind the chosen one. -/
structure HarmlessSet (f : Flash) (s : Setter) (nsIndex : UInt8) (key : List UInt8) : Prop where
  noHit : NoHit f nsIndex s.itemType.code key
  room : RoomOk f s.length

/-- A set that meets the condition returns, with an error. -/
def FailedSet (env : Env) (w w' : NvsWorld) : Prop :=
  ∃ s handle key depth r, HarmlessSet w.flash s (nsIndexOf handle) key.bytes ∧
    ((Call.set s handle key).prog env depth).run w = (.ok r, w') ∧ r.err ≠ espOk

/-! ### What a failed set leaves -/

/-- `w'` holds the items of `w` and has its cache. -/
structure Unchanged (w w' : NvsWorld) : Prop where
  same : SameItems w.flash w'.flash
  sound : ∃ a u, Sound w'.flash a u
  ram : w'.ram = w.ram

theorem Unchanged.refl {w : NvsWorld} (h : ∃ a u, Sound w.flash a u) : Unchanged w w :=
  ⟨sameItems_of (fun _ _ _ _ => rfl) fun _ _ _ _ _ => rfl, h, rfl⟩

theorem Unchanged.trans {w w₁ w₂ : NvsWorld} (h : Unchanged w w₁) (h' : Unchanged w₁ w₂) : Unchanged w w₂ :=
  ⟨h.same.trans h'.same, h'.sound, h'.ram.trans h.ram⟩

/-- A `writeItem` that returns an error found no room. -/
theorem wp_writeItem_failed (env : Env) (depth : ℕ) {w : NvsWorld} {a u : ℕ} (h : Sound w.flash a u)
    {nsIndex datatype : UInt8} {key : List UInt8} {data : Option (List UInt8)} {length : UInt32}
    (hr : RoomOk w.flash length) :
    wp (fun _ _ => True) (fun err w' => err ≠ espOk → Unchanged w w') (fun _ _ => True)
      (writeItem env depth nsIndex datatype key data length 0xff) w := by
  cases depth with
  | zero => trivial
  | succ depth =>
    refine wp_writeItem_cases env depth h hr (fun {p t v} hp _ ht hn htn _ => ?_) fun {v} hprep hram _ _ => ?_
    · exact wp_storeItem hp.ordered.lt hn htn trivial (fun _ _ => trivial) (fun _ _ _ _ _ => trivial)
        (fun _ _ _ herr => absurd rfl herr) fun _ _ _ => trivial
    · exact ⟨hprep.same, ⟨a + 1, 0, hprep.ordered, hprep.same.packed h.packed, hprep.same.distinct h.packed h.distinct,
        Nat.zero_le _, hprep.used⟩, hram⟩

theorem FailedSet.unchanged {env : Env} {w w' : NvsWorld} (hf : FailedSet env w w') (h : ∃ a u, Sound w.flash a u) :
    Unchanged w w' := by
  obtain ⟨s, handle, key, depth, r, hc, hr, herr⟩ := hf
  obtain ⟨a, u, h⟩ := h
  have hw : wp (fun _ _ => True) (fun r w' => r.err ≠ espOk → Unchanged w w') (fun _ _ => True)
      ((Call.set s handle key).prog env depth) w := by
    rw [Call.prog, Setter.prog_eq, nvsSetValue, wp_bind]
    apply wp_eraseOldItem_noHit hc.noHit
    rw [wp_bind]
    exact wp_post (wp_writeItem_failed env depth h hc.room) fun err w' hu herr => hu herr
  exact wp_ok hw hr herr

theorem unchanged_of_failed {env : Env} {w w' : NvsWorld} (h : ∃ a u, Sound w.flash a u)
    (hf : Relation.ReflTransGen (FailedSet env) w w') : Unchanged w w' := by
  induction hf with
  | refl => exact .refl h
  | tail _ hstep ih => exact ih.trans (hstep.unchanged ih.sound)

/-! ### Lookups -/

section

variable {w w' : NvsWorld} (e : Unchanged w w')
include e

theorem Unchanged.match_iff {a u : ℕ} (h : Sound w.flash a u) (nsIndex : UInt8) (key : List UInt8) (chunkIndex : UInt8)
    (p i : ℕ) : Match w'.flash nsIndex key chunkIndex p i ↔ Match w.flash nsIndex key chunkIndex p i := by
  obtain ⟨a', u', h'⟩ := e.sound
  constructor
  · rintro ⟨hp, hi, -, hw, hn, hc⟩
    rw [e.same.entry hp hi] at hw
    rw [e.same.item hp hi] at hn hc
    exact ⟨hp, hi, h.ordered.pageLive_of_written hp hi hw, hw, hn, hc⟩
  · rintro ⟨hp, hi, -, hw, hn, hc⟩
    rw [← e.same.entry hp hi] at hw
    rw [← e.same.item hp hi] at hn hc
    exact ⟨hp, hi, h'.ordered.pageLive_of_written hp hi hw, hw, hn, hc⟩

theorem Unchanged.scan {a u : ℕ} (h : Sound w.flash a u) (nsIndex datatype : UInt8) (key : List UInt8) (chunkIndex : UInt8) :
    scan w'.flash nsIndex datatype key chunkIndex = scan w.flash nsIndex datatype key chunkIndex := by
  refine findSome?_congr fun p hp => findSome?_congr fun i hi => ?_
  have hp := List.mem_range.1 hp
  have hi := List.mem_range.1 hi
  simp only [e.match_iff h, answer, e.same.item hp hi]

/-- The cache points at slots, and the slots are as they were. -/
theorem Unchanged.cachedAt (hc : CacheOk w.ram w.flash) (env : Env) (nsIndex datatype : UInt8) (key : List UInt8)
    (chunkIndex : UInt8) : cachedAt w'.flash nsIndex datatype key chunkIndex (getFromCache env nsIndex key w.ram) =
      cachedAt w.flash nsIndex datatype key chunkIndex (getFromCache env nsIndex key w.ram) := by
  rcases getFromCache_cases env nsIndex key w.ram with h0 | ⟨-, k, hk, -, -, haddr⟩
  · rw [h0, cachedAt_zero, cachedAt_zero]
  by_cases h0 : w.ram[k].address = 0
  · rw [haddr, h0, cachedAt_zero, cachedAt_zero]
  obtain ⟨-, p, i, hp, hi, ha, -⟩ := hc k hk h0
  rw [haddr, ha, cachedAt_slot _ _ _ _ _ hp hi, cachedAt_slot _ _ _ _ _ hp hi]
  simp only [answer, e.same.item hp hi]

theorem Unchanged.lookup {a u : ℕ} (h : Sound w.flash a u) (hc : CacheOk w.ram w.flash) (env : Env)
    (nsIndex datatype : UInt8) (key : List UInt8) (chunkIndex : UInt8) :
    lookup env w' nsIndex datatype key chunkIndex = lookup env w nsIndex datatype key chunkIndex := by
  rw [Nvs.lookup, Nvs.lookup, e.ram, e.cachedAt hc, e.scan h]

/-- A getter whose key no continuation entry reads as answers as before. -/
theorem Unchanged.get {a u : ℕ} (h : Sound w.flash a u) (hcache : CacheOk w.ram w.flash) {env : Env} {g : Getter}
    {handle : UInt32} {key : CString} (hc : ClearName w.flash (nsIndexOf handle) key.bytes) :
    ((g.prog env handle key).run w').1 = ((g.prog env handle key).run w).1 := by
  have hblock : ∀ {p i}, p < 8 → Head w.flash p i → g.reply w'.flash (answer w.flash g.itemType.code p i) =
      g.reply w.flash (answer w.flash g.itemType.code p i) := by
    intro p i hp hhead
    have hans : answer w.flash g.itemType.code p i = answer w'.flash g.itemType.code p i := by
      simp only [answer, e.same.item hp hhead.1]
    rw [reply_head h.packed hp hhead, hans, reply_head (e.same.packed h.packed) hp ((e.same.head_same h.packed hp).2 hhead),
      e.same.recordAt h.packed hp hhead]
  rw [run_getter, run_getter, e.lookup h hcache, Nvs.lookup]
  rcases cachedAt_cases h hcache env (nsIndexOf handle) key.bytes g.code_ne_any with hnone | ⟨p, hp, i, hhead, -, -, hsome⟩
  · rw [hnone]
    cases hs : Nvs.scan w.flash (nsIndexOf handle) g.itemType.code key.bytes 0xff with
    | none =>
      have herr : notFound.err ≠ espOk := by decide
      simp only [Getter.reply, herr, ne_eq, not_false_eq_true, if_true]
    | some r =>
      obtain ⟨p, i, hf, rfl⟩ := scan_eq_some_iff.1 hs
      exact hblock hf.1.1 (hc p hf.1.1 i hf.1.2.1 hf.1)
  · rw [hsome]
    exact hblock hp hhead

end

/-! ### Runs -/

variable {env : Env} {w w' : NvsWorld}

/-- After any number of failed sets with nothing to erase, every getter answers
as before them, also for the keys that were to be set. -/
theorem get_after_failed (hw : Reach env (Faithful env) noCut w) (hf : Relation.ReflTransGen (FailedSet env) w w')
    {handle : UInt32} {key : CString} (hc : ClearName w.flash (nsIndexOf handle) key.bytes) (g : Getter) :
    ((g.prog env handle key).run w').1 = ((g.prog env handle key).run w).1 := by
  obtain ⟨s, h⟩ := hw.refines fun _ _ h => h
  exact (unchanged_of_failed ⟨_, _, h.abs.sound⟩ hf).get h.abs.sound h.cache hc

theorem get_after_failed_factory :
    let w' := ((Call.set (.blob (some (List.replicate 4040 0)) 4040) 10 keyA).prog (.built []) 1).run factory
    (((Getter.scalar .u8).prog (.built []) 10 keyA).run w'.2).1 =
      (((Getter.scalar .u8).prog (.built []) 10 keyA).run factory).1 := by
  intro w'
  have hset : HarmlessSet factory.flash (.blob (some (List.replicate 4040 0)) 4040) 10 keyA.bytes :=
    ⟨noHit_of_blank (fun _ _ _ _ _ => rfl) _ _ _, by decide +kernel⟩
  have hfail : FailedSet (.built []) factory w'.2 :=
    ⟨_, _, _, 1, .code espErrNvsNoFreePages, hset, run_eq (by decide +kernel), by decide⟩
  have hclear : ClearName factory.flash (nsIndexOf 10) keyA.bytes := refines_factory.abs.clearName (by decide) _ _
  exact get_after_failed reach_factory (.single hfail) hclear (.scalar .u8)

/-- A blob that fits no page fails, and the old value of the key is gone. -/
theorem failed_set_erases :
    let w := calls (.built []) [(1, .set (.blob (some (List.replicate 8 7)) 8) 10 keyA)] factory
    let w' := calls (.built []) [(1, .set (.blob (some (List.replicate 4040 0)) 4040) 10 keyA)] w.2
    w.1 = [.ok (.code espOk)] ∧ w'.1 = [.ok (.code espErrNvsNoFreePages)] ∧
      (((Getter.blob (some 8)).prog (.built []) 10 keyA).run w.2).1 =
        .ok ⟨espOk, some (List.replicate 8 7), some 8, none⟩ ∧
      (((Getter.blob (some 8)).prog (.built []) 10 keyA).run w'.2).1 = .ok (.code espErrNvsNotFound) := by
  decide +kernel

end Esp8266Sdk.Nvs
