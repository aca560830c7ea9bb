import Esp8266Sdk.Nvs.RamUse
import Esp8266Sdk.Nvs.RoundTrip

/-! `nvs_flash_erase` leaves the cache as it is. Its addresses are those of slots of
the partition, which now read as items of no type that a getter asks for. -/

namespace Esp8266Sdk.Nvs

open Nor Prog

/-- Worlds reached by public calls from power-on, with anything on flash. A power cut is another power-on. -/
inductive Booted (env : Env) : NvsWorld → Prop
  | boot (f : Flash) : Booted env (powerOn f)
  | call {w w' : NvsWorld} {c : Call} {depth : ℕ} {r : Reply} (hw : Booted env w)
      (hr : (c.prog env depth).run w = (.ok r, w')) : Booted env w'

variable {env : Env} {w : NvsWorld} {nsIndex datatype : UInt8} {key : List UInt8}

/-! ### The addresses in the cache -/

theorem slotCache_lookup (hw : SlotCache w.ram) (chunkIndex : UInt8) :
    SlotCache (lookup env w nsIndex datatype key chunkIndex).2 := by
  rw [lookup]
  split
  · exact hw
  split
  · rename_i r hr
    obtain ⟨p, i, hfirst, rfl⟩ := scan_eq_some_iff.1 hr
    split_ifs
    · exact slotInvariant_slotCache.update nsIndex key hfirst.1.1 hfirst.1.2.1 hw
    · exact hw
  · exact hw

theorem slotCache_call (depth : ℕ) (c : Call) (hw : SlotCache w.ram) :
    SlotCache ((c.prog env depth).run w).2.ram := by
  have hI := slotInvariant_slotCache
  cases c with
  | flashInit =>
    refine WriteOnly.keeps (.bind (.reads reads_findActivePage) fun x _ => ?_) w hw
    simp only
    split
    · exact .bind (writeOnly_initializePage ..) fun _ _ => .pure _
    · exact .pure _
  | flashErase => exact WriteOnly.keeps (.bind (.foldlM (fun _ _ => .step _ (.pure ())) _ _) fun _ _ => .pure _) w hw
  | «open» name =>
    rw [Call.prog, nvsOpen]
    split
    · exact hw
    rw [run_bind, run_findItem]
    refine WriteOnly.keeps ?_ _ (slotCache_lookup hw 0xff)
    split
    · exact .pure _
    · refine .bind (writeOnly_writeItem hI ..) fun err _ => ?_
      split <;> exact .pure _
  | get g handle key =>
    rw [Call.prog, run_getter_snd]
    exact slotCache_lookup hw 0xff
  | set st handle key =>
    rw [Call.prog, Setter.prog_eq]
    exact WriteOnly.keeps (.bind (writeOnly_eraseOldItem hI ..) fun _ _ => .bind (writeOnly_writeItem hI ..) fun _ _ =>
      .pure _) w hw
  | eraseKey handle key => exact WriteOnly.keeps (.bind (writeOnly_eraseOldItem hI ..) fun _ _ => .pure _) w hw
  | eraseAll handle => exact (writeOnly_eraseAll handle).keeps w hw
  | _ => exact hw

theorem Booted.slotCache (hw : Booted env w) : SlotCache w.ram := by
  induction hw with
  | boot => exact slotCache_empty
  | @call w w' c depth r _ hr ih =>
    have h : SlotCache ((c.prog env depth).run w).2.ram := slotCache_call depth c ih
    rwa [hr] at h

/-! ### After the erase -/

/-- Nothing is found on a blank partition, not even by the addresses of slots. -/
theorem lookup_blank (hblank : ∀ p < 8, Blank w.flash p) (hcache : SlotCache w.ram) (hd : datatype ≠ ItemType.any.code)
    (chunkIndex : UInt8) : lookup env w nsIndex datatype key chunkIndex = (notFound, w.ram) := by
  have hcached : cachedAt w.flash nsIndex datatype key chunkIndex (getFromCache env nsIndex key w.ram) = none := by
    rcases getFromCache_cases env nsIndex key w.ram with h0 | ⟨-, k, hk, -, -, haddr⟩
    · rw [h0, cachedAt_zero]
    by_cases h0 : w.ram[k].address = 0
    · rw [haddr, h0, cachedAt_zero]
    obtain ⟨p, hp, i, hi, hslot⟩ := hcache k hk h0
    rw [haddr, hslot, cachedAt_slot _ _ _ _ _ hp hi]
    refine if_neg fun h => hd ?_
    have htype : (itemAt w.flash p i).datatype = datatype := (typed_iff hd).1 h.2.1
    rw [← htype]
    exact BlankSlot.datatype fun x h1 h2 => hblank p hp x (by rw [slotAddr] at h1; omega) (by rw [slotAddr] at h2; omega)
  have hscan : scan w.flash nsIndex datatype key chunkIndex = none :=
    scan_eq_none_iff.2 fun p i hm => hm.2.2.1.1 (hblank p hm.1).stateAt
  rw [lookup, hcached, hscan]

/-- After `nvs_flash_erase`, from any flash and any cache that public calls leave, every getter answers
`ESP_ERR_NVS_NOT_FOUND`, stores nothing and changes nothing. -/
theorem flashErase_empties (hw : Booted env w) (f : Flash) : ∃ w', nvsFlashErase.run ⟨f, w.ram⟩ = (.ok (.code espOk), w') ∧
    ∀ g handle key, (Getter.prog env g handle key).run w' = (.ok (.code espErrNvsNotFound), w') := by
  have herase := wp_run (erased_flashErase (w := ⟨f, w.ram⟩) (E := fun _ _ => False))
  rcases hr : nvsFlashErase.run ⟨f, w.ram⟩ with ⟨e | r, w'⟩
  · rw [hr] at herase
    exact herase.elim
  rw [hr] at herase
  obtain ⟨rfl, hblank, hram⟩ := herase
  refine ⟨w', rfl, fun g handle key => ?_⟩
  have hcache : SlotCache w'.ram := by
    rw [hram]
    exact hw.slotCache
  have hlookup : lookup env w' (nsIndexOf handle) g.itemType.code key.bytes 0xff = (notFound, w'.ram) :=
    lookup_blank hblank hcache g.code_ne_any 0xff
  refine Prod.ext ?_ ?_
  · rw [run_getter, hlookup]
    exact if_pos (show espErrNvsNotFound ≠ espOk by decide)
  · rw [run_getter_snd, hlookup]

theorem flashErase_empties_factory : ∃ w₁ w',
    ((Call.set (.scalar .u8 7#8) 10 keyA).prog (.built []) 1).run factory = (.ok (.code espOk), w₁) ∧
      nvsFlashErase.run w₁ = (.ok (.code espOk), w') ∧
      ∀ g handle key, (Getter.prog (.built []) g handle key).run w' = (.ok (.code espErrNvsNotFound), w') := by
  have hc := refines_factory.faithful (.built []) (c := .set (.scalar .u8 7#8) 10 keyA) (by decide)
  have hr := (refines_factory.run hc 1).trans (show _ = Except.ok (.code espOk) by decide)
  have hrun := run_eq hr
  obtain ⟨w', h⟩ := flashErase_empties (.call (.boot _) hrun) _
  exact ⟨_, w', hrun, h⟩

end Esp8266Sdk.Nvs
