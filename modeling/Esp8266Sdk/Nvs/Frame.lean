import Esp8266Sdk.Nvs.Plain
import Esp8266Sdk.Nvs.Visible

/-! No collateral change: a set of another name or type, or the erasure of another
key, leaves a value that is found in place, however the call ends. -/

namespace Esp8266Sdk.Nvs

open Nor Prog Kv

variable {w : NvsWorld} {nsIndex datatype : UInt8} {key : List UInt8} {data : Option (List UInt8)} {length : UInt32}

/-! ### What is found stays -/

section

variable {nsIndex' : UInt8} {key' : List UInt8} {e : Record}

/-- Making a page ready hides nothing. -/
theorem Prepared.visible {f g : Flash} {a p u : ℕ} (r : Prepared f g p u) (ho : Ordered f a) (hf : Packed f)
    (hv : Visible f nsIndex key e) : Visible g nsIndex key e := by
  obtain ⟨q, i, ⟨⟨hq, hi, -, -, hn, hc⟩, hfirst⟩, hhead, rfl⟩ := hv
  have hhead' := (r.same.head_same hf hq).2 hhead
  refine ⟨q, i, ⟨⟨hq, hi, r.ordered.pageLive hq hhead', hhead'.2.1, ?_, ?_⟩, fun q' j hb hm => ?_⟩, hhead',
    r.same.recordAt hf hq hhead⟩
  · rwa [r.same.item hq hi]
  · rwa [r.same.item hq hi]
  · obtain ⟨hq', hj, -, hw, hn', hc'⟩ := hm
    rw [r.same.entry hq' hj] at hw
    rw [r.same.item hq' hj] at hn' hc'
    exact hfirst q' j hb ⟨hq', hj, ho.pageLive_of_written hq' hj hw, hw, hn', hc'⟩

/-- `writeItem` hides nothing that is found before it. -/
theorem wp_writeItem_visible (env : Env) (depth : ℕ) {a u : ℕ} (h : Sound w.flash a u) (hr : RoomOk w.flash length)
    (hfit : Fits data length) (hkey : 0 ∉ key) (hfree : FreeName w.flash nsIndex datatype key)
    (hv : Visible w.flash nsIndex' key' e) :
    wp (fun _ _ => True) (fun _ w' => Packed w'.flash ∧ Visible w'.flash nsIndex' key' e)
      (fun _ w' => Packed w'.flash ∧ Visible w'.flash nsIndex' key' e)
      (writeItem env depth nsIndex datatype key data length 0xff) w := by
  have hput : ∀ {g : Flash} {p t : ℕ}, PutValue w.flash g p t nsIndex datatype key data length →
      Packed g ∧ Visible g nsIndex' key' e := fun put =>
    ⟨(put.abs h.abs hkey hfree).sound.packed, put.visible h.ordered h.packed hv⟩
  refine wp_mono (wp_writeItem_sound env depth h hr hfit) (fun _ _ h => h) ?_ ?_
  · rintro err w' ⟨-, hw⟩
    cases hw with
    | stored hplace hwords put ram => exact hput put
    | noRoom hspan prepared ram => exact ⟨prepared.same.packed h.packed, prepared.visible h.ordered h.packed hv⟩
  · intro err w' hw
    cases hw with
    | stack hdepth same =>
      rw [same]
      exact ⟨h.packed, hv⟩
    | index hplace hdepth hn htn hwords put ram => exact hput put

/-- A regular set hides no record but those of its own name and type. -/
theorem wp_set_visible (env : Env) (depth : ℕ) {a u : ℕ} (h : Sound w.flash a u) {s : Setter} {handle : UInt32}
    {k : CString} (hc : RegularSet w.flash s (nsIndexOf handle) k.bytes) (hv : Visible w.flash nsIndex' key' e)
    (he : ¬ (e.name = (nsIndexOf handle, k.bytes) ∧ e.kind = s.itemType.code)) :
    wp (fun _ _ => True) (fun _ w' => Packed w'.flash ∧ Visible w'.flash nsIndex' key' e)
      (fun _ w' => Packed w'.flash ∧ Visible w'.flash nsIndex' key' e) (s.prog env depth handle k) w := by
  rw [Setter.prog_eq, nvsSetValue, wp_bind]
  refine wp_post (wp_eraseOldItem h.packed hc.clear) fun _ w₁ hold => ?_
  have hs₁ := hold.removes.sound h
  have hv₁ : Visible w₁.flash nsIndex' key' e := by
    refine hold.removes.visible h.packed (P := fun e => e.name = (nsIndexOf handle, k.bytes) ∧ e.kind = s.itemType.code)
      (fun p _ i hi => ?_) hv he
    rw [name_recordAt, Old, Hit, typed_iff s.code_ne_any, and_iff_right hi]
    exact Iff.rfl
  rw [wp_bind]
  exact wp_writeItem_visible env depth hs₁ (hc.room.congr h hs₁ hold.removes.state) hc.fits k.nul_free
    (hold.freeName h.packed hc.unshared) hv₁

/-- Erasing a key hides no record of another name. -/
theorem wp_eraseKey_visible {a u : ℕ} (h : Sound w.flash a u) {handle : UInt32} {k : CString}
    (hc : Clear w.flash (nsIndexOf handle) ItemType.any.code k.bytes) (hv : Visible w.flash nsIndex' key' e)
    (he : e.name ≠ (nsIndexOf handle, k.bytes)) :
    wp (fun _ _ => True) (fun _ w' => Packed w'.flash ∧ Visible w'.flash nsIndex' key' e)
      (fun _ w' => Packed w'.flash ∧ Visible w'.flash nsIndex' key' e) (nvsEraseKey handle k) w := by
  rw [nvsEraseKey, wp_bind]
  refine wp_post (wp_eraseOldItem h.packed hc) fun _ w₁ hold => ⟨(hold.removes.sound h).packed, ?_⟩
  refine hold.removes.visible h.packed (P := fun e => e.name = (nsIndexOf handle, k.bytes)) (fun p _ i hi => ?_) hv he
  rw [name_recordAt, Old, Hit, Item.typed, and_iff_right hi, eq_self_iff_true, true_or, and_true]

end

/-! ### The value of another key -/

theorem ItemType.code_inj {s t : ItemType} (h : s.code = t.code) : s = t := by
  cases s <;> cases t <;> first | rfl | exact absurd h (by decide)

/-- The call sets a value of another namespace, key or type, or erases another key. -/
def Call.Spares (nsIndex : UInt8) (key : List UInt8) (itemType : ItemType) : Call → Prop
  | .set s handle k => (nsIndexOf handle, k.bytes, s.itemType) ≠ (nsIndex, key, itemType)
  | .eraseKey handle k => (nsIndexOf handle, k.bytes) ≠ (nsIndex, key)
  | _ => False

instance (nsIndex : UInt8) (key : List UInt8) (itemType : ItemType) : (c : Call) → Decidable (c.Spares nsIndex key itemType)
  | .set .. | .eraseKey .. => inferInstanceAs (Decidable (_ ≠ _))
  | .flashInit | .flashDeinit | .flashErase | .open _ | .close _ | .commit _ | .get .. | .eraseAll _ =>
    inferInstanceAs (Decidable False)

theorem Visible.name {f : Flash} {e : Record} (hv : Visible f nsIndex key e) : e.name = (nsIndex, key) := by
  obtain ⟨p, i, hfirst, -, rfl⟩ := hv
  exact name_recordAt.2 hfirst.1.2.2.2.2.1

/-- A getter that returns `ESP_OK` read a record of its type. -/
theorem Getter.read_ok {g : Getter} {o : Option Record} {r : Reply} (h : g.read o = .ok r) (hok : r.err = espOk) :
    ∃ e, o = some e ∧ e.kind = g.itemType.code := by
  cases o with
  | none =>
    cases h
    exact absurd hok (by decide : espErrNvsNotFound ≠ espOk)
  | some e =>
    refine ⟨e, rfl, ?_⟩
    by_contra hkind
    simp only [Getter.read, ne_eq, hkind, not_false_eq_true, if_true] at h
    cases h
    exact absurd hok (by decide : espErrNvsTypeMismatch ≠ espOk)

theorem Reach.refines {env : Env} {ok : NvsWorld → Call → Prop} (hok : ∀ w c, ok w c → Faithful env w c)
    (hw : Reach env ok noCut w) : ∃ s, Refines w s := by
  refine hw.invariant (I := fun w => ∃ s, Refines w s) (fun f hf => ⟨_, refines_powerOn hf.abs⟩)
    (fun w c depth r w' ⟨s, h⟩ hc hr => ?_) fun _ _ _ _ _ _ h => h.elim
  exact ⟨_, (wp_ok (call_refines env depth h (hok w c hc)) hr).2⟩

/-- In every run of faithful calls: a value that is read with `ESP_OK` is still
read after a call that spares it and a reboot. -/
theorem get_kept {env : Env} (hw : Reach env (Faithful env) noCut w) {g : Getter} {handle : UInt32} {k : CString}
    (hg : Faithful env w (.get g handle k)) {r : Reply} (hr : ((g.prog env handle k).run w).1 = .ok r)
    (hok : r.err = espOk) {c : Call} (hc : Faithful env w c) (hspares : c.Spares (nsIndexOf handle) k.bytes g.itemType)
    (depth : ℕ) : ((g.prog env handle k).run (powerOn ((c.prog env depth).run w).2.flash)).1 = .ok r := by
  obtain ⟨s, h⟩ := hw.refines fun _ _ h => h
  have hs := h.abs.sound
  rw [get_regular h hg] at hr
  rcases visible_or_hidden hg.clear with ⟨e, hv⟩ | hh
  · rw [get_visible hs.packed hv] at hr
    obtain ⟨_, he, hkind⟩ := Getter.read_ok hr hok
    cases he
    have hstays : Packed ((c.prog env depth).run w).2.flash ∧
        Visible ((c.prog env depth).run w).2.flash (nsIndexOf handle) k.bytes e := by
      apply run_snd (G := fun _ _ => True) (I := fun w => Packed w.flash ∧ Visible w.flash (nsIndexOf handle) k.bytes e)
      cases c with
      | set st handle' k' =>
        refine wp_set_visible env depth hs hc.1 hv fun he => hspares ?_
        rw [hv.name, hkind, Prod.mk.injEq] at he
        rw [← ItemType.code_inj he.2, ← he.1.1, ← he.1.2]
      | eraseKey handle' k' => exact wp_eraseKey_visible hs hc hv fun he => hspares (by rw [← he, hv.name])
      | _ => exact hspares.elim
    rw [get_visible hstays.1 hstays.2, hr]
  · rw [get_hidden hh] at hr
    obtain ⟨_, he, -⟩ := Getter.read_ok hr hok
    cases he

theorem get_kept_factory : ∃ w w',
    ((Call.set (.scalar .u8 7#8) 10 keyA).prog (.built []) 1).run factory = (.ok (.code espOk), w) ∧
      ((Call.set (.scalar .u8 8#8) 10 keyB).prog (.built []) 1).run w = (.ok (.code espOk), w') ∧
      (((Call.get (.scalar .u8) 10 keyA).prog (.built []) 1).run (powerOn w'.flash)).1 = .ok ⟨espOk, some [7], none, none⟩ := by
  have hc₁ := refines_factory.faithful (.built []) (c := .set (.scalar .u8 7#8) 10 keyA) (by decide)
  have hr₁ := (refines_factory.run hc₁ 1).trans (show _ = Except.ok (.code espOk) by decide)
  have h₁ := refines_factory.next hc₁ (show (Store.empty.step 1 _).1 = .ok (.code espOk) by decide)
  have hg := h₁.faithful (.built []) (c := .get (.scalar .u8) 10 keyA) (by decide)
  have hc₂ := h₁.faithful (.built []) (c := .set (.scalar .u8 8#8) 10 keyB) (by decide)
  have hr₂ := (h₁.run hc₂ 1).trans (show _ = Except.ok (.code espOk) by decide)
  have hgr := (h₁.run hg 1).trans (show _ = Except.ok ⟨espOk, some [7], none, none⟩ by decide)
  exact ⟨_, _, run_eq hr₁, run_eq hr₂, get_kept (reach_factory.call hc₁ (run_eq hr₁)) (g := .scalar .u8) hg hgr rfl hc₂
    (by decide) 1⟩

/-- A blob whose second entry reads as an item "c" of two entries is followed by
a value. Setting "c" erases the entry of the blob and the value behind it. -/
theorem get_lost :
    let forged : List UInt8 := [10, 1, 2, 0xff, 0, 0, 0, 0, 0x63] ++ List.replicate 23 0
    let l := calls (.built []) [(1, .set (.blob (some (List.replicate 8 0 ++ forged)) 40) 10 keyB),
      (1, .set (.scalar .u8 7#8) 10 keyA), (1, .get (.scalar .u8) 10 keyA),
      (1, .set (.scalar .u8 1#8) 10 ⟨[0x63], by decide⟩)] factory
    l.1 = [.ok (.code espOk), .ok (.code espOk), .ok ⟨espOk, some [7], none, none⟩, .ok (.code espOk)] ∧
      (((Call.get (.scalar .u8) 10 keyA).prog (.built []) 1).run (powerOn l.2.flash)).1 =
        .ok (.code espErrNvsNotFound) := by decide +kernel

end Esp8266Sdk.Nvs
