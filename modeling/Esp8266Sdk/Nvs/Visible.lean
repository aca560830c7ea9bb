import Esp8266Sdk.Nvs.Refinement

/-! What a lookup with an empty cache finds, followed through erasing and storing.
A block that is found first stays so while it is kept, since new blocks come
behind all others in scan order. -/

namespace Esp8266Sdk.Nvs

open Nor Prog Kv

/-- A lookup with an empty cache finds the block of the record `e`. -/
def Visible (f : Flash) (nsIndex : UInt8) (key : List UInt8) (e : Record) : Prop :=
  ∃ p i, FirstMatch f nsIndex key 0xff p i ∧ Head f p i ∧ recordAt f p i = e

/-- A lookup with an empty cache finds nothing. -/
def Hidden (f : Flash) (nsIndex : UInt8) (key : List UInt8) : Prop := ∀ p i, ¬ Match f nsIndex key 0xff p i

/-! ### Getters after a reboot -/

/-- With an empty cache a lookup is a scan. -/
theorem lookup_powerOn (env : Env) (f : Flash) (nsIndex datatype : UInt8) (key : List UInt8) (chunkIndex : UInt8) :
    (lookup env (powerOn f) nsIndex datatype key chunkIndex).1 = (scan f nsIndex datatype key chunkIndex).getD notFound := by
  have hlt := hash_mod_lt (calculateKeyHash nsIndex key)
  have h0 : getFromCache env nsIndex key .empty = 0 := by
    simp only [getFromCache, Cache.empty, Vector.getElem_replicate]
    split_ifs <;> rfl
  rw [lookup, powerOn, h0, cachedAt_zero]
  cases scan f nsIndex datatype key chunkIndex <;> rfl

theorem get_visible {f : Flash} (hf : Packed f) {env : Env} {g : Getter} {handle : UInt32} {key : CString} {e : Record}
    (hv : Visible f (nsIndexOf handle) key.bytes e) :
    ((g.prog env handle key).run (powerOn f)).1 = g.read (some e) := by
  obtain ⟨p, i, hfirst, hhead, rfl⟩ := hv
  rw [run_getter, lookup_powerOn, scan_eq_some_iff.2 ⟨p, i, hfirst, rfl⟩, Option.getD_some]
  exact reply_head hf hfirst.1.1 hhead g

theorem get_hidden {f : Flash} {env : Env} {g : Getter} {handle : UInt32} {key : CString}
    (hh : Hidden f (nsIndexOf handle) key.bytes) : ((g.prog env handle key).run (powerOn f)).1 = g.read none := by
  rw [run_getter, lookup_powerOn, scan_eq_none_iff.2 hh]
  rfl

/-- Where no continuation entry reads as an item of the name, a lookup finds a block or nothing. -/
theorem visible_or_hidden {f : Flash} {nsIndex : UInt8} {key : List UInt8} (hc : ClearName f nsIndex key) :
    (∃ e, Visible f nsIndex key e) ∨ Hidden f nsIndex key := by
  by_cases hm : ∃ p i, Match f nsIndex key 0xff p i
  · obtain ⟨p, i, hm⟩ := hm
    obtain ⟨q, j, hfirst⟩ := hm.exists_first
    exact .inl ⟨_, q, j, hfirst, hc q hfirst.1.1 j hfirst.1.2.1 hfirst.1, rfl⟩
  · exact .inr fun p i h => hm ⟨p, i, h⟩

/-- A regular lookup is answered as after a reboot. -/
theorem get_regular {w : NvsWorld} {s : Store} (h : Refines w s) {env : Env} {g : Getter} {handle : UInt32}
    {key : CString} (hc : RegularLookup env w (nsIndexOf handle) g.itemType.code key.bytes) :
    ((g.prog env handle key).run w).1 = ((g.prog env handle key).run (powerOn w.flash)).1 := by
  have hs := h.abs.sound
  rw [run_getter, run_getter, (lookup_regular env hs h.cache g.code_ne_any hc).1, lookup_powerOn,
    scan_eq_firstHead hs.ordered hs.packed hc.clear]
  cases firstHead w.flash (nsIndexOf handle) key.bytes <;> rfl

/-! ### Through erasing -/

theorem Ordered.pageLive_of_written {f : Flash} {a p i : ℕ} (h : Ordered f a) (hp : p < 8) (hi : i < 126)
    (hw : entryAt f p i = .written) : PageLive f p := by
  have hnb : ¬ Blank f p := by
    intro hb
    rw [hb.entryAt (by omega)] at hw
    cases hw
  rcases Nat.lt_trichotomy p a with hlt | rfl | hgt
  · rw [PageLive, h.full p hlt]
    decide
  · rw [PageLive, h.here.resolve_right hnb]
    decide
  · exact absurd (h.fresh p hgt hp) hnb

variable {f g : Flash} {nsIndex : UInt8} {key : List UInt8} {e : Record}

namespace Removes

variable {R : ℕ → ℕ → Prop} (r : Removes f g R)
include r

/-- What still matches matched before, and is in no erased block. -/
theorem match_before {chunkIndex : UInt8} {q j : ℕ} (hm : Match g nsIndex key chunkIndex q j) :
    Match f nsIndex key chunkIndex q j ∧ ∀ i, R q i → i ≤ j → j < i + spanAt f q i → False := by
  obtain ⟨hq, hj, hlive, hw, hn, hc⟩ := hm
  have hno : ∀ i, R q i → i ≤ j → j < i + spanAt f q i → False := by
    intro i hi h1 h2
    rw [r.erases.gone q hq i j hi h1 h2] at hw
    cases hw
  rw [r.erases.item hq hj] at hn hc
  rw [r.erases.kept q hq j hj hno] at hw
  rw [PageLive, r.state q hq] at hlive
  exact ⟨⟨hq, hj, hlive, hw, hn, hc⟩, hno⟩

theorem match_after (hf : Packed f) {chunkIndex : UInt8} {p i : ℕ} (hm : Match f nsIndex key chunkIndex p i)
    (hhead : Head f p i) (hk : ¬ R p i) : Match g nsIndex key chunkIndex p i ∧ Head g p i := by
  obtain ⟨hp, hi, hlive, -, hn, hc⟩ := hm
  have hhead' := (r.erases.head_iff hf hp).2 ⟨hhead, hk⟩
  refine ⟨⟨hp, hi, ?_, hhead'.2.1, ?_, ?_⟩, hhead'⟩
  · rwa [PageLive, r.state p hp]
  · rwa [r.erases.item hp hi]
  · rwa [r.erases.item hp hi]

/-- A block that is found and kept is still found. -/
theorem visible (hf : Packed f) {P : Record → Prop} (hP : ∀ p < 8, ∀ i, Head f p i → (R p i ↔ P (recordAt f p i)))
    (hv : Visible f nsIndex key e) (he : ¬ P e) : Visible g nsIndex key e := by
  obtain ⟨p, i, ⟨hm, hfirst⟩, hhead, rfl⟩ := hv
  have hk : ¬ R p i := fun hr => he ((hP p hm.1 i hhead).1 hr)
  obtain ⟨hm', hhead'⟩ := r.match_after hf hm hhead hk
  exact ⟨p, i, ⟨hm', fun q j hb hm => hfirst q j hb (r.match_before hm).1⟩, hhead', r.erases.recordAt hf hm.1 hhead⟩

theorem hidden (hh : Hidden f nsIndex key) : Hidden g nsIndex key := fun p i hm => hh p i (r.match_before hm).1

end Removes

/-! ### Through storing -/

namespace Put

variable {p t n : ℕ} {item : Item} {rest : Option (List UInt8)} (r : Put f g p t n item rest)
include r

/-- What matches outside the new block matched before. -/
theorem match_before {a : ℕ} (ho : Ordered f a) {chunkIndex : UInt8} {q j : ℕ} (hm : Match g nsIndex key chunkIndex q j)
    (hout : q ≠ p ∨ j < t ∨ t + n ≤ j) : Match f nsIndex key chunkIndex q j := by
  obtain ⟨h, hp, hs⟩ := r.stores
  obtain ⟨hq, hj, -, hw, hn, hc⟩ := hm
  rw [hs.other q hq j hj hout, hp.same.entry hq hj] at hw
  rw [hs.item hq hj hout, hp.same.item hq hj] at hn hc
  exact ⟨hq, hj, ho.pageLive_of_written hq hj hw, hw, hn, hc⟩

/-- Old blocks come before the new one in scan order. -/
theorem before (hf : Packed f) {q i : ℕ} (hq : q < 8) (hhead : Head f q i) : Before q i p t := by
  obtain ⟨h, hp, hs⟩ := r.stores
  have hhead' := (hp.same.head_same hf hq).2 hhead
  have hpk := hp.same.packed hf
  rcases Nat.lt_trichotomy q p with hlt | rfl | hgt
  · exact .inl hlt
  · have hpos := (hpk.blocks q hq).pos hhead'
    have hold := (hs.old hpk hq hhead').resolve_left fun hne => hne rfl
    exact .inr ⟨rfl, by omega⟩
  · have hw := hhead'.2.1
    rw [(hp.ordered.fresh q hgt hq).entryAt (by have := hhead.1; omega)] at hw
    cases hw

theorem head_old (hf : Packed f) {q i : ℕ} (hq : q < 8) (hhead : Head f q i) :
    Head g q i ∧ Nvs.recordAt g q i = Nvs.recordAt f q i ∧ itemAt g q i = itemAt f q i := by
  obtain ⟨h, hp, hs⟩ := r.stores
  have hhead' := (hp.same.head_same hf hq).2 hhead
  have hpk := hp.same.packed hf
  exact ⟨(hs.head_iff hpk hq).2 (.inl hhead'), by rw [hs.recordAt hpk hq hhead', hp.same.recordAt hf hq hhead],
    by rw [hs.item_old hpk hq hhead', hp.same.item hq hhead.1]⟩

theorem head_new (hf : Packed f) : Head g p t := by
  obtain ⟨h, hp, hs⟩ := r.stores
  exact (hs.head_iff (hp.same.packed hf) hs.page).2 (.inr ⟨rfl, rfl⟩)

/-- A block that is found is still found. -/
theorem visible {a : ℕ} (ho : Ordered f a) (hf : Packed f) (hv : Visible f nsIndex key e) : Visible g nsIndex key e := by
  obtain ⟨q, i, ⟨hm, hfirst⟩, hhead, rfl⟩ := hv
  obtain ⟨hhead', hrec, hitem⟩ := r.head_old hf hm.1 hhead
  have hb := r.before hf hm.1 hhead
  refine ⟨q, i, ⟨⟨hm.1, hm.2.1, r.ordered.pageLive hm.1 hhead', hhead'.2.1, ?_, ?_⟩, fun q' j hb' hm' => ?_⟩, hhead', hrec⟩
  · rw [hitem]
    exact hm.2.2.2.2.1
  · rw [hitem]
    exact hm.2.2.2.2.2
  · refine hfirst q' j hb' (r.match_before ho hm' ?_)
    simp only [Before] at hb hb'
    omega

/-- The new block is found where nothing was found before. -/
theorem visible_new {a : ℕ} (ho : Ordered f a) (hf : Packed f) (hh : Hidden f nsIndex key)
    (hn : item.named nsIndex key) (hc : item.chunkIndex = 0xff) : Visible g nsIndex key (Nvs.recordAt g p t) := by
  have hhead := r.head_new hf
  obtain ⟨h, -, hs⟩ := r.stores
  refine ⟨p, t, ⟨⟨hs.page, hhead.1, r.ordered.pageLive hs.page hhead, hhead.2.1, by rwa [r.item], ?_⟩,
    fun q j hb hm => hh q j (r.match_before ho hm ?_)⟩, hhead, rfl⟩
  · rw [r.item]
    exact .inr hc
  · simp only [Before] at hb
    omega

end Put

end Esp8266Sdk.Nvs
