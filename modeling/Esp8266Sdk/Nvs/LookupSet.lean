import Esp8266Sdk.Nvs.Plain
import Esp8266Sdk.Nvs.Visible

/-! Lookup as a function of the set of stored items. The scan of `findItem` ends
at the first item of the name and chunk, also where that item has another type,
so its answer depends on where the items are. -/

namespace Esp8266Sdk.Nvs

open Nor Prog Kv

variable {f : Flash} {nsIndex datatype chunkIndex : UInt8} {key : List UInt8}

/-- The written entries are well-formed blocks, and no continuation entry reads
as an item of the name. -/
structure WellFormed (f : Flash) (nsIndex : UInt8) (key : List UInt8) : Prop where
  blocks : ∀ p < 8, PageLive f p → Blocks f p (Head f p)
  clear : ∀ p < 8, PageLive f p → ∀ i < 126, entryAt f p i = .written → (itemAt f p i).named nsIndex key → Head f p i

/-- The item at entry `i` of page `p` has the name and chunk asked for. -/
structure StoredItem (f : Flash) (nsIndex : UInt8) (key : List UInt8) (chunkIndex : UInt8) (p i : ℕ) : Prop where
  page : p < 8
  live : PageLive f p
  head : Head f p i
  named : (itemAt f p i).named nsIndex key
  chunked : (itemAt f p i).chunked chunkIndex

/-- The answer `r` tells what is stored: an item of the type, or none but one of
another type, or nothing. -/
structure TellsStored (f : Flash) (nsIndex datatype : UInt8) (key : List UInt8) (chunkIndex : UInt8) (r : Found) : Prop where
  ok : r.err = espOk ↔ ∃ p i, StoredItem f nsIndex key chunkIndex p i ∧ (itemAt f p i).typed datatype
  item : r.err = espOk → ∃ p i, StoredItem f nsIndex key chunkIndex p i ∧ (itemAt f p i).typed datatype ∧
    r = answer f datatype p i
  mismatch : r.err = espErrNvsTypeMismatch ↔
    (∀ p i, StoredItem f nsIndex key chunkIndex p i → ¬ (itemAt f p i).typed datatype) ∧
      ∃ p i, StoredItem f nsIndex key chunkIndex p i
  notFound : r.err = espErrNvsNotFound ↔ ∀ p i, ¬ StoredItem f nsIndex key chunkIndex p i

/-- The first match in scan order has the type asked for, or no match has it. -/
def FirstTyped (f : Flash) (nsIndex datatype : UInt8) (key : List UInt8) (chunkIndex : UInt8) : Prop :=
  ∀ p i, FirstMatch f nsIndex key chunkIndex p i → (itemAt f p i).typed datatype ∨
    ∀ q j, Match f nsIndex key chunkIndex q j → ¬ (itemAt f q j).typed datatype

/-- What matches is the head of a stored item. -/
theorem WellFormed.match_iff (h : WellFormed f nsIndex key) {p i : ℕ} :
    Match f nsIndex key chunkIndex p i ↔ StoredItem f nsIndex key chunkIndex p i := by
  constructor
  · rintro ⟨hp, hi, hl, hw, hn, hc⟩
    exact ⟨hp, hl, h.clear p hp hl i hi hw hn, hn, hc⟩
  · rintro ⟨hp, hl, hh, hn, hc⟩
    exact ⟨hp, hh.1, hl, hh.2.1, hn, hc⟩

theorem tellsStored_notFound (h : WellFormed f nsIndex key) (hno : ∀ p i, ¬ Match f nsIndex key chunkIndex p i) :
    TellsStored f nsIndex datatype key chunkIndex notFound := by
  have hnone : ∀ p i, ¬ StoredItem f nsIndex key chunkIndex p i := fun p i hs => hno p i (h.match_iff.2 hs)
  have hok : notFound.err ≠ espOk := by decide
  have hmis : notFound.err ≠ espErrNvsTypeMismatch := by decide
  exact ⟨iff_of_false hok fun ⟨p, i, hs, _⟩ => hnone p i hs, fun e => absurd e hok,
    iff_of_false hmis fun ⟨_, p, i, hs⟩ => hnone p i hs, iff_of_true rfl hnone⟩

/-- A match of the type is a right answer, one of another type only where there is none of the type. -/
theorem tellsStored_answer (h : WellFormed f nsIndex key) {p i : ℕ} (hm : Match f nsIndex key chunkIndex p i) :
    TellsStored f nsIndex datatype key chunkIndex (answer f datatype p i) ↔ (itemAt f p i).typed datatype ∨
      ∀ q j, Match f nsIndex key chunkIndex q j → ¬ (itemAt f q j).typed datatype := by
  have hs : StoredItem f nsIndex key chunkIndex p i := h.match_iff.1 hm
  by_cases ht : (itemAt f p i).typed datatype
  · have herr : (answer f datatype p i).err = espOk := if_pos ht
    have hmis : espOk ≠ espErrNvsTypeMismatch := by decide
    have hnot : espOk ≠ espErrNvsNotFound := by decide
    refine iff_of_true ⟨?_, fun _ => ⟨p, i, hs, ht, rfl⟩, ?_, ?_⟩ (.inl ht) <;> rw [herr]
    · exact iff_of_true rfl ⟨p, i, hs, ht⟩
    · exact iff_of_false hmis fun hno => hno.1 p i hs ht
    · exact iff_of_false hnot fun hno => hno p i hs
  · have herr : (answer f datatype p i).err = espErrNvsTypeMismatch := if_neg ht
    have hok : espErrNvsTypeMismatch ≠ espOk := by decide
    have hnot : espErrNvsTypeMismatch ≠ espErrNvsNotFound := by decide
    rw [or_iff_right ht]
    constructor
    · intro htell q j hq
      exact (htell.mismatch.1 herr).1 q j (h.match_iff.1 hq)
    · intro hno
      refine ⟨?_, fun e => absurd (herr.symm.trans e) hok, ?_, ?_⟩ <;> rw [herr]
      · exact iff_of_false hok fun ⟨q, j, hq, htq⟩ => hno q j (h.match_iff.2 hq) htq
      · exact iff_of_true rfl ⟨fun q j hq => hno q j (h.match_iff.2 hq), p, i, hs⟩
      · exact iff_of_false hnot fun hnone => hnone p i hs

/-- With an empty cache, the answer of `findItem` tells what is stored exactly
where no item of another type comes before those of the type asked for. -/
theorem findItem_tellsStored_iff (env : Env) (h : WellFormed f nsIndex key) :
    (∃ r, ((findItem env nsIndex datatype key chunkIndex).run (powerOn f)).1 = .ok r ∧
      TellsStored f nsIndex datatype key chunkIndex r) ↔ FirstTyped f nsIndex datatype key chunkIndex := by
  have hrun : ∀ r, ((findItem env nsIndex datatype key chunkIndex).run (powerOn f)).1 = .ok r ↔
      (scan f nsIndex datatype key chunkIndex).getD notFound = r := by
    intro r
    rw [run_findItem, lookup_powerOn, Except.ok.injEq]
  simp only [hrun, exists_eq_left']
  cases hscan : scan f nsIndex datatype key chunkIndex with
  | none =>
    have hno := scan_eq_none_iff.1 hscan
    exact iff_of_true (tellsStored_notFound h hno) fun p i hf => absurd hf.1 (hno p i)
  | some r =>
    obtain ⟨p, i, hfirst, rfl⟩ := scan_eq_some_iff.1 hscan
    rw [Option.getD_some, tellsStored_answer h hfirst.1]
    constructor
    · intro hc q j hq
      obtain ⟨rfl, rfl⟩ := hfirst.unique hq
      exact hc
    · exact fun hc => hc p i hfirst

theorem Abs.wellFormed {s : Store} (h : Abs f s) (hp : s.Plain) (nsIndex : UInt8) (key : List UInt8) :
    WellFormed f nsIndex key :=
  ⟨fun p hp8 _ => h.sound.packed.blocks p hp8, fun _ hp8 _ _ hi hw _ => h.head_of_written hp hp8 hi hw⟩

/-- A record behind one of the same name and another type is not told. -/
theorem Abs.not_tellsStored {s : Store} (h : Abs f s) (hc : ClearName f nsIndex key) {e e' : Record}
    (hfirst : s.log.lookup (nsIndex, key) = some e) (hne : e.kind ≠ datatype) (hd : datatype ≠ ItemType.any.code)
    (hmem : e' ∈ s.log) (hname : e'.name = (nsIndex, key)) (hkind : e'.kind = datatype) {env : Env} {r : Found}
    (hr : ((findItem env nsIndex datatype key 0xff).run (powerOn f)).1 = .ok r) :
    ¬ TellsStored f nsIndex datatype key 0xff r := by
  intro htell
  rw [h.log] at hfirst hmem
  rw [lookup_logOf, Option.map_eq_some_iff] at hfirst
  obtain ⟨x, hx, rfl⟩ := hfirst
  obtain ⟨p, hp, i, hi, rfl⟩ := mem_logOf.1 hmem
  have hstored : StoredItem f nsIndex key 0xff p i :=
    ⟨hp, h.sound.ordered.pageLive hp hi, hi, name_recordAt.1 hname, .inr (h.sound.packed.chunk p hp i hi)⟩
  have hok := htell.ok.2 ⟨p, i, hstored, .inr hkind⟩
  rw [run_findItem, lookup_powerOn, scan_eq_firstHead h.sound.ordered h.sound.packed hc, hx, Except.ok.injEq] at hr
  rw [← hr, Option.map_some, Option.getD_some, answer, if_neg fun ht => hne ((typed_iff hd).1 ht)] at hok
  exact absurd hok (by decide : espErrNvsTypeMismatch ≠ espOk)

theorem findItem_tellsStored_iff_factory :
    let f := (((Call.set (.scalar .u8 7#8) 10 keyA).prog (.built []) 1).run factory).2.flash
    (∃ r, ((findItem (.built []) 10 ItemType.u8.code keyA.bytes 0xff).run (powerOn f)).1 = .ok r ∧
      TellsStored f 10 ItemType.u8.code keyA.bytes 0xff r) ↔ FirstTyped f 10 ItemType.u8.code keyA.bytes 0xff := by
  have hc := refines_factory.faithful (.built []) (c := .set (.scalar .u8 7#8) 10 keyA) (by decide)
  have h := refines_factory.next hc (show (Store.empty.step 1 _).1 = .ok (.code espOk) by decide)
  exact findItem_tellsStored_iff (.built []) (h.abs.wellFormed (by decide) 10 keyA.bytes)

/-- The `u16` of a key is stored before its `u8`: asking for the `u8` gives a type mismatch. -/
theorem findItem_hides_type : ∃ w₁ w₂,
    ((Call.set (.scalar .u16 7#16) 10 keyA).prog (.built []) 1).run factory = (.ok (.code espOk), w₁) ∧
      ((Call.set (.scalar .u8 7#8) 10 keyA).prog (.built []) 1).run w₁ = (.ok (.code espOk), w₂) ∧
      WellFormed w₂.flash 10 keyA.bytes ∧
      ¬ ∃ r, ((findItem (.built []) 10 ItemType.u8.code keyA.bytes 0xff).run (powerOn w₂.flash)).1 = .ok r ∧
        TellsStored w₂.flash 10 ItemType.u8.code keyA.bytes 0xff r := by
  have hc₁ := refines_factory.faithful (.built []) (c := .set (.scalar .u16 7#16) 10 keyA) (by decide)
  have hr₁ := (refines_factory.run hc₁ 1).trans (show _ = Except.ok (.code espOk) by decide)
  obtain ⟨w₁, hw₁⟩ : ∃ w₁, ((Call.set (.scalar .u16 7#16) 10 keyA).prog (.built []) 1).run factory =
    (.ok (.code espOk), w₁) := ⟨_, run_eq hr₁⟩
  have h₁ := (wp_ok (call_refines (.built []) 1 refines_factory hc₁) hw₁).2
  have hc₂ := h₁.faithful (.built []) (c := .set (.scalar .u8 7#8) 10 keyA) (by decide)
  have hr₂ := (h₁.run hc₂ 1).trans (show _ = Except.ok (.code espOk) by decide)
  obtain ⟨w₂, hw₂⟩ : ∃ w₂, ((Call.set (.scalar .u8 7#8) 10 keyA).prog (.built []) 1).run w₁ =
    (.ok (.code espOk), w₂) := ⟨_, run_eq hr₂⟩
  have h₂ := (wp_ok (call_refines (.built []) 1 h₁ hc₂) hw₂).2
  have hwf := h₂.abs.wellFormed (by decide) 10 keyA.bytes
  refine ⟨w₁, w₂, hw₁, hw₂, hwf, fun ⟨r, hr, htell⟩ => ?_⟩
  exact h₂.abs.not_tellsStored (h₂.abs.clearName (by decide) 10 keyA.bytes) rfl (by decide) (by decide)
    (List.mem_cons_of_mem _ (List.mem_singleton_self _)) rfl rfl hr htell

end Esp8266Sdk.Nvs
