import Esp8266Sdk.Nvs.Refinement

/-! Stores of values of at most 8 bytes. Every item takes one entry, so that no
continuation entry can be taken for an item, and whether a call is faithful can
be told from the abstract store. -/

namespace Esp8266Sdk.Nvs

open Nor Prog Kv

/-- Every record takes one entry. -/
def Store.Plain (s : Store) : Prop := ∀ e ∈ s.log, e.value.length = 8

instance (s : Store) : Decidable s.Plain := inferInstanceAs (Decidable (∀ _ ∈ _, _))

variable {f : Flash} {w : NvsWorld} {s : Store}

namespace Abs

variable (h : Abs f s) (hp : s.Plain)
include h hp

/-- In a plain store every written entry is an item. -/
theorem head_of_written {p i : ℕ} (hp8 : p < 8) (hi : i < 126) (hw : entryAt f p i = .written) : Head f p i := by
  obtain ⟨j, hj, hji, hij⟩ := (h.sound.packed.blocks p hp8).cover hi hw
  have hlen := hp (recordAt f p j) (by rw [h.log]; exact mem_logOf.2 ⟨p, hp8, j, hj, rfl⟩)
  have hpos := (h.sound.packed.blocks p hp8).pos hj
  rw [length_value] at hlen
  rwa [show i = j by omega]

theorem clear (nsIndex datatype : UInt8) (key : List UInt8) : Clear f nsIndex datatype key :=
  fun _ hp8 _ hi hw _ => h.head_of_written hp hp8 hi hw

theorem clearName (nsIndex : UInt8) (key : List UInt8) : ClearName f nsIndex key :=
  fun _ hp8 _ hi hm => h.head_of_written hp hp8 hi hm.2.2.2.1

theorem uniform (nsIndex : UInt8) : Uniform f nsIndex := by
  intro p hp8 i _ hi j hj hij
  have hlen := hp (recordAt f p i) (by rw [h.log]; exact mem_logOf.2 ⟨p, hp8, i, hi, rfl⟩)
  have hpos := (h.sound.packed.blocks p hp8).pos hi
  rw [length_value] at hlen
  rw [show j = i by omega]

end Abs

/-- There is room for `n` entries among the first four of a page, or none and a page left. -/
def Store.Roomy (s : Store) (n : ℕ) : Prop :=
  if 1 ≤ n ∧ s.used + n ≤ 126 then s.used < 4 else s.page + 1 < 8

instance (s : Store) (n : ℕ) : Decidable (s.Roomy n) := by
  unfold Store.Roomy
  infer_instance

theorem Abs.roomOk (h : Abs f s) {length : UInt32} (hr : s.Roomy (itemSpan length).toNat) : RoomOk f length := by
  rw [Store.Roomy] at hr
  rw [RoomOk, h.sound.room, h.sound.selPage_eq]
  split_ifs at hr ⊢ with hn
  · exact hr
  · rw [nextPage, Nat.mod_eq_of_lt hr]
    exact (h.sound.ordered.fresh _ (by omega) hr).stateAt

theorem Abs.freeName (h : Abs f s) {nsIndex datatype : UInt8} {key : List UInt8}
    (hno : ∀ e ∈ s.log, ¬ (e.name = (nsIndex, key.take 15) ∧ e.kind = datatype)) : FreeName f nsIndex datatype key := by
  intro p hp i _ hi hn
  refine hno (recordAt f p i) (by rw [h.log]; exact mem_logOf.2 ⟨p, hp, i, hi, rfl⟩) ⟨name_recordAt.2 hn.1, hn.2⟩

theorem unshared_of_le {nsIndex datatype : UInt8} {key : List UInt8} (hkey : key.length ≤ 15) :
    Unshared f nsIndex datatype key := by
  intro p _ i _ _ hn
  have hkeyString := hn.1.2
  rwa [List.take_of_length_le hkey] at hkeyString

/-- All records of a name have one type. -/
theorem Abs.typedFirst (h : Abs f s) {nsIndex datatype : UInt8} {key : List UInt8}
    (ht : ∀ e ∈ s.log, e.name = (nsIndex, key) → e.kind = datatype) : TypedFirst f nsIndex datatype key := by
  rintro ⟨p, i⟩ hx
  obtain ⟨hp, hhead, hnamed⟩ := firstHead_some hx
  exact ht (recordAt f p i) (by rw [h.log]; exact mem_logOf.2 ⟨p, hp, i, hhead, rfl⟩) (name_recordAt.2 hnamed)

/-- What makes a call faithful, told from a plain abstract store. -/
def Store.Admits (s : Store) : Call → Prop
  | .open name => s.Plain ∧ (∀ e ∈ s.log, e.name = (0, name.bytes) → e.kind = ItemType.u8.code) ∧
      name.bytes.length ≤ 15 ∧ s.Roomy 1
  | .get g handle key => s.Plain ∧ ∀ e ∈ s.log, e.name = (nsIndexOf handle, key.bytes) → e.kind = g.itemType.code
  | .set st _ key => s.Plain ∧ key.bytes.length ≤ 15 ∧ st.length.toNat ≤ 8 ∧ s.Roomy 1
  | .eraseKey _ _ => s.Plain
  | .eraseAll handle => s.Plain ∧ ∀ e ∈ s.log, e.name.1 ≠ nsIndexOf handle
  | _ => True

instance (s : Store) : (c : Call) → Decidable (s.Admits c)
  | .open _ | .get .. | .set .. | .eraseAll _ => inferInstanceAs (Decidable (_ ∧ _))
  | .eraseKey .. => inferInstanceAs (Decidable s.Plain)
  | .flashInit | .flashDeinit | .flashErase | .close _ | .commit _ => inferInstanceAs (Decidable True)

theorem RegularLookup.of_plain (env : Env) (h : Refines w s) (hp : s.Plain) {nsIndex datatype : UInt8} {key : List UInt8}
    (ht : ∀ e ∈ s.log, e.name = (nsIndex, key) → e.kind = datatype) : RegularLookup env w nsIndex datatype key :=
  ⟨h.abs.clearName hp _ _, fun _ => h.abs.typedFirst ht⟩

/-- A call that the plain abstract store admits is faithful. -/
theorem Refines.faithful (env : Env) (h : Refines w s) {c : Call} (hc : s.Admits c) : Faithful env w c := by
  cases c with
  | «open» name =>
    obtain ⟨hp, ht, hlen, hroom⟩ := hc
    refine fun _ => ⟨.of_plain env h hp ht, fun herr => ⟨h.abs.freeName fun e he hn => herr ?_, h.abs.roomOk hroom⟩⟩
    -- a record of the name would have been found with its type
    rw [List.take_of_length_le hlen] at hn
    have hu8 : ItemType.u8.code ≠ ItemType.any.code := by decide
    rw [(lookup_regular env h.abs.sound h.cache hu8 (.of_plain env h hp ht)).1]
    cases hfirst : firstHead w.flash 0 name.bytes with
    | none =>
      have hnone := lookup_logOf w.flash 0 name.bytes
      rw [hfirst, ← h.abs.log, Option.map_none, Log.lookup_eq_none] at hnone
      exact absurd hn.1 (hnone e he)
    | some x => exact if_pos ((typed_iff hu8).2 (h.abs.typedFirst ht x hfirst))
  | get g handle key => exact .of_plain env h hc.1 hc.2
  | set st handle key =>
    obtain ⟨hp, hkey, hlen, hroom⟩ := hc
    have hspan : (itemSpan st.length).toNat = 1 := by rw [itemSpan_small hlen]; rfl
    exact ⟨⟨h.abs.clear hp _ _ _, unshared_of_le hkey, fits_of_le _ (by omega), h.abs.roomOk (by rwa [hspan])⟩,
      noStale_of_span hspan⟩
  | eraseKey handle key => exact h.abs.clear hc _ _ _
  | eraseAll handle =>
    refine ⟨h.abs.uniform hc.1 _, fun k hk p hp i _ hin => ?_⟩
    exact absurd hin.2 (hc.2 (recordAt w.flash p i) (by rw [h.abs.log]; exact mem_logOf.2 ⟨p, hp, i, hin.1, rfl⟩))
  | _ => trivial

/-- How a faithful call ends, told from the abstract store. -/
theorem Refines.run (h : Refines w s) {env : Env} {c : Call} (hc : Faithful env w c) (depth : ℕ) :
    ((c.prog env depth).run w).1 = (s.step depth c).1 := by
  have hw := wp_run (call_refines env depth h hc)
  rcases hr : (c.prog env depth).run w with ⟨e | r, w'⟩
  · rw [hr] at hw
    exact hw.symm
  · rw [hr] at hw
    exact hw.1.symm

/-- What a faithful call that returns leaves. -/
theorem Refines.next (h : Refines w s) {env : Env} {c : Call} (hc : Faithful env w c) {depth : ℕ} {r : Reply}
    (hr : (s.step depth c).1 = .ok r) : Refines ((c.prog env depth).run w).2 (s.step depth c).2 :=
  (wp_ok (call_refines env depth h hc) (run_eq ((h.run hc depth).trans hr))).2

theorem refines_factory : Refines factory .empty := refines_powerOn (abs_of_blank fun _ _ _ _ _ => rfl)

end Esp8266Sdk.Nvs
