import Esp8266Sdk.Nvs.TableSpec
import Mathlib.Logic.Relation
import Mathlib.Order.Bounds.Basic

/-! Entry tables for every pattern of states: the search for a free run finds the
first one, and a table whose entries only went forward is programmed over the
old one without an erase. -/

namespace Esp8266Sdk.Nvs

open Nor Prog Relation

/-! ### The first free run -/

/-- `findConsecutiveEntries` answers the least start of a free run, and nothing only where there is none. -/
theorem findConsecutiveEntries_iff (table : EntryTable) {span : ℕ} (hs : 0 < span) :
    (∀ i, findConsecutiveEntries table span = some i ↔ IsLeast {i | FreeRun table span i} i) ∧
      (findConsecutiveEntries table span = none ↔ ∀ i, ¬ FreeRun table span i) := by
  have hnone := @findConsecutiveEntries_none table span hs
  have hsome := @findConsecutiveEntries_some table span
  cases hf : findConsecutiveEntries table span with
  | none =>
    have hno := hnone hf
    exact ⟨fun i => iff_of_false nofun fun h => hno i h.1, iff_of_true rfl hno⟩
  | some t =>
    obtain ⟨hrun, hfirst⟩ := hsome hs hf
    have hleast : IsLeast {i | FreeRun table span i} t :=
      ⟨hrun, fun i hi => not_lt.1 fun hlt => hfirst i hlt hi⟩
    refine ⟨fun i => ?_, iff_of_false nofun fun hno => hno t hrun⟩
    rw [Option.some.injEq]
    constructor
    · rintro rfl
      exact hleast
    · exact fun hi => hleast.unique hi

theorem findConsecutiveEntries_iff_blank :
    (∀ i, findConsecutiveEntries .blank 126 = some i ↔ IsLeast {i | FreeRun .blank 126 i} i) ∧
      (findConsecutiveEntries .blank 126 = none ↔ ∀ i, ¬ FreeRun .blank 126 i) :=
  findConsecutiveEntries_iff .blank (by decide)

/-! ### States and bytes -/

namespace EntryState

theorem over_assoc (s t u : EntryState) : (s.over t).over u = s.over (t.over u) := by
  cases s <;> cases t <;> cases u <;> rfl

/-- The moves of an entry that clear bits only. -/
inductive Forward : EntryState → EntryState → Prop
  | write : Forward .empty .written
  | discard : Forward .empty .erased
  | erase : Forward .written .erased

theorem Forward.over {s t : EntryState} (h : s.Forward t) : s.over t = t := by cases h <;> rfl

end EntryState

theorem toNat_and_three (b : UInt8) : (b &&& 3).toNat = b.toNat % 4 := by
  rw [UInt8.toNat_and]
  exact Nat.and_two_pow_sub_one_eq_mod b.toNat 2

/-- A table byte is its four states. -/
theorem byte_ext {a b : UInt8} (h : ∀ k < 4, byteState a k = byteState b k) : a = b := by
  have hbits : ∀ k < 4, a.toNat / 4 ^ k % 4 = b.toNat / 4 ^ k % 4 := by
    intro k hk
    have he := congrArg EntryState.bits (h k hk)
    rw [byteState, byteState, bits_ofBits (and_three_lt _), bits_ofBits (and_three_lt _), ← UInt8.toNat_inj,
      toNat_and_three, toNat_and_three, UInt8.toNat_shiftRight, UInt8.toNat_shiftRight] at he
    interval_cases k <;> simpa [Nat.shiftRight_eq_div_pow] using he
  have h0 := hbits 0 (by decide)
  have h1 := hbits 1 (by decide)
  have h2 := hbits 2 (by decide)
  have h3 := hbits 3 (by decide)
  have ha := a.toNat_lt
  have hb := b.toNat_lt
  rw [← UInt8.toNat_inj]
  omega

/-- A table is the states of its 128 entries. -/
theorem EntryTable.ext_states {t t' : EntryTable} (h : ∀ i < 128, getEntryState t i = getEntryState t' i) : t = t' := by
  apply Vector.ext
  intro x hx
  apply byte_ext
  intro k hk
  have hi := h (4 * x + k) (by omega)
  rwa [getEntryState_eq, getEntryState_eq, show (4 * x + k) / 4 = x by omega, show (4 * x + k) % 4 = k by omega,
    Vector.getElem?_eq_getElem hx, Vector.getElem?_eq_getElem hx, Option.getD_some, Option.getD_some] at hi

/-- The bytes of a table on flash. -/
theorem read_eq_of_tableAt {f : Flash} {p : ℕ} {t : EntryTable} (h : tableAt f p = t) :
    f.read (base p + 32) 32 = t.toList := by
  subst h
  apply List.ext_getElem
  · simp
  intro x hx hx'
  rw [Flash.length_read] at hx
  simp [tableAt, EntryTable.ofBytes, Flash.read]

/-! ### Advancing in place -/

/-- One `setEntryState` that moves an entry forward. -/
def Advance (t t' : EntryTable) : Prop :=
  ∃ i < 128, ∃ s, (getEntryState t i).Forward s ∧ setEntryState t i s = some t'

/-- Programming a table that went forward over the old one leaves its states. -/
theorem Advance.over {t t' : EntryTable} (h : ReflTransGen Advance t t') (j : ℕ) :
    (getEntryState t j).over (getEntryState t' j) = getEntryState t' j := by
  induction h with
  | refl => exact EntryState.over_self _
  | @tail u v _ hstep ih =>
    obtain ⟨i, -, s, hforward, hset⟩ := hstep
    rw [getEntryState_setEntryState hset]
    split_ifs with hj
    · rw [hj] at ih
      rw [hj, ← hforward.over, ← EntryState.over_assoc, ih]
    · exact ih

/-- `setEntryState` changes the entry it names and no other, and a table whose
entries went forward by it is left on flash exactly by programming its words
over the old table. -/
theorem advance_in_place :
    (∀ (t : EntryTable) (i : ℕ), i < 128 → ∀ s, ∃ t', setEntryState t i s = some t' ∧
      ∀ j, getEntryState t' j = if j = i then s else getEntryState t j) ∧
    ∀ (w : NvsWorld) (p : ℕ), p < 8 → ∀ t', ReflTransGen Advance (tableAt w.flash p) t' →
      ∃ w', (writeTableWords (pageAddr p) t' 0 7).run w = (.ok (), w') ∧ w'.flash.read (base p + 32) 32 = t'.toList := by
  constructor
  · intro t i hi s
    obtain ⟨t', ht'⟩ := setEntryState_isSome t hi s
    exact ⟨t', ht', getEntryState_setEntryState ht'⟩
  · intro w p hp t' h
    have hwords : wp (fun _ _ => True) (fun _ w' => w' = { w with flash := tableFlash w.flash p t' 0 8 })
        (fun _ _ => False) (writeTableWords (pageAddr p) t' 0 7) w :=
      wp_writeTableWords hp (Nat.zero_le 7) (fun _ _ _ => trivial) (fun _ => rfl) fun h => absurd h (by decide)
    have hrun := wp_run hwords
    rcases hr : (writeTableWords (pageAddr p) t' 0 7).run w with ⟨e | _, w'⟩
    · rw [hr] at hrun
      exact hrun.elim
    · rw [hr] at hrun
      obtain rfl : w' = _ := hrun
      refine ⟨_, rfl, read_eq_of_tableAt (EntryTable.ext_states fun i hi => ?_)⟩
      have hword : 0 ≤ i / 16 ∧ i / 16 < 0 + 8 := by omega
      have hentry : entryAt (tableFlash w.flash p t' 0 8) p i = (entryAt w.flash p i).over (getEntryState t' i) := by
        rw [entryAt_tableFlash w.flash p t' le_rfl hi, if_pos hword]
      exact hentry.trans (Advance.over h i)

/-- The first entry of a new page is written and then erased. -/
theorem advance_in_place_factory : ∃ t₁ t₂,
    setEntryState (tableAt factory.flash 0) 0 .written = some t₁ ∧ setEntryState t₁ 0 .erased = some t₂ ∧
      ∃ w', (writeTableWords (pageAddr (0 : ℕ)) t₂ 0 7).run factory = (.ok (), w') ∧
        w'.flash.read (base 0 + 32) 32 = t₂.toList := by
  obtain ⟨t₁, h₁, hget⟩ := advance_in_place.1 (tableAt factory.flash 0) 0 (by decide) .written
  obtain ⟨t₂, h₂, -⟩ := advance_in_place.1 t₁ 0 (by decide) .erased
  have hempty : getEntryState (tableAt factory.flash 0) 0 = .empty := by decide
  have hwritten : getEntryState t₁ 0 = .written := hget 0
  have hwrite : Advance (tableAt factory.flash 0) t₁ := ⟨0, by decide, .written, hempty ▸ .write, h₁⟩
  have herase : Advance t₁ t₂ := ⟨0, by decide, .erased, hwritten ▸ .erase, h₂⟩
  exact ⟨t₁, t₂, h₁, h₂, advance_in_place.2 factory 0 (by decide) t₂ ((ReflTransGen.single hwrite).tail herase)⟩

end Esp8266Sdk.Nvs
