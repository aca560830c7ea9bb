import Esp8266Sdk.Nvs.Layout

/-! The entry table of a page: 32 bytes with a two-bit state for each of 128
entries, of which 126 are used. States are read and changed in a RAM copy, which
is written back to flash in 4-byte words. -/

namespace Esp8266Sdk.Nvs

abbrev EntryTable := Vector UInt8 32

namespace EntryTable

def ofBytes (bs : List UInt8) : EntryTable := .ofFn fun i => bs.getD i 0

/-- The table of a freshly initialised page. -/
def blank : EntryTable := .replicate 32 0xff

end EntryTable

/-- `getEntryState`. Every caller indexes below `entriesPerPage`. -/
def getEntryState (table : EntryTable) (index : ℕ) : EntryState :=
  let byteIdx := index / 4
  let bitShift := UInt8.ofNat (index % 4 * 2)
  .ofBits ((table[byteIdx]?.getD 0 >>> bitShift) &&& 0x3)

/-- `setEntryState`; `none` where the byte index is outside the array. -/
def setEntryState (table : EntryTable) (index : ℕ) (state : EntryState) : Option EntryTable :=
  let byteIdx := index / 4
  let bitShift := UInt8.ofNat (index % 4 * 2)
  if h : byteIdx < 32 then
    some (table.set byteIdx ((table[byteIdx] &&& ~~~(0x3 <<< bitShift)) ||| (state.bits <<< bitShift)))
  else none

/-- The loops `for i in 0..<n: setEntryState(table, index + i, state)`. -/
def setEntryStates (table : EntryTable) (index n : ℕ) (state : EntryState) : Option EntryTable :=
  (List.range n).foldlM (fun table i => setEntryState table (index + i) state) table

/-- The pass over the entries `l` of `findConsecutiveEntries`, `count` free ones just seen. -/
def findConsecutiveFrom (table : EntryTable) (span : ℕ) : List ℕ → ℕ → Option ℕ
  | [], _ => none
  | i :: l, count =>
    if getEntryState table i = .empty then
      if count + 1 = span then some (i + 1 - span) else findConsecutiveFrom table span l (count + 1)
    else findConsecutiveFrom table span l 0

/-- `findConsecutiveEntries`; `none` is the source's `-1`. -/
def findConsecutiveEntries (table : EntryTable) (span : ℕ) : Option ℕ :=
  findConsecutiveFrom table span (List.range entriesPerPage) 0

/-- Word `w` of the table seen as `array[8, uint32]`; `none` where the index is outside. -/
def tableWord (table : EntryTable) (w : ℕ) : Option (List UInt8) :=
  if w < 8 then some ((table.toList.drop (4 * w)).take 4) else none

/-! ### Two-bit states -/

theorem EntryState.ofBits_bits (s : EntryState) : .ofBits s.bits = s := by cases s <;> rfl

/-- What programming state `t` over state `s` leaves. -/
def EntryState.over (s t : EntryState) : EntryState := .ofBits (s.bits &&& t.bits)

@[simp] theorem EntryState.over_self (s : EntryState) : s.over s = s := by cases s <;> rfl

@[simp] theorem EntryState.over_erased (s : EntryState) : s.over .erased = .erased := by cases s <;> rfl

@[simp] theorem EntryState.empty_over (s : EntryState) : EntryState.over .empty s = s := by cases s <;> rfl

theorem bits_ofBits {b : UInt8} (h : b.toNat < 4) : (EntryState.ofBits b).bits = b := by
  have hb : b = 0 ∨ b = 1 ∨ b = 2 ∨ b = 3 := by
    simp only [← UInt8.toNat_inj]
    have : b.toNat = 0 ∨ b.toNat = 1 ∨ b.toNat = 2 ∨ b.toNat = 3 := by omega
    exact this
  rcases hb with rfl | rfl | rfl | rfl <;> rfl

theorem and_three_lt (b : UInt8) : (b &&& 3).toNat < 4 := by
  rw [UInt8.toNat_and]
  exact Nat.and_lt_two_pow (n := 2) _ (by decide)

/-- The state of entry `k` of one table byte. -/
def byteState (b : UInt8) (k : ℕ) : EntryState := .ofBits ((b >>> UInt8.ofNat (k * 2)) &&& 0x3)

/-- One table byte with the state of entry `k` replaced. -/
def putState (b : UInt8) (k : ℕ) (s : EntryState) : UInt8 :=
  (b &&& ~~~(0x3 <<< UInt8.ofNat (k * 2))) ||| (s.bits <<< UInt8.ofNat (k * 2))

theorem or_and_distrib (a b m : UInt8) : (a ||| b) &&& m = (a &&& m) ||| (b &&& m) := by
  simp [← UInt8.toBitVec_inj, BitVec.and_or_distrib_right]

theorem byteState_putState (b : UInt8) {k j : ℕ} (hk : k < 4) (hj : j < 4) (s : EntryState) :
    byteState (putState b k s) j = if j = k then s else byteState b j := by
  have hm : (~~~((0x3 : UInt8) <<< UInt8.ofNat (k * 2)) >>> UInt8.ofNat (j * 2)) &&& 0x3 = if j = k then 0 else 0x3 := by
    interval_cases k <;> interval_cases j <;> rfl
  have hs : ((s.bits <<< UInt8.ofNat (k * 2)) >>> UInt8.ofNat (j * 2)) &&& 0x3 = if j = k then s.bits else 0 := by
    interval_cases k <;> interval_cases j <;> cases s <;> rfl
  rw [byteState, putState, UInt8.shiftRight_or, UInt8.shiftRight_and, or_and_distrib, UInt8.and_assoc, hm, hs]
  split_ifs
  · rw [UInt8.and_zero, UInt8.zero_or, EntryState.ofBits_bits]
  · rw [UInt8.or_zero, byteState]

/-- Programming a table byte programs each of its four states. -/
theorem byteState_and (a b : UInt8) (k : ℕ) : byteState (a &&& b) k = (byteState a k).over (byteState b k) := by
  rw [byteState, byteState, byteState, EntryState.over, bits_ofBits (and_three_lt _), bits_ofBits (and_three_lt _),
    UInt8.shiftRight_and]
  congr 1
  rw [UInt8.and_assoc, UInt8.and_assoc]
  congr 1
  rw [UInt8.and_comm 3, UInt8.and_assoc, UInt8.and_self]

theorem byteState_ff (k : ℕ) (hk : k < 4) : byteState 0xff k = .empty := by
  interval_cases k <;> rfl

/-! ### The table -/

theorem getEntryState_eq (table : EntryTable) (i : ℕ) :
    getEntryState table i = byteState (table[i / 4]?.getD 0) (i % 4) := rfl

theorem getEntryState_ofBytes (bs : List UInt8) {i : ℕ} (hi : i < 128) :
    getEntryState (.ofBytes bs) i = byteState (bs.getD (i / 4) 0) (i % 4) := by
  rw [getEntryState_eq, EntryTable.ofBytes, Vector.getElem?_ofFn, dif_pos (by omega), Option.getD_some]

theorem getEntryState_blank {i : ℕ} (hi : i < 128) : getEntryState .blank i = .empty := by
  have h : i / 4 < 32 := by omega
  rw [getEntryState_eq, EntryTable.blank, Vector.getElem?_replicate, if_pos h, Option.getD_some]
  exact byteState_ff _ (by omega)

/-- `setEntryState` changes the entry it names and no other. -/
theorem getEntryState_setEntryState {table table' : EntryTable} {i : ℕ} {s : EntryState}
    (h : setEntryState table i s = some table') (j : ℕ) :
    getEntryState table' j = if j = i then s else getEntryState table j := by
  simp only [setEntryState] at h
  split at h
  · rename_i hi
    cases h
    by_cases hij : i / 4 = j / 4
    · have hp := byteState_putState table[i / 4] (k := i % 4) (j := j % 4) (by omega) (by omega) s
      have he : j % 4 = i % 4 ↔ j = i := by omega
      rw [getEntryState_eq, getEntryState_eq, ← hij, Vector.getElem?_set_self hi, Option.getD_some,
        Vector.getElem?_eq_getElem hi, Option.getD_some]
      simpa only [he, putState] using hp
    · have hne : j ≠ i := fun e => hij (by rw [e])
      rw [getEntryState_eq, getEntryState_eq, Vector.getElem?_set_ne hi hij, if_neg hne]
  · cases h

theorem setEntryState_isSome (table : EntryTable) {i : ℕ} (hi : i < 128) (s : EntryState) :
    ∃ table', setEntryState table i s = some table' := by
  simp only [setEntryState, dif_pos (show i / 4 < 32 by omega)]
  exact ⟨_, rfl⟩

theorem setEntryStates_succ (table : EntryTable) (i n : ℕ) (s : EntryState) :
    setEntryStates table i (n + 1) s = (setEntryStates table i n s).bind fun t => setEntryState t (i + n) s := by
  simp [setEntryStates, List.range_succ, List.foldlM_append]

/-- The loop sets the `n` entries from `i` on. -/
theorem getEntryState_setEntryStates {table table' : EntryTable} {i n : ℕ} {s : EntryState}
    (h : setEntryStates table i n s = some table') (j : ℕ) :
    getEntryState table' j = if i ≤ j ∧ j < i + n then s else getEntryState table j := by
  induction n generalizing table' with
  | zero =>
    cases h
    rw [if_neg (by omega)]
  | succ n ih =>
    rw [setEntryStates_succ, Option.bind_eq_some_iff] at h
    obtain ⟨t, ht, hs⟩ := h
    rw [getEntryState_setEntryState hs, ih ht]
    split_ifs <;> first | rfl | omega

theorem setEntryStates_isSome (table : EntryTable) {i n : ℕ} (h : i + n ≤ 128) (s : EntryState) :
    ∃ table', setEntryStates table i n s = some table' := by
  induction n with
  | zero => exact ⟨table, rfl⟩
  | succ n ih =>
    obtain ⟨t, ht⟩ := ih (by omega)
    obtain ⟨t', ht'⟩ := setEntryState_isSome t (i := i + n) (by omega) s
    exact ⟨t', by rw [setEntryStates_succ, ht, Option.bind_some, ht']⟩

theorem tableWord_of_lt (table : EntryTable) {w : ℕ} (hw : w < 8) :
    tableWord table w = some ((table.toList.drop (4 * w)).take 4) := if_pos hw

/-- Byte `k` of table word `w`. -/
theorem getD_tableWord (table : EntryTable) {w k : ℕ} (hk : k < 4) (d : UInt8) (hw : w < 8) :
    ((table.toList.drop (4 * w)).take 4).getD k d = table[4 * w + k]?.getD 0 := by
  have h : 4 * w + k < 32 := by omega
  rw [List.getD_eq_getElem?_getD, List.getElem?_take_of_lt hk, List.getElem?_drop, Vector.getElem?_toList,
    Vector.getElem?_eq_getElem h, Option.getD_some, Option.getD_some]

/-! ### Free runs -/

/-- The entries from `t` on hold a free run of `span`. -/
def FreeRun (table : EntryTable) (span t : ℕ) : Prop :=
  t + span ≤ entriesPerPage ∧ ∀ j, t ≤ j → j < t + span → getEntryState table j = .empty

theorem findConsecutiveFrom_eq {table : EntryTable} {span : ℕ} (hs : 0 < span) :
    ∀ {n i count : ℕ}, i + n = entriesPerPage → count ≤ i → count < span →
      (∀ j, i - count ≤ j → j < i → getEntryState table j = .empty) →
      (count < i → getEntryState table (i - count - 1) ≠ .empty) →
      (∀ t, t + span ≤ i → ¬ FreeRun table span t) →
      match findConsecutiveFrom table span (List.range' i n) count with
        | some t => FreeRun table span t ∧ ∀ t' < t, ¬ FreeRun table span t'
        | none => ∀ t, ¬ FreeRun table span t
  | 0, i, count, hn, hc, hcs, hempty, hstop, hno => by
    intro t ht
    exact hno t (by have := ht.1; omega) ht
  | n + 1, i, count, hn, hc, hcs, hempty, hstop, hno => by
    rw [List.range'_succ, findConsecutiveFrom]
    by_cases he : getEntryState table i = .empty
    · rw [if_pos he]
      by_cases hspan : count + 1 = span
      · rw [if_pos hspan]
        refine ⟨⟨by omega, fun j h1 h2 => ?_⟩, fun t' ht' => hno t' (by omega)⟩
        rcases Nat.lt_or_ge j i with hj | hj
        · exact hempty j (by omega) hj
        · rwa [show j = i by omega]
      · rw [if_neg hspan]
        refine findConsecutiveFrom_eq hs (by omega) (by omega) (by omega) (fun j h1 h2 => ?_) (fun h => ?_) fun t ht hf => ?_
        · rcases Nat.lt_or_ge j i with hj | hj
          · exact hempty j (by omega) hj
          · rwa [show j = i by omega]
        · rw [show i + 1 - (count + 1) - 1 = i - count - 1 by omega]
          exact hstop (by omega)
        · rcases Nat.lt_or_ge (t + span) (i + 1) with h | h
          · exact hno t (by omega) hf
          · exact hstop (by omega) (hf.2 _ (by omega) (by omega))
    · rw [if_neg he]
      refine findConsecutiveFrom_eq hs (by omega) (by omega) hs (fun j h1 h2 => by omega) (fun h => ?_) fun t ht hf => ?_
      · rwa [show i + 1 - 0 - 1 = i by omega]
      · rcases Nat.lt_or_ge (t + span) (i + 1) with h | h
        · exact hno t (by omega) hf
        · exact he (hf.2 _ (by omega) (by omega))

/-- A free run found is the first one. -/
theorem findConsecutiveEntries_some {table : EntryTable} {span t : ℕ} (hs : 0 < span)
    (h : findConsecutiveEntries table span = some t) : FreeRun table span t ∧ ∀ t' < t, ¬ FreeRun table span t' := by
  have := @findConsecutiveFrom_eq table span hs entriesPerPage 0 0 rfl le_rfl hs (by omega) (by omega) fun t ht => by omega
  rw [← List.range_eq_range', show findConsecutiveFrom table span (List.range entriesPerPage) 0 = some t from h] at this
  exact this

theorem findConsecutiveEntries_none {table : EntryTable} {span : ℕ} (hs : 0 < span)
    (h : findConsecutiveEntries table span = none) (t : ℕ) : ¬ FreeRun table span t := by
  have := @findConsecutiveFrom_eq table span hs entriesPerPage 0 0 rfl le_rfl hs (by omega) (by omega) fun t ht => by omega
  rw [← List.range_eq_range', show findConsecutiveFrom table span (List.range entriesPerPage) 0 = none from h] at this
  exact this t

theorem findConsecutiveFrom_zero (table : EntryTable) : ∀ (l : List ℕ) (count : ℕ), findConsecutiveFrom table 0 l count = none
  | [], _ => rfl
  | i :: l, count => by
    rw [findConsecutiveFrom, findConsecutiveFrom_zero table l, findConsecutiveFrom_zero table l,
      if_neg (Nat.succ_ne_zero count), ite_self]

/-- A span of zero, the wrapped span of an over-long value, never finds room. -/
theorem findConsecutiveEntries_zero (table : EntryTable) : findConsecutiveEntries table 0 = none :=
  findConsecutiveFrom_zero table _ _

end Esp8266Sdk.Nvs
