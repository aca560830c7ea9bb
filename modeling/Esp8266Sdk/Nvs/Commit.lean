import Esp8266Sdk.Nvs.Run
import Esp8266Sdk.Nvs.WriteSpec

/-! The table words that `writeItem` writes back. A word holds sixteen states,
but the range of words is computed with four to a word: it starts behind the
states of the new entries from entry 4 on, and ends behind the table from entry
32 on. -/

namespace Esp8266Sdk.Nvs

open Nor Prog

/-- The `n` entries from `t` on of page `p` went from empty to written, and no
other entry and no other slot changed. -/
structure Committed (w w' : NvsWorld) (p t n : ℕ) : Prop where
  free : ∀ j, t ≤ j → j < t + n → entryAt w.flash p j = .empty
  table : ∀ j < 128, entryAt w'.flash p j = if t ≤ j ∧ j < t + n then .written else entryAt w.flash p j
  slots : ∀ q < 8, ∀ x, base q + 64 ≤ x → x < base q + 4096 → x < slotAddr p t ∨ slotAddr p t + 32 * n ≤ x →
    w'.flash x = w.flash x

/-- What of the value lies behind the `n` entries of its span, where eight bits
were too few for the span, clears no bit of a slot. -/
def NoSpill (f : Flash) (p t n : ℕ) (rest : List UInt8) : Prop :=
  ∀ q < 8, ∀ x, base q + 64 ≤ x → x < base q + 4096 → slotAddr p t + 32 * n ≤ x →
    x < slotAddr p t + 32 + rest.length → f x &&& rest.getD (x - (slotAddr p t + 32)) 0xff = f x

variable {f : Flash} {p t n m : ℕ} {item : Item} {rest : Option (List UInt8)} {T : EntryTable}

/-- Behind the slot of the item only the rest of the value is programmed. -/
theorem storedFlash_behind (hm : t / 4 + m ≤ 8) {x : ℕ} (hx : slotAddr p t + 32 ≤ x) :
    storedFlash f p t item rest T m x = f.program (slotAddr p t + 32) (rest.getD []) x := by
  rw [storedFlash, tableFlash_outside _ T hm (.inr (by simp only [slotAddr] at hx; omega)), slotsFlash, Flash.program_apply,
    Flash.program_outside (by rw [Item.length_encode]; omega), Flash.program_apply]

theorem storedFlash_before (hm : t / 4 + m ≤ 8) {q x : ℕ} (h1 : base q + 64 ≤ x) (h2 : x < base q + 4096)
    (hx : x < slotAddr p t) : storedFlash f p t item rest T m x = f x := by
  rw [storedFlash, tableFlash_outside _ T hm (by simp only [base] at *; omega), slotsFlash_before hx]

/-- The slots that change are those of the item where nothing is spilled. -/
theorem slots_iff (hn : 1 ≤ n) (hm : t / 4 + m ≤ 8) :
    (∀ q < 8, ∀ x, base q + 64 ≤ x → x < base q + 4096 → x < slotAddr p t ∨ slotAddr p t + 32 * n ≤ x →
      storedFlash f p t item rest T m x = f x) ↔ NoSpill f p t n (rest.getD []) := by
  constructor
  · intro h q hq x h1 h2 h3 h4
    have hx := h q hq x h1 h2 (.inr h3)
    rwa [storedFlash_behind hm (by omega), Flash.program_apply, if_pos ⟨by omega, h4⟩] at hx
  · intro h q hq x h1 h2 hout
    rcases hout with hlt | hge
    · exact storedFlash_before hm h1 h2 hlt
    · rw [storedFlash_behind hm (by omega), Flash.program_apply]
      split_ifs with hin
      · exact h q hq x h1 h2 hge hin.2
      · rfl

/-- The table is right where the word range starts no later than the states do
and ends no earlier. -/
theorem table_iff (hfree : ∀ j, t ≤ j → j < t + n → entryAt f p j = .empty) (hn : 1 ≤ n)
    (hm : t / 4 + m ≤ 8) (hend : (t + n - 1) / 16 < t / 4 + m) (hT : setEntryStates (tableAt f p) t n .written = some T) :
    (∀ j < 128, entryAt (storedFlash f p t item rest T m) p j =
      if t ≤ j ∧ j < t + n then .written else entryAt f p j) ↔ t < 4 := by
  constructor
  · intro h
    by_contra ht
    have hw := h t (by omega)
    rw [entryAt_storedFlash hm hT (by omega), if_neg (by omega), if_pos (by omega), hfree t le_rfl (by omega)] at hw
    cases hw
  · intro ht j hj
    rw [entryAt_storedFlash hm hT hj]
    by_cases hin : t ≤ j ∧ j < t + n
    · rw [if_pos (by omega), if_pos hin, hfree j hin.1 hin.2, EntryState.empty_over]
    · rw [if_neg (by omega), if_neg hin]

variable {w : NvsWorld} {nsIndex datatype chunkIndex : UInt8} {key : List UInt8} {data : Option (List UInt8)}
  {length : UInt32}

/-- `storeItem` returns where the word range ends inside the table, and fails where it does not. -/
theorem wp_storeItem_words (hp : p < 8) (hs : 1 ≤ (itemSpan length).toNat) (ht : t + (itemSpan length).toNat ≤ 126)
    {table : EntryTable} :
    wp (fun _ _ => True)
      (fun r w' => r = espOk ∧ t + (itemSpan length).toNat ≤ 32 ∧
        ∃ T, setEntryStates table t (itemSpan length).toNat .written = some T ∧
          w'.flash = storedFlash w.flash p t (newItem nsIndex datatype key data length chunkIndex) (payload data length) T
            ((t + (itemSpan length).toNat - 1) / 4 + 1 - t / 4))
      (fun e _ => e = .index ∧ 32 < t + (itemSpan length).toNat)
      (storeItem (pageAddr p) table t nsIndex datatype key data length chunkIndex) w :=
  wp_storeItem hp hs ht trivial (fun _ _ => trivial) (fun _ _ _ _ _ => trivial)
    (fun T hT hend => ⟨rfl, by omega, T, hT, rfl⟩) fun _ _ hend => ⟨rfl, by omega⟩

/-- On a page with room `writeItem` is `storeItem`. -/
theorem wp_writeItem_room {Q : EspErr → NvsWorld → Prop} {E : Defect → NvsWorld → Prop} (env : Env) (depth : ℕ)
    (ha : stateAt w.flash (selPage w.flash) = PageState.active.word)
    (hroom : findConsecutiveEntries (tableAt w.flash (selPage w.flash)) (itemSpan length).toNat = some t)
    (h : wp (fun _ _ => True) Q E (storeItem (pageAddr (selPage w.flash)) (tableAt w.flash (selPage w.flash)) t nsIndex
      datatype key data length chunkIndex) w) :
    wp (fun _ _ => True) Q E (writeItem env (depth + 1) nsIndex datatype key data length chunkIndex) w := by
  have hself : selFlash w.flash = w.flash := if_pos ha
  rw [writeItem, wp_writeItemWith, hself, hroom]
  exact ⟨fun hna => absurd ha hna, h⟩

/-- Where a page is active and has room at entry `t`, `writeItem` commits exactly
the entries of the item, with word indices inside the table, if and only if the
item starts among the first four entries and ends among the first 32, and its
value does not reach behind its span. -/
theorem writeItem_committed_iff (env : Env) (depth : ℕ) (ha : ∃ p < 8, stateAt w.flash p = PageState.active.word)
    (hroom : findConsecutiveEntries (tableAt w.flash (selPage w.flash)) (itemSpan length).toNat = some t) :
    (∃ w', (writeItem env (depth + 1) nsIndex datatype key data length chunkIndex).run w = (.ok espOk, w') ∧
        Committed w w' (selPage w.flash) t (itemSpan length).toNat) ↔
      t < 4 ∧ t + (itemSpan length).toNat ≤ 32 ∧
        NoSpill w.flash (selPage w.flash) t (itemSpan length).toNat ((payload data length).getD []) := by
  obtain ⟨q, hq, hqa⟩ := ha
  have ha := (selPage_active_or w.flash).resolve_right fun hno => hno q hq hqa
  obtain ⟨hs, ht⟩ := room_of_some hroom
  have hfree := (findConsecutiveEntries_some hs hroom).1.2
  have hw : wp _ _ _ (writeItem env (depth + 1) nsIndex datatype key data length chunkIndex) w :=
    wp_writeItem_room env depth ha hroom (wp_storeItem_words (selPage_lt w.flash) hs ht)
  constructor
  · rintro ⟨w', hr, hc⟩
    obtain ⟨-, hend, T, hT, hflash⟩ := wp_ok hw hr
    have htable := hc.table
    have hslots := hc.slots
    rw [hflash] at htable hslots
    exact ⟨(table_iff hfree hs (by omega) (by omega) hT).1 htable, hend, (slots_iff hs (by omega)).1 hslots⟩
  · rintro ⟨ht4, hend, hspill⟩
    have hrun := wp_run hw
    rcases hr : (writeItem env (depth + 1) nsIndex datatype key data length chunkIndex).run w with ⟨e | r, w'⟩
    · rw [hr] at hrun
      have := hrun.2
      omega
    · rw [hr] at hrun
      obtain ⟨rfl, -, T, hT, hflash⟩ := hrun
      refine ⟨w', rfl, hfree, ?_, ?_⟩ <;> rw [hflash]
      · exact (table_iff hfree hs (by omega) (by omega) hT).2 ht4
      · exact (slots_iff hs (by omega)).2 hspill

theorem writeItem_committed_iff_factory :
    let w := (((Call.set (.scalar .u8 7#8) 10 keyB).prog (.built []) 1).run factory).2
    (∃ w', (writeItem (.built []) 1 10 ItemType.u8.code keyA.bytes (some [7]) 1 0xff).run w = (.ok espOk, w') ∧
        Committed w w' (selPage w.flash) 1 1) ↔ 1 < 4 ∧ 1 + 1 ≤ 32 ∧ NoSpill w.flash (selPage w.flash) 1 1 [] := by
  intro w
  have h : stateAt w.flash 0 = PageState.active.word ∧
      findConsecutiveEntries (tableAt w.flash (selPage w.flash)) 1 = some 1 := by decide +kernel
  exact writeItem_committed_iff (.built []) 0 ⟨0, by omega, h.1⟩ h.2

/-- Behind a blob of four entries a value is stored at entry 4. Its state is in
table word 0, word 1 is written back. -/
theorem writeItem_not_committed :
    let w := (((Call.set (.blob (some (List.replicate 104 0)) 104) 10 keyB).prog (.built []) 1).run factory).2
    stateAt w.flash 0 = PageState.active.word ∧ findConsecutiveEntries (tableAt w.flash (selPage w.flash)) 1 = some 4 ∧
      ¬ ∃ w', (writeItem (.built []) 1 10 ItemType.u8.code keyA.bytes (some [7]) 1 0xff).run w = (.ok espOk, w') ∧
        Committed w w' (selPage w.flash) 4 1 := by
  intro w
  have h : stateAt w.flash 0 = PageState.active.word ∧
      findConsecutiveEntries (tableAt w.flash (selPage w.flash)) 1 = some 4 ∧
      entryAt ((writeItem (.built []) 1 10 ItemType.u8.code keyA.bytes (some [7]) 1 0xff).run w).2.flash (selPage w.flash) 4 =
        .empty := by decide +kernel
  refine ⟨h.1, h.2.1, ?_⟩
  rintro ⟨w', hr, hc⟩
  have hw := hc.table 4 (by omega)
  rw [hr] at h
  rw [h.2.2] at hw
  cases hw

end Esp8266Sdk.Nvs
