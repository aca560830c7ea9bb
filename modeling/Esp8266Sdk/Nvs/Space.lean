import Mathlib.Algebra.BigOperators.Group.Finset.Basic
import Esp8266Sdk.Nvs.EraseExact
import Esp8266Sdk.Nvs.Filling

/-! When a set finds room. The states of the first 32 entries of a page are all
that is kept, so a value has room where enough of these in a row are empty, or
where the next page can be taken and the value fits behind what is moved there. -/

namespace Esp8266Sdk.Nvs

open Nor Prog

/-! ### The condition -/

section

variable (f : Flash) (nsIndex datatype : UInt8) (key : List UInt8)

/-- The state of entry `j` of page `p` once the items of the key and type are erased. -/
def leftAt (p j : ℕ) : EntryState := if Swept f nsIndex datatype key p j then .erased else entryAt f p j

/-- The `n` entries of page `p` from entry `t` on are then empty. -/
def Gap (p n t : ℕ) : Prop := ∀ j, t ≤ j → j < t + n → leftAt f nsIndex datatype key p j = .empty

/-- The spans of the entries of page `p` before entry `n` that are then written. -/
def leftSpan (p n : ℕ) : ℕ := ∑ i ∈ Finset.range n, if leftAt f nsIndex datatype key p i = .written then spanAt f p i else 0

/-- Page `q` can be taken: it is unused, or clean, or what is moved from it
leaves `n` of 32 entries. -/
inductive Takeable (q n : ℕ) : Prop
  | unused (h : stateAt f q = PageState.uninitialized.word)
  | clean (h : (headerAt f q).dirty = 0xffffffff) (hno : ¬ HasHit f nsIndex datatype key q)
  | moved (hpos : ∀ i < 126, leftAt f nsIndex datatype key q i = .written → 1 ≤ spanAt f q i)
      (hsum : leftSpan f nsIndex datatype key q 126 + n ≤ 32)

/-- A value of `n` entries finds room: no page is active, so that a fresh one is
chosen; or the active page has a gap among its first 32 entries; or it has none
at all, and the next page can be taken. -/
inductive RoomLeft (n : ℕ) : Prop
  | fresh (h : ∀ p < 8, stateAt f p ≠ PageState.active.word)
  | gap {p t : ℕ} (hp : p < 8) (h : stateAt f p = PageState.active.word) (ht : t + n ≤ 32)
      (hgap : Gap f nsIndex datatype key p n t)
  | turn {p : ℕ} (hp : p < 8) (h : stateAt f p = PageState.active.word)
      (hfull : ∀ t, t + n ≤ 126 → ¬ Gap f nsIndex datatype key p n t) (hnext : Takeable f nsIndex datatype key (nextPage p) n)

end

/-- Values have at most 4000 bytes. The items a set replaces lie inside their
pages, and the new one takes 32 entries at most and finds room for them. -/
def Spacious (f : Flash) (c : Call) : Prop :=
  c.valueSize ≤ 4000 ∧ match c with
    | .set s handle key => HitsFit f (nsIndexOf handle) s.itemType.code key.bytes ∧ (itemSpan s.length).toNat ≤ 32 ∧
        RoomLeft f (nsIndexOf handle) s.itemType.code key.bytes (itemSpan s.length).toNat
    | _ => True

variable {f g : Flash} {w : NvsWorld} {nsIndex datatype chunkIndex : UInt8} {key : List UInt8} {data : Option (List UInt8)}
  {length : UInt32} {p t n : ℕ}

/-! ### After the erasure -/

section

variable (h : SweptPage f g nsIndex datatype key p)
include h

theorem SweptPage.state : stateAt g p = stateAt f p := by
  apply stateAt_congr
  intro x h1 h2
  by_contra hne
  have := (h.header x h1 (by omega) hne).1
  omega

theorem SweptPage.span {i : ℕ} (hi : i < 126) : spanAt g p i = spanAt f p i := by
  rw [spanAt, itemAt_slots hi h.slot, spanAt]

theorem SweptPage.headerAt (hno : ¬ HasHit f nsIndex datatype key p) : headerAt g p = Nvs.headerAt f p := by
  apply headerAt_congr
  intro x h1 h2
  by_contra hne
  exact hno (h.header x h1 h2 hne).2

theorem SweptPage.writtenSpan (hn : n ≤ 126) : writtenSpan g p n = leftSpan f nsIndex datatype key p n := by
  induction n with
  | zero => rfl
  | succ n ih => rw [Nvs.writtenSpan, ih (by omega), leftSpan, leftSpan, Finset.sum_range_succ, h.entry n (by omega),
      h.span (by omega), leftAt]

/-- Gaps are what is looked for in the table. -/
theorem SweptPage.freeRun (hn : t + n ≤ 126) : FreeRun (tableAt g p) n t ↔ Gap f nsIndex datatype key p n t := by
  refine ⟨fun hr j h1 h2 => ?_, fun hgap => ⟨hn, fun j h1 h2 => ?_⟩⟩
  · rw [leftAt, ← h.entry j (by omega)]
    exact hr.2 j h1 h2
  · exact (h.entry j (by omega)).trans (hgap j h1 h2)

end

/-! ### Writing -/

theorem wp_storeItem_kept (hp : p < 8) {table : EntryTable} (hs : 1 ≤ (itemSpan length).toNat)
    (ht : t + (itemSpan length).toNat ≤ 32) :
    wp (fun _ _ => True) (fun err _ => err = espOk) (fun _ _ => False)
      (storeItem (pageAddr p) table t nsIndex datatype key data length chunkIndex) w :=
  wp_storeItem hp hs (by omega) trivial (fun _ _ => trivial) (fun _ _ _ _ _ => trivial) (fun _ _ _ => rfl)
    fun _ _ h => by omega

/-- The second try of `writeItem`, on the page it turned to. -/
theorem wp_secondTry (hp : p < 8) {m : ℕ} (hempty : ∀ j, m ≤ j → j < 126 → entryAt w.flash p j = .empty)
    (hs : 1 ≤ (itemSpan length).toNat) (hm : m + (itemSpan length).toNat ≤ 32) :
    wp (fun _ _ => True) (fun table w' => wp (fun _ _ => True) (fun err _ => err = espOk) (fun _ _ => False)
      (match findConsecutiveEntries table (itemSpan length).toNat with
        | some t => storeItem (pageAddr p) table t nsIndex datatype key data length chunkIndex
        | none => return espErrNvsNoFreePages) w') (fun _ _ => False) (readTable (pageAddr p)) w := by
  obtain ⟨t, htm, ht⟩ := room_le hempty hs (by omega)
  rw [reads_readTable hp, ht]
  exact wp_storeItem_kept hp hs (by omega)

/-- A compaction whose items fit the first `m` of 32 entries returns. -/
theorem wp_compactPage_filling (env : Env) (depth : ℕ) {src dest m : ℕ} (hsrc : src < 8) (hdest : dest < 8)
    (hne : src ≠ dest) (nextSeq : UInt32) (hn : NoActive w.flash) (hm : m ≤ 32)
    (hs : (headerAt w.flash src).dirty = 0xffffffff ∨ (∀ i < 126, entryAt w.flash src i = .written →
      1 ≤ spanAt w.flash src i) ∧ writtenSpan w.flash src 126 ≤ m) :
    wp (fun _ _ => True) (fun _ w' => Filling w'.flash dest m) (fun _ _ => False)
      (compactPage env (depth + 1) src dest nextSeq) w := by
  have hfill := filling_initFlash hn dest nextSeq
  rw [compactPage]
  -- the entries before `i` are moved
  refine wp_compactPageWith hsrc hdest nextSeq trivial (fun _ _ _ => trivial) (fun _ => hfill.mono (Nat.zero_le m))
    (I := fun i w' => Filling w'.flash dest (writtenSpan w.flash src i) ∧ writtenSpan w.flash src 126 ≤ m ∧
      ∀ x, base src ≤ x → x < base src + 4096 → w'.flash x = w.flash x)
    (fun hdirty => ⟨hfill, (hs.resolve_left hdirty).2, fun x h1 h2 => initFlash_otherPage _ _ hne h1 h2⟩)
    (fun hdirty i hi w' h => ?_) fun _ h => h.1.mono h.2.1
  obtain ⟨hpos, hsum⟩ := hs.resolve_left hdirty
  by_cases hw : entryAt w.flash src i = .written
  · have hspan := hpos i hi hw
    have hmono := writtenSpan_mono w.flash src (m := i + 1) (n := 126) (by omega)
    rw [writtenSpan_succ hw] at hmono ⊢
    refine wp_mono (wp_moveEntry_filling env (depth + 1) hsrc hdest hne hi hw (by omega) h.1 h.2.2) (fun _ _ _ => trivial)
      (fun _ _ h' => ⟨h'.1 _ (by omega) (.inl le_rfl), hsum, h'.2⟩) fun e _ hf => ?_
    cases hf <;> omega
  · rw [moveEntry_skip env _ hw, Nvs.writtenSpan, if_neg hw]
    exact h

theorem Filling.activePage {m : ℕ} (h : Filling f p m) (hp : p < 8) : (activePage f).1 = p := by
  rcases activePage_cases f with ⟨q, hq, he, ha⟩ | ⟨hno, -⟩ | ⟨hno, -⟩
  · rw [he, h.one q hq p hp ha h.active]
  · exact absurd h.active (hno p hp)
  · exact absurd h.active (hno p hp)

/-- What a page that is in use and can be taken leaves of 32 entries. -/
theorem Takeable.room (h : Takeable f nsIndex datatype key p n) (hs : SweptPage f g nsIndex datatype key p)
    (hu : stateAt f p ≠ PageState.uninitialized.word) (hn : n ≤ 32) :
    ∃ m, m + n ≤ 32 ∧ ((headerAt g p).dirty = 0xffffffff ∨
      (∀ i < 126, entryAt g p i = .written → 1 ≤ spanAt g p i) ∧ writtenSpan g p 126 ≤ m) := by
  cases h with
  | unused h => exact absurd h hu
  | clean h hno => exact ⟨0, by omega, .inl (by rw [hs.headerAt hno, h])⟩
  | moved hpos hsum =>
    refine ⟨_, hsum, .inr ⟨fun i hi hw => ?_, (hs.writtenSpan le_rfl).le⟩⟩
    rw [hs.span hi]
    exact hpos i hi ((hs.entry i (by omega)).symm.trans hw)

/-- Where the next page can be taken, a write that turns to it stores its value. -/
theorem wp_switchPage_kept (env : Env) (depth : ℕ) (hp : p < 8) (hm : AtMostOneActive w.flash)
    (hact : stateAt w.flash p = PageState.active.word) (maxSeq : UInt32) (hs : 1 ≤ (itemSpan length).toNat)
    (hn : (itemSpan length).toNat ≤ 32) (hnext : stateAt w.flash (nextPage p) ≠ PageState.uninitialized.word →
      ∃ m, m + (itemSpan length).toNat ≤ 32 ∧ ((headerAt w.flash (nextPage p)).dirty = 0xffffffff ∨
        (∀ i < 126, entryAt w.flash (nextPage p) i = .written → 1 ≤ spanAt w.flash (nextPage p) i) ∧
          writtenSpan w.flash (nextPage p) 126 ≤ m)) :
    wp (fun _ _ => True) (fun (q : ℤ) w => wp (fun _ _ => True) (fun table w =>
      wp (fun _ _ => True) (fun err _ => err = espOk) (fun _ _ => False)
        (match findConsecutiveEntries table (itemSpan length).toNat with
          | some t => storeItem (pageAddr q) table t nsIndex datatype key data length chunkIndex
          | none => return espErrNvsNoFreePages) w) (fun _ _ => False) (readTable (pageAddr q)) w) (fun _ _ => False)
      (switchPage (compactPageWith env (writeItem env (depth + 1))) p maxSeq) w := by
  have hfull : NoActive (fullFlash w.flash p) := hm.markFull hp hact
  rw [wp_switchPage _ hp]
  refine ⟨trivial, ?_⟩
  split_ifs with hu
  · have hfill := filling_initFlash hfull (nextPage p) (maxSeq + 1)
    exact ⟨trivial, trivial, trivial, wp_secondTry (nextPage_lt p) hfill.empty hs (by omega)⟩
  · -- marking page `p` full leaves the next page as it is
    obtain ⟨m, hmn, hsrc⟩ := hnext hu
    have hsame : ∀ x, base (nextPage p) ≤ x → x < base (nextPage p) + 4096 → w.flash x = fullFlash w.flash p x :=
      fun x h1 h2 => (fullFlash_otherPage _ nextPage_ne h1 h2).symm
    have hspan : ∀ i < 126, spanAt (fullFlash w.flash p) (nextPage p) i = spanAt w.flash (nextPage p) i := fun i hi =>
      (spanAt_page hsame hi).symm
    refine wp_post (wp_compactPage_filling env depth (w := ⟨fullFlash w.flash p, w.ram⟩) (nextPage_lt p) (nextPage_lt _)
      nextPage_ne.symm (maxSeq + 1) hfull (m := m) (by omega) ?_) fun _ w' hfill => ?_
    · rw [← headerAt_page hsame, ← writtenSpan_page hsame le_rfl]
      refine hsrc.imp_right fun hsrc => ⟨fun i hi hw => ?_, hsrc.2⟩
      rw [hspan i hi]
      exact hsrc.1 i hi ((entryAt_page (by omega) hsame).trans hw)
    · rw [hfill.activePage (nextPage_lt _)]
      exact wp_secondTry (nextPage_lt _) hfill.empty hs hmn

/-- Where a value finds room, it is written. -/
theorem wp_writeItem_left (env : Env) (depth : ℕ) {keyIndex keyType : UInt8} {name : List UInt8} (hm : AtMostOneActive f)
    (hswept : ∀ p < 8, SweptPage f w.flash keyIndex keyType name p) (hs : 1 ≤ (itemSpan length).toNat)
    (hn : (itemSpan length).toNat ≤ 32) (hroom : RoomLeft f keyIndex keyType name (itemSpan length).toNat) :
    wp (fun _ _ => True) (fun err _ => err = espOk) (fun _ _ => False)
      (writeItem env (depth + 2) nsIndex datatype key data length chunkIndex) w := by
  have hstate : ∀ p < 8, stateAt w.flash p = stateAt f p := fun p hp => (hswept p hp).state
  have hmw := hm.congr hstate
  rw [writeItem, wp_writeItemWith]
  refine ⟨fun _ => ⟨trivial, trivial, trivial⟩, ?_⟩
  cases hroom with
  | fresh h =>
    have hp := selPage_lt w.flash
    have hno : stateAt w.flash (selPage w.flash) ≠ PageState.active.word := by
      rw [hstate _ hp]
      exact h _ hp
    have hfill := filling_initFlash (fun q hq => by rw [hstate q hq]; exact h q hq) (selPage w.flash)
      ((activePage w.flash).2 + 1)
    rw [selFlash, if_neg hno]
    obtain ⟨t, ht, hfind⟩ := room_le hfill.empty hs (by omega)
    rw [hfind]
    exact wp_storeItem_kept hp hs (by omega)
  | @gap p t hp h ht hgap =>
    rw [← hstate p hp] at h
    have hrun := ((hswept p hp).freeRun (by omega)).2 hgap
    rw [selFlash, selPage_of_active hmw hp h, if_pos h]
    cases hfind : findConsecutiveEntries (tableAt w.flash p) (itemSpan length).toNat with
    | none => exact absurd hrun (findConsecutiveEntries_none hs hfind t)
    | some t' =>
      have hle : t' ≤ t := Nat.le_of_not_lt fun hlt => (findConsecutiveEntries_some hs hfind).2 t hlt hrun
      exact wp_storeItem_kept hp hs (by omega)
  | @turn p hp h hfull hnext =>
    rw [← hstate p hp] at h
    rw [selFlash, selPage_of_active hmw hp h, if_pos h]
    cases hfind : findConsecutiveEntries (tableAt w.flash p) (itemSpan length).toNat with
    | some t =>
      have hrun := (findConsecutiveEntries_some hs hfind).1
      exact absurd (((hswept p hp).freeRun hrun.1).1 hrun) (hfull t hrun.1)
    | none =>
      refine wp_switchPage_kept env depth hp hmw h _ hs hn fun hu => ?_
      rw [hstate _ (nextPage_lt p)] at hu
      exact hnext.room (hswept _ (nextPage_lt p)) hu hn

/-! ### Runs -/

theorem itemSpan_pos {s : Setter} {handle : UInt32} {key : CString} (h : (Call.set s handle key).valueSize ≤ 4000) :
    1 ≤ (itemSpan s.length).toNat := by
  have hle := Setter.length_le h
  rcases Nat.lt_or_ge 8 s.length.toNat with h8 | h8
  · rw [itemSpan_toNat h8 (by omega)]
    omega
  · rw [itemSpan_small h8]
    rfl

/-- In every run with power cuts anywhere whose sets find room among the entries
whose states are kept, every set returns `ESP_OK`. -/
theorem set_finds_room {env : Env} (hw : Reach env (fun w c => Spacious w.flash c) anyCut w) {s : Setter} {handle : UInt32}
    {key : CString} (hc : Spacious w.flash (.set s handle key)) (depth : ℕ) :
    (((Call.set s handle key).prog env (depth + 2)).run w).1 = .ok (.code espOk) := by
  have hm := hw.atMostOneActive fun _ _ h => Call.fits_of_valueSize h.1
  obtain ⟨hsize, hinside, hspan, hroom⟩ := hc
  apply run_fst_eq
  rw [Call.prog, Setter.prog_eq, nvsSetValue, wp_bind]
  refine wp_mono (wp_eraseOldItem_swept hinside) (fun _ _ _ => trivial) (fun _ w' h => ?_) fun _ _ h => h.elim
  rw [wp_bind]
  refine wp_mono (wp_writeItem_left env depth hm h.pages (itemSpan_pos hsize) hspan hroom) (fun _ _ _ => trivial)
    (fun err w'' h => ?_) fun _ _ h => h.elim
  rw [h]
  rfl

theorem set_finds_room_factory :
    (((Call.set (.scalar .u8 7#8) 10 keyA).prog (.built []) 2).run factory).1 = .ok (.code espOk) :=
  set_finds_room reach_factory ⟨by decide, by decide +kernel, by decide, .fresh (by decide +kernel)⟩ 0

/-- A blob of 17 entries is stored from entry 0 on. Set again it goes to entry 17,
and the states of its last two entries lie behind the words kept. -/
theorem overwrite_fails :
    let blob : ℕ × Call := (2, .set (.blob (some (List.replicate 500 7)) 500) 10 keyA)
    (calls (.built []) [blob, blob] factory).1 = [.ok (.code espOk), .error .index] := by
  decide +kernel

end Esp8266Sdk.Nvs
