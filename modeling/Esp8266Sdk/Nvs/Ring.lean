import Esp8266Sdk.Nvs.Filling
import Esp8266Sdk.Nvs.EraseSpec

/-! Values longer than a page. No page has room for one: each set of such a value
marks the active page full and turns to the next one, and stores nothing. -/

namespace Esp8266Sdk.Nvs

open Nor Prog

variable {w : NvsWorld} {f g : Flash} {a b : ℕ}

/-- From the active page `a` of `f` on, the pages before page `b` were marked
full one after the other, and page `b` is fresh. -/
structure Turned (f g : Flash) (a b : ℕ) : Prop where
  le : a ≤ b
  active : stateAt g b = PageState.active.word
  full : ∀ q, a ≤ q → q < b → stateAt g q = PageState.full.word
  blank : ∀ q, a < q → q ≤ b → tableAt g q = .blank
  kept : ∀ q, q ≤ a ∨ b < q → ∀ x, base q + 4 ≤ x → x < base q + 4096 → g x = f x
  state : ∀ q, q < a ∨ b < q → stateAt g q = stateAt f q

instance (f : Flash) : Decidable (AtMostOneActive f) := inferInstanceAs (Decidable (∀ _ < _, ∀ _ < _, _))

namespace Turned

theorem refl (h : stateAt f a = PageState.active.word) : Turned f f a a where
  le := le_rfl
  active := h
  full := fun q h1 h2 => by omega
  blank := fun q h1 h2 => by omega
  kept := fun _ _ _ _ _ => rfl
  state := fun _ _ => rfl

theorem next (h : Turned f g a b) (seqNumber : UInt32) : Turned f (initFlash (fullFlash g b) (b + 1) seqNumber) a (b + 1) where
  le := h.le.trans (Nat.le_add_right b 1)
  active := stateAt_initFlash _ _ _
  full := by
    intro q h1 h2
    rw [stateAt_initFlash_other _ _ (by omega)]
    by_cases hqb : q = b
    · rw [hqb]
      exact stateAt_markFull h.active
    · rw [stateAt_fullFlash_other _ hqb]
      exact h.full q h1 (by omega)
  blank := by
    intro q h1 h2
    by_cases hqb : q = b + 1
    · rw [hqb]
      exact tableAt_initFlash _ _ _
    · rw [← h.blank q h1 (by omega)]
      refine tableAt_congr fun x hx hx' => ?_
      rw [initFlash_otherPage _ _ hqb (by omega) (by omega), fullFlash, Flash.program_outside]
      simp only [length_le32, base] at *
      omega
  kept := by
    intro q hq x h1 h2
    have hab := h.le
    rw [initFlash_otherPage _ _ (by omega) (by omega) h2, fullFlash, Flash.program_outside, h.kept q (by omega) x h1 h2]
    simp only [length_le32, base] at *
    omega
  state := by
    intro q hq
    have hab := h.le
    rw [stateAt_initFlash_other _ _ (by omega), stateAt_fullFlash_other _ (by omega), h.state q (by omega)]

variable (h : Turned f g a b)
include h

theorem entryAt {q i : ℕ} (hq : q ≤ a ∨ b < q) (hi : i < 126) : entryAt g q i = Nvs.entryAt f q i := by
  rw [entryAt_eq _ q (by omega), entryAt_eq _ q (by omega), h.kept q hq _ (by omega) (by omega)]

theorem itemAt {q i : ℕ} (hq : q ≤ a ∨ b < q) (hi : i < 126) : itemAt g q i = Nvs.itemAt f q i :=
  itemAt_slots hi fun x h1 h2 => h.kept q hq x (by omega) h2

theorem dirty {q : ℕ} (hq : q ≤ a ∨ b < q) : (headerAt g q).dirty = (headerAt f q).dirty := by
  have hb : ∀ j, 4 ≤ j → j < 32 → (g.read (base q) 32).getD j 0 = (f.read (base q) 32).getD j 0 := fun j h1 h2 => by
    rw [Flash.getD_read, Flash.getD_read, if_pos h2, if_pos h2, h.kept q hq _ (by omega) (by omega)]
  simp only [headerAt, PageHeader.decode, word32, hb _ (show 4 ≤ 9 by omega) (by omega), hb _ (show 4 ≤ 9 + 1 by omega) (by omega),
    hb _ (show 4 ≤ 9 + 2 by omega) (by omega), hb _ (show 4 ≤ 9 + 3 by omega) (by omega)]

/-- One page is active. -/
theorem atMostOne (hm : AtMostOneActive f) (ha : a < 8) (hact : stateAt f a = PageState.active.word) : AtMostOneActive g := by
  have hab := h.le
  have hfull : PageState.full.word ≠ PageState.active.word := by decide
  have honly : ∀ q < 8, stateAt g q = PageState.active.word → q = b := by
    intro q hq hqa
    by_contra hqb
    rcases Nat.lt_or_ge q a with hlt | hge
    · rw [h.state q (.inl hlt)] at hqa
      have := hm q hq a ha hqa hact
      omega
    · rcases Nat.lt_or_ge q b with hlt | hgt
      · rw [h.full q hge hlt] at hqa
        exact hfull hqa
      · rw [h.state q (by omega)] at hqa
        have := hm q hq a ha hqa hact
        omega
  intro p hp q hq hpa hqa
  rw [honly p hp hpa, honly q hq hqa]

theorem noHit {nsIndex datatype : UInt8} {key : List UInt8} (hno : NoHit f nsIndex datatype key) :
    NoHit g nsIndex datatype key := by
  intro q hq i hi hw hhit
  by_cases hout : q ≤ a ∨ b < q
  · rw [h.entryAt hout hi] at hw
    rw [Hit, h.itemAt hout hi] at hhit
    exact hno q hq i hi hw hhit
  · rw [Nvs.entryAt, h.blank q (by omega) (by omega), getEntryState_blank (by omega)] at hw
    cases hw

end Turned

/-! ### Sets -/

theorem noRoom_of_overlong {span : ℕ} (h : 126 < span) (table : EntryTable) : findConsecutiveEntries table span = none := by
  cases ht : findConsecutiveEntries table span with
  | none => rfl
  | some t =>
    have := room_of_some ht
    omega

/-- The set of a value longer than a page. -/
theorem run_set_overlong (env : Env) {s : Setter} {handle : UInt32} {key : CString} (hlong : 126 < (itemSpan s.length).toNat)
    (hno : NoHit w.flash (nsIndexOf handle) s.itemType.code key.bytes) (hm : AtMostOneActive w.flash) (hb : b + 1 < 8)
    (hact : stateAt w.flash b = PageState.active.word) (hu : stateAt w.flash (b + 1) = PageState.uninitialized.word)
    (depth : ℕ) : ((Call.set s handle key).prog env (depth + 1)).run w = (.ok (.code espErrNvsNoFreePages),
      ⟨initFlash (fullFlash w.flash b) (b + 1) ((activePage w.flash).2 + 1), w.ram⟩) := by
  have hnext : nextPage b = b + 1 := Nat.mod_eq_of_lt hb
  have hsel := selPage_of_active hm (by omega) hact
  have hself : selFlash w.flash = w.flash := by rw [selFlash, hsel, if_pos hact]
  have hwp : wp (fun _ _ => True) (fun r w' => r = .code espErrNvsNoFreePages ∧
      w' = ⟨initFlash (fullFlash w.flash b) (b + 1) ((activePage w.flash).2 + 1), w.ram⟩) (fun _ _ => False)
      ((Call.set s handle key).prog env (depth + 1)) w := by
    rw [Call.prog, Setter.prog_eq, nvsSetValue, wp_bind]
    apply wp_eraseOldItem_noHit hno
    rw [wp_bind, writeItem, wp_writeItemWith, hsel, hself, noRoom_of_overlong hlong]
    refine ⟨fun hna => absurd hact hna, ?_⟩
    simp only
    rw [wp_switchPage _ (by omega), hnext, if_pos hu]
    refine ⟨trivial, trivial, trivial, trivial, ?_⟩
    rw [reads_readTable (by omega), noRoom_of_overlong hlong]
    exact ⟨rfl, rfl⟩
  have hrun := wp_run hwp
  rcases hr : ((Call.set s handle key).prog env (depth + 1)).run w with ⟨e | r, w'⟩
  · rw [hr] at hrun
    exact hrun.elim
  · rw [hr] at hrun
    rw [hrun.1, hrun.2]

/-- Sets of a value longer than a page, one after the other, up to the last page. -/
theorem calls_overlong (env : Env) {s : Setter} {handle : UInt32} {key : CString} (hlong : 126 < (itemSpan s.length).toNat)
    (hno : NoHit f (nsIndexOf handle) s.itemType.code key.bytes) (hm : AtMostOneActive f)
    (hact : stateAt f a = PageState.active.word) (hu : ∀ q, a < q → q < 8 → stateAt f q = PageState.uninitialized.word)
    (depth n : ℕ) (hn : b + n < 8) (h : Turned f w.flash a b) :
    ∃ g, calls env (List.replicate n (depth + 1, .set s handle key)) w =
        (List.replicate n (.ok (.code espErrNvsNoFreePages)), ⟨g, w.ram⟩) ∧ Turned f g a (b + n) := by
  induction n generalizing w b with
  | zero => exact ⟨w.flash, rfl, h⟩
  | succ n ih =>
    have hab := h.le
    have hrun := run_set_overlong env hlong (h.noHit hno) (h.atMostOne hm (by omega) hact) (by omega) h.active
      (by rw [h.state _ (by omega)]; exact hu _ (by omega) (by omega)) depth
    obtain ⟨g, hcalls, hg⟩ := ih (w := ⟨initFlash (fullFlash w.flash b) (b + 1) ((activePage w.flash).2 + 1), w.ram⟩)
      (by omega) (h.next _)
    refine ⟨g, ?_, ?_⟩
    · rw [List.replicate_succ, calls, hrun]
      simp only [hcalls, List.replicate_succ]
    · rwa [show b + (n + 1) = b + 1 + n by omega]

/-- The set of a value of one entry where the active page is fresh: it lies in the first entry. -/
theorem run_set_fresh (env : Env) (s : Setter) (handle : UInt32) (key : CString) (hspan : itemSpan s.length = 1)
    (hfit : Fits s.data s.length) (hno : NoHit w.flash (nsIndexOf handle) s.itemType.code key.bytes) {p : ℕ} (hp : p < 8)
    (h : Filling w.flash p 0) (depth : ℕ) :
    ∃ w', ((Call.set s handle key).prog env (depth + 1)).run w = (.ok (.code espOk), w') ∧ Filling w'.flash p 1 ∧
      (∀ q, q ≠ p → ∀ x, base q ≤ x → x < base q + 4096 → w'.flash x = w.flash x) ∧ entryAt w'.flash p 0 = .written := by
  have hone : (itemSpan s.length).toNat = 1 := by rw [hspan]; rfl
  have hwp : wp (fun _ _ => True) (fun r w' => r = .code espOk ∧ Filling w'.flash p 1 ∧
      (∀ q, q ≠ p → ∀ x, base q ≤ x → x < base q + 4096 → w'.flash x = w.flash x) ∧ entryAt w'.flash p 0 = .written)
      (fun _ _ => False) ((Call.set s handle key).prog env (depth + 1)) w := by
    rw [Call.prog, Setter.prog_eq, nvsSetValue, wp_bind]
    apply wp_eraseOldItem_noHit hno
    rw [wp_bind]
    refine wp_mono (wp_writeItem_filling env (depth + 1) hp (by omega) (by omega) hfit h) (fun _ _ _ => trivial)
      (fun err w' h' => ?_) fun e _ hf => ?_
    · obtain ⟨rfl, hfill, hother, hw⟩ := h'
      exact ⟨rfl, hfill 1 (by omega) (by omega), hother, hw rfl⟩
    · cases hf <;> omega
  have hrun := wp_run hwp
  rcases hr : ((Call.set s handle key).prog env (depth + 1)).run w with ⟨e | r, w'⟩
  · rw [hr] at hrun
    exact hrun.elim
  · rw [hr] at hrun
    obtain ⟨rfl, h'⟩ := hrun
    exact ⟨w', rfl, h'⟩

/-- Calls after calls that all returned. -/
theorem calls_append (env : Env) {w : NvsWorld} {l : List (ℕ × Call)} (l' : List (ℕ × Call)) (h : ∀ r ∈ (calls env l w).1, ∃ a, r = .ok a) :
    calls env (l ++ l') w =
      ((calls env l w).1 ++ (calls env l' (calls env l w).2).1, (calls env l' (calls env l w).2).2) := by
  induction l generalizing w with
  | nil => rfl
  | cons c l ih =>
    obtain ⟨depth, c⟩ := c
    rw [List.cons_append, calls, calls]
    rw [calls] at h
    rcases hr : (c.prog env depth).run w with ⟨e | r, w'⟩
    · rw [hr] at h
      obtain ⟨a, ha⟩ := h (.error e) (by simp)
      cases ha
    · rw [hr] at h
      simp only
      rw [ih fun r hr => h r (List.mem_cons_of_mem _ hr)]
      rfl

end Esp8266Sdk.Nvs
