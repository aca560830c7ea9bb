import Esp8266Sdk.Nvs.WriterRule
import Esp8266Sdk.Nvs.Blocks

/-! What `compactPage` leaves. Its last step writes the word `PS_UNINITIALIZED`
over the state word of the source page, which clears no bit, so the source page
is not reclaimed. -/

namespace Esp8266Sdk.Nvs

open Nor Prog

/-- Two blocks hold the same item: namespace, type, chunk index, key and all value bytes. -/
structure SameItem (f : Flash) (p i : ℕ) (g : Flash) (q j : ℕ) : Prop where
  nsIndex : (itemAt f p i).nsIndex = (itemAt g q j).nsIndex
  datatype : (itemAt f p i).datatype = (itemAt g q j).datatype
  chunkIndex : (itemAt f p i).chunkIndex = (itemAt g q j).chunkIndex
  key : (itemAt f p i).key = (itemAt g q j).key
  span : (itemAt f p i).span = (itemAt g q j).span
  data : (itemAt f p i).data = (itemAt g q j).data
  rest : f.read (slotAddr p i + 32) (32 * (spanAt f p i - 1)) = g.read (slotAddr q j + 32) (32 * (spanAt f p i - 1))

/-- The items of `src` before are the items of `dest` after, and `src` is reclaimed. -/
structure Compacted (f g : Flash) (src dest : ℕ) : Prop where
  moved : ∀ i, Head f src i → ∃ j, (Head g dest j ∧ SameItem f src i g dest j) ∧
    ∀ k, Head g dest k → SameItem f src i g dest k → k = j
  only : ∀ k < 126, entryAt g dest k = .written →
    ∃ i j, Head f src i ∧ Head g dest j ∧ SameItem f src i g dest j ∧ j ≤ k ∧ k < j + spanAt g dest j
  reclaimed : stateAt g src = PageState.uninitialized.word ∧ NoWritten g src

/-- Page `p` holds the bytes it had in `f₀`, or is in use. -/
def KeptOrUsed (f₀ : Flash) (p : ℕ) (f : Flash) : Prop :=
  (∀ x, base p ≤ x → x < base p + 4096 → f x = f₀ x) ∨ stateAt f p ≠ PageState.uninitialized.word

/-- Only pages in use are written, and a page in use stays so but for an erase
that starts its initialisation. -/
theorem keptOrUsed_rule (f₀ : Flash) (p : ℕ) : WriterRule (fun _ _ => True) (KeptOrUsed f₀ p) (KeptOrUsed f₀ p) where
  init := by
    refine fun {f q} seqNumber _ h => ⟨trivial, trivial, ?_⟩
    by_cases hpq : p = q
    · right
      rw [hpq, stateAt_initFlash]
      decide
    · rcases h with h | h
      · exact .inl fun x h1 h2 => (initFlash_otherPage f seqNumber hpq h1 h2).trans (h x h1 h2)
      · exact .inr (by rwa [stateAt_initFlash_other f seqNumber hpq])
  full := by
    refine fun {f q} _ ha h => ⟨trivial, ?_⟩
    by_cases hpq : p = q
    · right
      rw [hpq, stateAt_markFull ha]
      decide
    · rcases h with h | h
      · exact .inl fun x h1 h2 => (program_otherPage le_rfl (by simp) hpq h1 h2).trans (h x h1 h2)
      · exact .inr (stateAt_program_ne _ _ h)
  body := by
    refine fun {f q op} _ ha hb h => ⟨trivial, ?_⟩
    obtain ⟨a, bs, rfl, h1, h2⟩ := hb.inner
    by_cases hpq : p = q
    · right
      rw [Op.apply_write, hpq, stateAt_program h1 h2, ha]
      decide
    · rcases h with h | h
      · exact .inl fun x hx hx' => (program_otherPage (by omega) h2 hpq hx hx').trans (h x hx hx')
      · exact .inr (stateAt_program_ne _ _ h)
  ones := fun _ _ _ _ => trivial
  idle := fun _ h => h

/-- A fresh page has no written entry. -/
theorem noWritten_initFlash (f : Flash) (p : ℕ) (seqNumber : UInt32) : NoWritten (initFlash f p seqNumber) p := by
  intro i hi
  rw [entryAt_eq _ p (by omega), initFlash_blank f seqNumber (by omega) (by omega), byteState_ff _ (by omega)]
  decide

/-- From a source page without written entries nothing is moved. -/
theorem wp_compactPage_noWritten (env : Env) (depth : ℕ) {src dest : ℕ} (hsrc : src < 8) (hdest : dest < 8)
    (nextSeq : UInt32) {w : NvsWorld} (hn : NoWritten w.flash src) :
    wp (fun _ _ => True) (fun _ w' => w'.flash = initFlash w.flash dest nextSeq) (fun _ _ => True)
      (compactPage env depth src dest nextSeq) w := by
  rw [compactPage]
  refine wp_compactPageWith hsrc hdest nextSeq trivial (fun _ _ _ => trivial) (fun _ => rfl) (fun _ => rfl)
    (I := fun _ w' => w'.flash = initFlash w.flash dest nextSeq) (fun _ i hi w' hw' => ?_) fun _ h => h
  have hi' : getEntryState (tableAt w.flash src) i ≠ .written := hn i hi
  rw [moveEntry]
  simp only
  rw [if_neg hi']
  exact hw'

/-- A returning `compactPage` leaves the source page reclaimed and its items in
the destination exactly where the source page was uninitialised and held no
written entry to begin with. -/
theorem compacted_iff (env : Env) (depth : ℕ) {src dest : ℕ} (hsrc : src < 8) (hdest : dest < 8) (hne : src ≠ dest)
    (nextSeq : UInt32) {w w' : NvsWorld} (hr : (compactPage env depth src dest nextSeq).run w = (.ok espOk, w')) :
    Compacted w.flash w'.flash src dest ↔
      stateAt w.flash src = PageState.uninitialized.word ∧ NoWritten w.flash src := by
  constructor
  · intro hc
    have hk : KeptOrUsed w.flash src w'.flash :=
      (wp_ok ((keptOrUsed_rule w.flash src).compactPage env depth hsrc hdest (.inl fun _ _ _ => rfl)) hr).1
    rcases hk with hsame | hused
    · have hst : stateAt w'.flash src = stateAt w.flash src := stateAt_congr fun x h1 h2 => hsame x h1 (by omega)
      exact ⟨hst ▸ hc.reclaimed.1, noWritten_page (fun x h1 h2 => (hsame x h1 h2).symm) hc.reclaimed.2⟩
    · exact absurd hc.reclaimed.1 hused
  · rintro ⟨hu, hn⟩
    have hf := wp_ok (wp_compactPage_noWritten env depth hsrc hdest nextSeq hn) hr
    rw [hf]
    exact {
      moved := fun i hi => absurd hi.2.1 (hn i hi.1)
      only := fun k hk hw => absurd hw (noWritten_initFlash _ _ _ k hk)
      reclaimed := ⟨by rw [stateAt_initFlash_other _ _ hne, hu],
        noWritten_page (fun x h1 h2 => initFlash_otherPage _ _ hne h1 h2) hn⟩ }

theorem compacted_iff_factory :
    Compacted factory.flash ((compactPage (.built []) 1 0 1 1).run factory).2.flash 0 1 ↔
      stateAt factory.flash 0 = PageState.uninitialized.word ∧ NoWritten factory.flash 0 :=
  compacted_iff (.built []) 1 (by omega) (by omega) (by omega) 1 (run_eq (by decide +kernel))

/-- A full page with one value and a clean header: the value is not moved and the
page is not reclaimed. -/
theorem compacted_fails :
    let w := ((do let _ ← (Call.set (.scalar .u8 7#8) 10 keyA).prog (.built []) 1; markPageFull 0).run factory).2
    let w' := ((compactPage (.built []) 1 0 1 2).run w).2
    ((compactPage (.built []) 1 0 1 2).run w).1 = .ok espOk ∧ ¬ Compacted w.flash w'.flash 0 1 := by
  intro w w'
  have h : ((compactPage (.built []) 1 0 1 2).run w).1 = .ok espOk ∧ stateAt w'.flash 0 ≠ PageState.uninitialized.word := by
    decide +kernel
  exact ⟨h.1, fun hc => h.2 hc.reclaimed.1⟩

end Esp8266Sdk.Nvs
