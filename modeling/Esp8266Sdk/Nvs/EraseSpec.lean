import Esp8266Sdk.Nor.Faults
import Esp8266Sdk.Nvs.TableSpec
import Esp8266Sdk.Nvs.Packed

/-! What `eraseOldItem` and `nvs_erase_all` do to a packed store, where no
continuation entry is taken for an item: they erase whole blocks. -/

namespace Esp8266Sdk.Nvs

open Nor Prog

/-- `g` differs from `f` in what lookups see at most by the erased blocks `R`. -/
structure Removes (f g : Flash) (R : ℕ → ℕ → Prop) : Prop where
  erases : Erases f g R
  state : ∀ p < 8, stateAt g p = stateAt f p
  page : ∀ p < 8, (∀ i, ¬ R p i) → ∀ x, base p ≤ x → x < base p + 4096 → g x = f x

namespace Removes

variable {f g h : Flash} {R S : ℕ → ℕ → Prop}

theorem refl (f : Flash) : Removes f f fun _ _ => False where
  erases := {
    head := fun _ _ _ hr => hr.elim
    gone := fun _ _ _ _ hr => hr.elim
    kept := fun _ _ _ _ _ => rfl
    slot := fun _ _ _ _ _ => rfl }
  state := fun _ _ => rfl
  page := fun _ _ _ _ _ _ => rfl

/-- Erased pages stay erased. -/
theorem blank (e : Removes f g R) {p : ℕ} (hp : p < 8) (hb : Blank f p) : Blank g p := by
  have hno : ∀ i, ¬ R p i := by
    intro i hr
    have hh := e.erases.head p hp i hr
    have hw := hh.2.1
    rw [hb.entryAt (by have := hh.1; omega)] at hw
    cases hw
  intro x h1 h2
  rw [e.page p hp hno x h1 h2, hb x h1 h2]

theorem ordered (e : Removes f g R) {a : ℕ} (h : Ordered f a) : Ordered g a := h.congr e.state fun _ hp => e.blank hp

end Removes

/-- `g` is `f` with the table of page `k` written over by `T`, and perhaps its dirty flag. -/
structure Rewrites (f g : Flash) (k : ℕ) (T : EntryTable) : Prop where
  entry : ∀ j < 126, entryAt g k j = (entryAt f k j).over (getEntryState T j)
  outside : ∀ x, x < base k + 4 ∨ base k + 64 ≤ x → g x = f x

theorem rewrites_tableFlash (f : Flash) (k : ℕ) (T : EntryTable) : Rewrites f (tableFlash f k T 0 8) k T where
  entry := fun j hj => by rw [entryAt_tableFlash f k T (by omega) (by omega), if_pos (by omega)]
  outside := fun x hx => tableFlash_outside f T (by omega) (by omega)

theorem rewrites_eraseFlash (f : Flash) (k : ℕ) (T : EntryTable) : Rewrites f (eraseFlash f k T) k T where
  entry := fun j hj => by
    have hd : entryAt ((dirtyStep k).apply f) k j = entryAt f k j := by
      rw [entryAt_eq _ k (by omega), entryAt_eq f k (by omega), dirtyStep, Op.apply_write,
        Flash.program_outside (by rw [length_le32]; omega)]
    rw [eraseFlash, entryAt_tableFlash _ k T (by omega) (by omega), if_pos (by omega), hd]
  outside := fun x hx => by
    rw [eraseFlash, tableFlash_outside _ T (by omega) (by omega), dirtyStep, Op.apply_write,
      Flash.program_outside (by rw [length_le32]; omega)]

/-- What the loop over one page leaves in RAM, in terms of the blocks `R` to erase. -/
structure Marks (f : Flash) (k : ℕ) (R : ℕ → Prop) (T : EntryTable) : Prop where
  gone : ∀ i j, R i → i ≤ j → j < i + spanAt f k i → getEntryState T j = .erased
  kept : ∀ j < 126, (∀ i, R i → i ≤ j → j < i + spanAt f k i → False) → getEntryState T j = entryAt f k j

/-- Page `k` is erased after the pages before it. -/
theorem Removes.next {f g h : Flash} {R : ℕ → ℕ → Prop} {k : ℕ} {T : EntryTable} (hf : Packed f)
    (hR : ∀ p < 8, ∀ i, R p i → Head f p i) (e : Removes f g fun p i => p < k ∧ R p i) (hk : k < 8) (hex : ∃ i, R k i)
    (hm : Marks f k (R k) T) (hr : Rewrites g h k T) : Removes f h fun p i => p < k + 1 ∧ R p i := by
  have hpage : ∀ x, base k ≤ x → x < base k + 4096 → g x = f x := e.page k hk fun i hi => by omega
  have hother : ∀ p, p ≠ k → ∀ x, base p ≤ x → x < base p + 4096 → h x = g x := by
    intro p hp x h1 h2
    exact hr.outside x (by simp only [base] at *; omega)
  have hentry : ∀ j < 126, entryAt h k j = (entryAt f k j).over (getEntryState T j) := by
    intro j hj
    rw [hr.entry j hj, entryAt_page (by omega) hpage]
  refine ⟨⟨fun p hp i hi => hR p hp i hi.2, fun p hp i j hi h1 h2 => ?_, fun p hp j hj hno => ?_,
    fun p hp x h1 h2 => ?_⟩, fun p hp => ?_, fun p hp hno x h1 h2 => ?_⟩
  · have hj : j < 126 := by
      have := (hf.blocks p hp).fits (hR p hp i hi.2)
      omega
    by_cases hpk : p = k
    · subst hpk
      rw [hentry j hj, hm.gone i j hi.2 h1 h2, EntryState.over_erased]
    · rw [entryAt_page (by omega) (hother p hpk)]
      exact e.erases.gone p hp i j ⟨by omega, hi.2⟩ h1 h2
  · by_cases hpk : p = k
    · subst hpk
      rw [hentry j hj, hm.kept j hj fun i hi => hno i ⟨by omega, hi⟩, EntryState.over_self]
    · rw [entryAt_page (by omega) (hother p hpk)]
      exact e.erases.kept p hp j hj fun i hi => hno i ⟨by omega, hi.2⟩
  · by_cases hpk : p = k
    · subst hpk
      rw [hr.outside x (by omega), hpage x (by omega) h2]
    · rw [hother p hpk x (by omega) h2]
      exact e.erases.slot p hp x h1 h2
  · refine Eq.trans (stateAt_congr fun x h1 h2 => ?_) (e.state p hp)
    exact hr.outside x (by simp only [base] at *; omega)
  · have hpk : p ≠ k := by
      rintro rfl
      obtain ⟨i, hi⟩ := hex
      exact hno i ⟨by omega, hi⟩
    rw [hother p hpk x h1 h2]
    exact e.page p hp (fun i hi => hno i ⟨by omega, hi.2⟩) x h1 h2

theorem Removes.congr {f g : Flash} {R S : ℕ → ℕ → Prop} (e : Removes f g R) (h : ∀ p < 8, ∀ i, R p i ↔ S p i) :
    Removes f g S where
  erases := {
    head := fun p hp i hi => e.erases.head p hp i ((h p hp i).2 hi)
    gone := fun p hp i j hi => e.erases.gone p hp i j ((h p hp i).2 hi)
    kept := fun p hp j hj hno => e.erases.kept p hp j hj fun i hi => hno i ((h p hp i).1 hi)
    slot := e.erases.slot }
  state := e.state
  page := fun p hp hno => e.page p hp fun i hi => hno i ((h p hp i).1 hi)

/-- A page without blocks to erase is skipped. -/
theorem Removes.skip {f g : Flash} {R : ℕ → ℕ → Prop} {k : ℕ} (e : Removes f g fun p i => p < k ∧ R p i)
    (hno : ∀ i, ¬ R k i) : Removes f g fun p i => p < k + 1 ∧ R p i := by
  refine e.congr fun p _ i => ⟨fun h => ⟨by omega, h.2⟩, fun h => ⟨?_, h.2⟩⟩
  have : p ≠ k := by
    rintro rfl
    exact hno i h.2
  omega

/-! ### Failing steps -/

/-- A step that may fail: it would change nothing, or it marks a page dirty. -/
def Harmless (w : NvsWorld) (op : Op) : Prop := op.apply w.flash = w.flash ∨ ∃ p, op = dirtyStep p

theorem Harmless.same {w : NvsWorld} {op : Op} (h : Harmless w op) (hne : ∀ p, op ≠ dirtyStep p) :
    op.apply w.flash = w.flash :=
  h.resolve_right fun ⟨p, e⟩ => hne p e

theorem Body.ne_dirtyStep {p : ℕ} {op : Op} (h : Body p op) (q : ℕ) : op ≠ dirtyStep q := by
  obtain ⟨a, bs, rfl, h1, h2⟩ := h
  intro e
  injection e with ha hbs
  rw [hbs, length_le32] at h2
  simp only [base] at *
  omega

variable {w : NvsWorld}

section

variable {May : NvsWorld → Op → Prop} {Q : Unit → NvsWorld → Prop} {E : Defect → NvsWorld → Prop}

theorem wpFaults_spiFlashWrite (a : ℕ) (bs : List UInt8) : wpFaults May Q E (spiFlashWrite a bs) w ↔
    Q () (after w (.write a bs)) ∧ (May w (.write a bs) → Q () w) := Iff.rfl

theorem wpFaults_modifyCache (g : Cache → Cache) :
    wpFaults May Q E (modifyCache g) w ↔ Q () { w with ram := g w.ram } := Iff.rfl

end

/-- One page of `eraseOldItem`, where the dirty mark may fail. -/
theorem wpFaults_erasePage {Q : Unit → NvsWorld → Prop} {E : Defect → NvsWorld → Prop} {p : ℕ} (hp : p < 8)
    {nsIndex datatype : UInt8} {key : List UInt8}
    (hsame : ∀ table, eraseTable w.flash p nsIndex datatype key = some (table, false) → Q () w)
    (hmod : ∀ table, eraseTable w.flash p nsIndex datatype key = some (table, true) →
      ∀ g, Rewrites w.flash g p table → Q () ⟨g, invalidateCache nsIndex key w.ram⟩)
    (hnone : eraseTable w.flash p nsIndex datatype key = none → E .index w) :
    wpFaults Harmless Q E (erasePage nsIndex datatype key p) w := by
  rw [erasePage, wpFaults_bind]
  refine (reads_readTable hp).wpFaults ?_
  rw [wpFaults_bind]
  refine (checks_eraseLoop hp nsIndex datatype key _).wpFaults ?_
  rw [← eraseTable]
  cases he : eraseTable w.flash p nsIndex datatype key with
  | none => exact hnone he
  | some s =>
    obtain ⟨table, modified⟩ := s
    cases modified with
    | false => exact hsame table he
    | true =>
      have hstep : Op.write (pageAddr p + 9) (le32 0) = dirtyStep p := by rw [pageAddr_natCast hp, dirtyStep]
      -- the words are written with the dirty flag cleared or not
      have hwords : ∀ f : Flash, Rewrites w.flash (tableFlash f p table 0 8) p table →
          wpFaults Harmless Q E (writeTableWords (pageAddr p) table 0 7) ⟨f, invalidateCache nsIndex key w.ram⟩ := by
        intro f hf
        refine wpFaults_of_wp (wp_writeTableWords hp (by omega) (fun k _ hk hm => ?_) (fun _ => hmod table he _ hf) (by omega))
        exact hm.same (body_wordStep p table hk).ne_dirtyStep
      simp only [if_true, markPageDirty, wpFaults_bind, wpFaults_spiFlashWrite, wpFaults_modifyCache, hstep]
      exact ⟨hwords _ (rewrites_eraseFlash _ p table), fun _ => hwords _ (rewrites_tableFlash _ p table)⟩

/-! ### `eraseOldItem` -/

/-- What `eraseOldItem` looks for. -/
def Hit (f : Flash) (nsIndex datatype : UInt8) (key : List UInt8) (p i : ℕ) : Prop :=
  (itemAt f p i).named nsIndex key ∧ (itemAt f p i).typed datatype

instance (f : Flash) (nsIndex datatype : UInt8) (key : List UInt8) (p i : ℕ) : Decidable (Hit f nsIndex datatype key p i) :=
  inferInstanceAs (Decidable (_ ∧ _))

/-- No continuation entry reads as an item that `eraseOldItem` looks for. -/
def Clear (f : Flash) (nsIndex datatype : UInt8) (key : List UInt8) : Prop :=
  ∀ p < 8, ∀ i < 126, entryAt f p i = .written → Hit f nsIndex datatype key p i → Head f p i

instance (f : Flash) (nsIndex datatype : UInt8) (key : List UInt8) : Decidable (Clear f nsIndex datatype key) :=
  inferInstanceAs (Decidable (∀ _ < _, _))

/-- The blocks `eraseOldItem` erases. -/
def Old (f : Flash) (nsIndex datatype : UInt8) (key : List UInt8) (p i : ℕ) : Prop :=
  Head f p i ∧ Hit f nsIndex datatype key p i

instance (f : Flash) (nsIndex datatype : UInt8) (key : List UInt8) (p i : ℕ) : Decidable (Old f nsIndex datatype key p i) :=
  inferInstanceAs (Decidable (_ ∧ _))

/-- The table `eraseOldItem` writes back to page `p`. -/
theorem eraseTable_of_clear {f g : Flash} {nsIndex datatype : UInt8} {key : List UInt8} {p : ℕ} (hp : p < 8) (hf : Packed f)
    (hc : Clear f nsIndex datatype key) (hpage : ∀ x, base p ≤ x → x < base p + 4096 → g x = f x) :
    ∃ T modified, eraseTable g p nsIndex datatype key = some (T, modified) ∧ Marks f p (Old f nsIndex datatype key p) T ∧
      (modified = true ↔ ∃ i, Old f nsIndex datatype key p i) := by
  have hb := hf.blocks p hp
  have htable : tableAt g p = tableAt f p := tableAt_congr fun x h1 h2 => hpage x (by omega) (by omega)
  have hitem : ∀ i < 126, itemAt g p i = itemAt f p i := fun i hi => itemAt_slots hi fun x h1 h2 => hpage x (by omega) h2
  have hhead : ∀ i < 126, getEntryState (tableAt g p) i = .written → Hit g nsIndex datatype key p i →
      Old f nsIndex datatype key p i := by
    intro i hi hw hh
    rw [htable] at hw
    rw [Hit, hitem i hi] at hh
    exact ⟨hc p hp i hi hw hh, hh⟩
  have hspan : ∀ i < 126, spanAt g p i = spanAt f p i := fun i hi => by rw [spanAt, spanAt, hitem i hi]
  obtain ⟨T, m, he, hgone, hkept, hmod⟩ := foldlM_markStep (P := Hit g nsIndex datatype key p) (l := spanAt g p)
    (T := tableAt g p) (n := 126)
    (fun i hi hw hh => by
      have := hb.fits (hhead i hi hw hh).1
      rw [hspan i hi]
      omega)
    (fun i j hij hj hw hh hw' hh' => by
      rw [hspan i (by omega)]
      exact hb.disjoint (hhead i (by omega) hw hh).1 (hhead j hj hw' hh').1 hij)
  have hold : ∀ {i}, Old f nsIndex datatype key p i →
      i < 126 ∧ getEntryState (tableAt g p) i = .written ∧ Hit g nsIndex datatype key p i := by
    intro i ho
    refine ⟨ho.1.1, ?_, ?_⟩
    · rw [htable]
      exact ho.1.2.1
    · rw [Hit, hitem i ho.1.1]
      exact ho.2
  refine ⟨T, m, he, ⟨fun i j hi h1 h2 => ?_, fun j hj hno => ?_⟩, ?_⟩
  · obtain ⟨h126, hw, hh⟩ := hold hi
    exact hgone i j h126 hw hh h1 (by rwa [hspan i h126])
  · rw [hkept j fun i hi hw hh h1 h2 => hno i (hhead i hi hw hh) h1 (by rwa [hspan i hi] at h2), htable, entryAt]
  · rw [hmod]
    constructor
    · rintro ⟨i, hi, hw, hh⟩
      exact ⟨i, hhead i hi hw hh⟩
    · rintro ⟨i, hi⟩
      exact ⟨i, hold hi⟩

theorem invalidateCache_twice (nsIndex : UInt8) (key : List UInt8) (c : Cache) :
    invalidateCache nsIndex key (invalidateCache nsIndex key c) = invalidateCache nsIndex key c := by
  have hlt := hash_mod_lt (calculateKeyHash nsIndex key)
  simp only [invalidateCache]
  split_ifs with h
  · rw [Vector.getElem_set_self, if_pos rfl, Vector.set_set]
  · rfl

/-- What `eraseOldItem` leaves. -/
structure ErasedOld (w w' : NvsWorld) (nsIndex datatype : UInt8) (key : List UInt8) : Prop where
  removes : Removes w.flash w'.flash (Old w.flash nsIndex datatype key)
  hit : (∃ p < 8, ∃ i, Old w.flash nsIndex datatype key p i) → w'.ram = invalidateCache nsIndex key w.ram
  miss : (∀ p < 8, ∀ i, ¬ Old w.flash nsIndex datatype key p i) → w'.ram = w.ram

/-- Where no continuation entry reads as one of them, `eraseOldItem` erases the
blocks of the key and type, and no other. Dirty marks may fail. -/
theorem wpFaults_eraseOldItem {E : Defect → NvsWorld → Prop} {nsIndex datatype : UInt8} {key : List UInt8}
    (hf : Packed w.flash) (hc : Clear w.flash nsIndex datatype key) :
    wpFaults Harmless (fun _ w' => ErasedOld w w' nsIndex datatype key) E (eraseOldItem nsIndex datatype key) w := by
  have hR : ∀ p < 8, ∀ i, Old w.flash nsIndex datatype key p i → Head w.flash p i := fun _ _ _ h => h.1
  rw [eraseOldItem]
  refine wpFaults_post (wpFaults_range (fun k _ w' =>
    Removes w.flash w'.flash (fun p i => p < k ∧ Old w.flash nsIndex datatype key p i) ∧
    ((∃ p < k, ∃ i, Old w.flash nsIndex datatype key p i) → w'.ram = invalidateCache nsIndex key w.ram) ∧
    ((∀ p < k, ∀ i, ¬ Old w.flash nsIndex datatype key p i) → w'.ram = w.ram)) (fun k hk _ w' h => ?_)
    ⟨(Removes.refl _).congr fun _ _ _ => ⟨False.elim, fun h => by omega⟩, fun ⟨p, hp, _⟩ => by omega, fun _ => rfl⟩) ?_
  · replace hk : k < 8 := hk
    obtain ⟨hrem, hhit, hmiss⟩ := h
    obtain ⟨T, m, he, hmarks, hm⟩ := eraseTable_of_clear hk hf hc (hrem.page k hk fun i hi => by omega)
    refine wpFaults_erasePage hk (fun T' he' => ?_) (fun T' he' g hg => ?_) fun he' => ?_
    · -- nothing to erase on this page
      rw [he] at he'
      cases he'
      have hno : ∀ i, ¬ Old w.flash nsIndex datatype key k i := fun i hi => by
        have := hm.2 ⟨i, hi⟩
        cases this
      refine ⟨hrem.skip hno, fun ⟨p, hp, i, hi⟩ => hhit ⟨p, ?_, i, hi⟩, fun hall => hmiss fun p hp => hall p (by omega)⟩
      have : p ≠ k := by
        rintro rfl
        exact hno i hi
      omega
    · rw [he] at he'
      cases he'
      have hex := hm.1 rfl
      refine ⟨hrem.next hf hR hk hex hmarks hg, fun _ => ?_, fun hall => ?_⟩
      · by_cases hbefore : ∃ p < k, ∃ i, Old w.flash nsIndex datatype key p i
        · rw [hhit hbefore, invalidateCache_twice]
        · rw [hmiss fun p hp i hi => hbefore ⟨p, hp, i, hi⟩]
      · obtain ⟨i, hi⟩ := hex
        exact absurd hi (hall k (by omega) i)
    · rw [he] at he'
      cases he'
  · rintro - w' ⟨hrem, hhit, hmiss⟩
    exact ⟨hrem.congr fun p hp _ => and_iff_right hp, hhit, hmiss⟩

/-- The same of a run without faults. -/
theorem wp_eraseOldItem {E : Defect → NvsWorld → Prop} {nsIndex datatype : UInt8} {key : List UInt8} (hf : Packed w.flash)
    (hc : Clear w.flash nsIndex datatype key) :
    wp (fun _ _ => True) (fun _ w' => ErasedOld w w' nsIndex datatype key) E (eraseOldItem nsIndex datatype key) w :=
  wp_of_wpFaults (wpFaults_eraseOldItem hf hc)

/-- No written entry reads as an item that `eraseOldItem` looks for. -/
def NoHit (f : Flash) (nsIndex datatype : UInt8) (key : List UInt8) : Prop :=
  ∀ p < 8, ∀ i < 126, entryAt f p i = .written → ¬ Hit f nsIndex datatype key p i

instance (f : Flash) (nsIndex datatype : UInt8) (key : List UInt8) : Decidable (NoHit f nsIndex datatype key) :=
  inferInstanceAs (Decidable (∀ _ < _, _))

theorem noHit_of_blank {f : Flash} (h : ∀ p < 8, Blank f p) (nsIndex datatype : UInt8) (key : List UInt8) :
    NoHit f nsIndex datatype key := by
  intro p hp i hi hw
  rw [(h p hp).entryAt (by omega)] at hw
  cases hw

theorem eraseTable_noHit {f : Flash} {nsIndex datatype : UInt8} {key : List UInt8} (h : NoHit f nsIndex datatype key)
    {p : ℕ} (hp : p < 8) : ∃ T, eraseTable f p nsIndex datatype key = some (T, false) := by
  obtain ⟨T, modified, he, -, -, hm⟩ := foldlM_markStep (T := tableAt f p) (n := 126) (l := spanAt f p)
    (P := fun i => (itemAt f p i).named nsIndex key ∧ (itemAt f p i).typed datatype)
    (fun i hi hw hhit => absurd hhit (h p hp i hi hw)) fun i _ _ _ hw hhit _ _ => absurd hhit (h p hp i (by omega) hw)
  have hmod : modified = false := by
    rw [← Bool.not_eq_true]
    intro hmod
    obtain ⟨i, hi, hw, hhit⟩ := hm.1 hmod
    exact h p hp i hi hw hhit
  rw [hmod] at he
  exact ⟨T, he⟩

/-- With nothing to erase, `eraseOldItem` makes no step. -/
theorem wp_eraseOldItem_noHit {G : NvsWorld → Op → Prop} {Q : Unit → NvsWorld → Prop} {E : Defect → NvsWorld → Prop}
    {nsIndex datatype : UInt8} {key : List UInt8} (h : NoHit w.flash nsIndex datatype key) (hQ : Q () w) :
    wp G Q E (eraseOldItem nsIndex datatype key) w := by
  rw [eraseOldItem]
  refine wp_post (wp_range (fun _ _ w' => w' = w) (fun p hp _ w' hw' => ?_) rfl) fun _ w' hw' => by rwa [hw']
  rw [hw']
  obtain ⟨T, hT⟩ := eraseTable_noHit h hp
  refine wp_erasePage hp (fun _ he => ?_) (fun _ he => ?_) (fun _ _ => rfl) (fun _ he => ?_) fun he => ?_
  all_goals
    rw [hT] at he
    cases he

/-! ### `nvs_erase_all` -/

/-- The slots of the block at `i` agree with its head on being in the namespace. -/
def UniformBlock (f : Flash) (nsIndex : UInt8) (p i : ℕ) : Prop :=
  ∀ j < 126, i ≤ j ∧ j < i + spanAt f p i → ((itemAt f p j).nsIndex = nsIndex ↔ (itemAt f p i).nsIndex = nsIndex)

instance (f : Flash) (nsIndex : UInt8) (p i : ℕ) : Decidable (UniformBlock f nsIndex p i) :=
  inferInstanceAs (Decidable (∀ _ < _, _))

/-- Each block lies wholly in the namespace or wholly outside, by the first byte of its slots. -/
def Uniform (f : Flash) (nsIndex : UInt8) : Prop := ∀ p < 8, ∀ i < 126, Head f p i → UniformBlock f nsIndex p i

instance (f : Flash) (nsIndex : UInt8) : Decidable (Uniform f nsIndex) := inferInstanceAs (Decidable (∀ _ < _, _))

/-- The blocks `nvs_erase_all` is to erase. -/
def InNamespace (f : Flash) (nsIndex : UInt8) (p i : ℕ) : Prop := Head f p i ∧ (itemAt f p i).nsIndex = nsIndex

instance (f : Flash) (nsIndex : UInt8) (p i : ℕ) : Decidable (InNamespace f nsIndex p i) :=
  inferInstanceAs (Decidable (_ ∧ _))

/-- The table `nvs_erase_all` writes back to page `p`. It marks entry by entry,
so a block goes as a whole only where all its slots agree. -/
theorem eraseAllTable_of_uniform {f g : Flash} {nsIndex : UInt8} {p : ℕ} (hp : p < 8) (hf : Packed f)
    (hu : Uniform f nsIndex) (hpage : ∀ x, base p ≤ x → x < base p + 4096 → g x = f x) :
    ∃ T modified, eraseAllTable g p nsIndex = some (T, modified) ∧ Marks f p (InNamespace f nsIndex p) T ∧
      (modified = true ↔ ∃ i, InNamespace f nsIndex p i) := by
  have hb := hf.blocks p hp
  have htable : tableAt g p = tableAt f p := tableAt_congr fun x h1 h2 => hpage x (by omega) (by omega)
  have hitem : ∀ i < 126, itemAt g p i = itemAt f p i := fun i hi => itemAt_slots hi fun x h1 h2 => hpage x (by omega) h2
  obtain ⟨T, m, he, hgone, hkept, hmod⟩ := foldlM_markStep (P := fun i => (itemAt g p i).nsIndex = nsIndex)
    (l := fun _ => 1) (T := tableAt g p) (n := 126) (fun i hi _ _ => by omega) fun i j hij _ _ _ _ _ => hij
  have hcover : ∀ j < 126, getEntryState (tableAt g p) j = .written → (itemAt g p j).nsIndex = nsIndex →
      ∃ i, InNamespace f nsIndex p i ∧ i ≤ j ∧ j < i + spanAt f p i := by
    intro j hj hw hn
    rw [htable] at hw
    rw [hitem j hj] at hn
    obtain ⟨i, hi, hij, hji⟩ := hb.cover hj hw
    exact ⟨i, ⟨hi, (hu p hp i hi.1 hi j hj ⟨hij, hji⟩).1 hn⟩, hij, hji⟩
  have hslots : ∀ i j, InNamespace f nsIndex p i → i ≤ j → j < i + spanAt f p i →
      j < 126 ∧ getEntryState (tableAt g p) j = .written ∧ (itemAt g p j).nsIndex = nsIndex := by
    intro i j hi hij hji
    have hj : j < 126 := by
      have := hb.fits hi.1
      omega
    rw [htable, hitem j hj]
    exact ⟨hj, hb.written hi.1 hij hji, (hu p hp i hi.1.1 hi.1 j hj ⟨hij, hji⟩).2 hi.2⟩
  refine ⟨T, m, he, ⟨fun i j hi h1 h2 => ?_, fun j hj hno => ?_⟩, ?_⟩
  · obtain ⟨hj, hw, hn⟩ := hslots i j hi h1 h2
    exact hgone j j hj hw hn le_rfl (by omega)
  · rw [hkept j fun i hi hw hn h1 h2 => ?_, htable, entryAt]
    obtain rfl : i = j := by omega
    obtain ⟨k, hk, hki, hik⟩ := hcover i hi hw hn
    exact hno k hk hki hik
  · rw [hmod]
    constructor
    · rintro ⟨j, hj, hw, hn⟩
      obtain ⟨i, hi, -⟩ := hcover j hj hw hn
      exact ⟨i, hi⟩
    · rintro ⟨i, hi⟩
      have := hb.pos hi.1
      exact ⟨i, hslots i i hi le_rfl (by omega)⟩

/-- Where blocks agree on the namespace, `nvs_erase_all` erases the blocks of the
namespace and no other, and leaves the cache alone. -/
theorem wp_nvsEraseAll {E : Defect → NvsWorld → Prop} {handle : UInt32} (hf : Packed w.flash)
    (hu : Uniform w.flash (nsIndexOf handle)) :
    wp (fun _ _ => True) (fun r w' => r = .code espOk ∧
      Removes w.flash w'.flash (InNamespace w.flash (nsIndexOf handle)) ∧ w'.ram = w.ram) E (nvsEraseAll handle) w := by
  have hR : ∀ p < 8, ∀ i, InNamespace w.flash (nsIndexOf handle) p i → Head w.flash p i := fun _ _ _ h => h.1
  rw [nvsEraseAll, wp_bind]
  refine wp_post (wp_range (fun k _ w' => Removes w.flash w'.flash
    (fun p i => p < k ∧ InNamespace w.flash (nsIndexOf handle) p i) ∧ w'.ram = w.ram) (fun k hk _ w' h => ?_)
    ⟨(Removes.refl _).congr fun _ _ _ => ⟨False.elim, fun h => by omega⟩, rfl⟩) ?_
  · replace hk : k < 8 := hk
    obtain ⟨hrem, hram⟩ := h
    obtain ⟨T, m, he, hmarks, hm⟩ := eraseAllTable_of_uniform hk hf hu (hrem.page k hk fun i hi => by omega)
    refine wp_eraseAllPage hk (fun _ _ _ _ => trivial) (fun T' he' => ?_) (fun T' he' => ?_) fun he' => ?_
    · rw [he] at he'
      cases he'
      exact ⟨hrem.skip fun i hi => by simpa using hm.2 ⟨i, hi⟩, hram⟩
    · rw [he] at he'
      cases he'
      exact ⟨hrem.next hf hR hk (hm.1 rfl) hmarks (rewrites_tableFlash _ k _), hram⟩
    · rw [he] at he'
      cases he'
  · rintro - w' ⟨hrem, hram⟩
    exact ⟨rfl, hrem.congr fun p hp _ => and_iff_right hp, hram⟩

end Esp8266Sdk.Nvs
