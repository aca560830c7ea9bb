import Esp8266Sdk.Nvs.Plain

/-! `eraseOldItem` on any flash, packed or not: where each matching entry stays
inside its page, exactly the entries under the spans of the entries matched are
erased. The table is changed while it is scanned, so an entry under an earlier
match is no longer matched itself. -/

namespace Esp8266Sdk.Nvs

open Nor Prog

variable {f g : Flash} {nsIndex datatype : UInt8} {key : List UInt8} {p : ℕ}

/-- Each written entry of page `p` that matches takes an entry at least and ends inside the page. -/
def HitsFitPage (f : Flash) (nsIndex datatype : UInt8) (key : List UInt8) (p : ℕ) : Prop :=
  ∀ i < 126, entryAt f p i = .written → Hit f nsIndex datatype key p i → 1 ≤ spanAt f p i ∧ i + spanAt f p i ≤ 126

instance (f : Flash) (nsIndex datatype : UInt8) (key : List UInt8) (p : ℕ) :
    Decidable (HitsFitPage f nsIndex datatype key p) :=
  inferInstanceAs (Decidable (∀ _ < _, _))

def HitsFit (f : Flash) (nsIndex datatype : UInt8) (key : List UInt8) : Prop :=
  ∀ p < 8, HitsFitPage f nsIndex datatype key p

instance (f : Flash) (nsIndex datatype : UInt8) (key : List UInt8) : Decidable (HitsFit f nsIndex datatype key) :=
  inferInstanceAs (Decidable (∀ _ < _, _))

/-- A written entry of page `p` matches. -/
def HasHit (f : Flash) (nsIndex datatype : UInt8) (key : List UInt8) (p : ℕ) : Prop :=
  ∃ i < 126, entryAt f p i = .written ∧ Hit f nsIndex datatype key p i

/-- Entry `j` of page `p` is under the span of an entry matched during the scan. -/
def Swept (f : Flash) (nsIndex datatype : UInt8) (key : List UInt8) (p j : ℕ) : Prop :=
  Covered (Hit f nsIndex datatype key p) (spanAt f p) (tableAt f p) 126 j

instance (f : Flash) (nsIndex datatype : UInt8) (key : List UInt8) (p j : ℕ) : Decidable (Swept f nsIndex datatype key p j) :=
  inferInstanceAs (Decidable (Covered _ _ _ _ _))

/-- Page `p` of `g` is that of `f` after the scan. -/
structure SweptPage (f g : Flash) (nsIndex datatype : UInt8) (key : List UInt8) (p : ℕ) : Prop where
  entry : ∀ j < 128, entryAt g p j = if Swept f nsIndex datatype key p j then .erased else entryAt f p j
  slot : ∀ x, base p + 64 ≤ x → x < base p + 4096 → g x = f x
  header : ∀ x, base p ≤ x → x < base p + 32 → g x ≠ f x →
    (base p + 9 ≤ x ∧ x < base p + 13) ∧ HasHit f nsIndex datatype key p

/-- On a packed flash heads end inside their pages. -/
theorem Clear.hitsFit (hc : Clear f nsIndex datatype key) (hf : Packed f) : HitsFit f nsIndex datatype key := by
  intro p hp i hi hw hhit
  have hhead := hc p hp i hi hw hhit
  exact ⟨(hf.blocks p hp).pos hhead, (hf.blocks p hp).fits hhead⟩

/-! ### Dependence on the page -/

theorem marked_congr {P P' : ℕ → Prop} [DecidablePred P] [DecidablePred P'] {l l' : ℕ → ℕ} {T : EntryTable} {n : ℕ}
    (hP : ∀ i < n, P i ↔ P' i) (hl : ∀ i < n, l i = l' i) : marked P l T n = marked P' l' T n := by
  induction n with
  | zero => rfl
  | succ n ih =>
    have ih := ih (fun i hi => hP i (by omega)) fun i hi => hl i (by omega)
    have hspan : (∀ i ∈ marked P' l' T n, i + l i ≤ n) ↔ ∀ i ∈ marked P' l' T n, i + l' i ≤ n :=
      forall₂_congr fun i hi => by rw [hl i (by have := (mem_marked hi).1; omega)]
    simp only [marked, ih, hP n (by omega), hspan]

section

variable (h : ∀ x, base p ≤ x → x < base p + 4096 → f x = g x)
include h

theorem itemAt_page {i : ℕ} (hi : i < 126) : itemAt f p i = itemAt g p i :=
  itemAt_slots hi fun x h1 h2 => h x (by omega) h2

theorem tableAt_page : tableAt f p = tableAt g p := tableAt_congr fun x h1 h2 => h x (by omega) (by omega)

theorem hit_page {i : ℕ} (hi : i < 126) : Hit f nsIndex datatype key p i ↔ Hit g nsIndex datatype key p i := by
  rw [Hit, Hit, itemAt_page h hi]

theorem spanAt_page {i : ℕ} (hi : i < 126) : spanAt f p i = spanAt g p i := by rw [spanAt, spanAt, itemAt_page h hi]

theorem hitsFit_page (hfit : HitsFitPage f nsIndex datatype key p) : HitsFitPage g nsIndex datatype key p := by
  intro i hi hw hhit
  rw [← spanAt_page h hi]
  exact hfit i hi ((entryAt_page (by omega) h).trans hw) ((hit_page h hi).2 hhit)

theorem hasHit_page : HasHit f nsIndex datatype key p ↔ HasHit g nsIndex datatype key p := by
  refine exists_congr fun i => and_congr_right fun hi => ?_
  rw [hit_page h hi, entryAt_page (by omega) h]

theorem swept_page {j : ℕ} : Swept f nsIndex datatype key p j ↔ Swept g nsIndex datatype key p j := by
  have hmarked : marked (Hit f nsIndex datatype key p) (spanAt f p) (tableAt f p) 126 =
      marked (Hit g nsIndex datatype key p) (spanAt g p) (tableAt g p) 126 := by
    rw [tableAt_page h]
    exact marked_congr (fun i hi => hit_page h hi) fun i hi => spanAt_page h hi
  unfold Swept Covered
  rw [hmarked]
  refine exists_congr fun i => and_congr_right fun hi => ?_
  rw [spanAt_page h (mem_marked hi).1]

end

/-- Whether a page is swept depends on the bytes of that page only. -/
theorem SweptPage.congr {f' g' : Flash} (s : SweptPage f g nsIndex datatype key p)
    (hf : ∀ x, base p ≤ x → x < base p + 4096 → f x = f' x) (hg : ∀ x, base p ≤ x → x < base p + 4096 → g x = g' x) :
    SweptPage f' g' nsIndex datatype key p where
  entry := by
    intro j hj
    simp only [← entryAt_page hj hg, s.entry j hj, swept_page hf, entryAt_page hj hf]
  slot := fun x h1 h2 => by rw [← hg x (by omega) h2, s.slot x h1 h2, hf x (by omega) h2]
  header := by
    intro x h1 h2 hne
    rw [← hg x h1 (by omega), ← hf x h1 (by omega)] at hne
    exact (s.header x h1 h2 hne).imp_right (hasHit_page hf).1

/-! ### One page -/

/-- The table that `eraseOldItem` writes back to a page. -/
theorem HitsFitPage.eraseTable (h : HitsFitPage f nsIndex datatype key p) :
    ∃ T modified, Nvs.eraseTable f p nsIndex datatype key = some (T, modified) ∧
      (∀ j, getEntryState T j = if Swept f nsIndex datatype key p j then .erased else entryAt f p j) ∧
      (modified = true ↔ HasHit f nsIndex datatype key p) := by
  obtain ⟨T, m, he, ht, hm⟩ := foldlM_marked (P := Hit f nsIndex datatype key p) (l := spanAt f p) (T := tableAt f p)
    (n := 126) fun i hi hw hhit => by have := (h i hi hw hhit).2; omega
  exact ⟨T, m, he, ht, by rw [hm, marked_ne_nil]; exact Iff.rfl⟩

/-- A page without a match has no entry swept. -/
theorem HasHit.of_swept {j : ℕ} (h : Swept f nsIndex datatype key p j) : HasHit f nsIndex datatype key p := by
  obtain ⟨i, hi, -⟩ := h
  exact ⟨i, mem_marked hi⟩

theorem SweptPage.same (hno : ¬ HasHit f nsIndex datatype key p) (h : ∀ x, base p ≤ x → x < base p + 4096 → g x = f x) :
    SweptPage f g nsIndex datatype key p where
  entry := fun j hj => by rw [if_neg fun hs => hno (.of_swept hs), entryAt_page hj h]
  slot := fun x h1 h2 => h x (by omega) h2
  header := fun x h1 h2 hne => absurd (h x h1 (by omega)) hne

/-- The table written back, and the dirty field. -/
theorem sweptPage_eraseFlash {T : EntryTable} (hex : HasHit f nsIndex datatype key p)
    (ht : ∀ j, getEntryState T j = if Swept f nsIndex datatype key p j then .erased else entryAt f p j) :
    SweptPage f (eraseFlash f p T) nsIndex datatype key p where
  entry := by
    intro j hj
    have hd : entryAt ((dirtyStep p).apply f) p j = entryAt f p j := by
      rw [entryAt_eq _ p hj, entryAt_eq f p hj, dirtyStep, Op.apply_write, Flash.program_outside (by rw [length_le32]; omega)]
    rw [eraseFlash, entryAt_tableFlash _ p T (by omega) hj, if_pos (by omega), hd, ht j]
    split_ifs
    · rw [EntryState.over_erased]
    · rw [EntryState.over_self]
  slot := fun x h1 h2 => (rewrites_eraseFlash f p T).outside x (by omega)
  header := by
    intro x h1 h2 hne
    refine ⟨?_, hex⟩
    by_contra hout
    apply hne
    rw [eraseFlash, tableFlash_outside _ T (by omega) (by omega), dirtyStep, Op.apply_write,
      Flash.program_outside (by rw [length_le32]; omega)]

theorem getFromCache_invalidateCache (env : Env) (nsIndex : UInt8) (key : List UInt8) (cache : Cache) :
    getFromCache env nsIndex key (invalidateCache nsIndex key cache) = 0 := by
  rcases getFromCache_cases env nsIndex key (invalidateCache nsIndex key cache) with h0 | ⟨-, k, hk, hmod, hhash, ha⟩
  · exact h0
  · rw [ha]
    have hslot := getElem_invalidateCache nsIndex key cache hk
    split_ifs at hslot with hc
    · rw [hslot]
    · rw [hslot] at hhash
      exact absurd ⟨hmod, hhash⟩ hc

variable {w : NvsWorld}

theorem wp_erasePage_swept (h : HitsFitPage w.flash nsIndex datatype key p) (hp : p < 8) :
    wp (fun _ _ => True) (fun _ w' => SweptPage w.flash w'.flash nsIndex datatype key p ∧
        (∀ q, q ≠ p → ∀ x, base q ≤ x → x < base q + 4096 → w'.flash x = w.flash x) ∧
        (w'.ram = w.ram ∧ ¬ HasHit w.flash nsIndex datatype key p ∨ w'.ram = invalidateCache nsIndex key w.ram))
      (fun _ _ => False) (erasePage nsIndex datatype key p) w := by
  obtain ⟨T, m, he, ht, hm⟩ := h.eraseTable
  refine wp_erasePage hp (fun _ _ => trivial) (fun _ _ _ _ => trivial) (fun T' he' => ?_) (fun T' he' => ?_) fun he' => ?_
  · rw [he] at he'
    cases he'
    have hno : ¬ HasHit w.flash nsIndex datatype key p := fun hex => by cases hm.2 hex
    exact ⟨.same hno fun _ _ _ => rfl, fun _ _ _ _ _ => rfl, .inl ⟨rfl, hno⟩⟩
  · rw [he] at he'
    cases he'
    refine ⟨sweptPage_eraseFlash (hm.1 rfl) ht, fun q hq x h1 h2 => ?_, .inr rfl⟩
    exact (rewrites_eraseFlash w.flash p T).outside x (by simp only [base] at *; omega)
  · rw [he] at he'
    cases he'

/-! ### All pages -/

/-- What `eraseOldItem` leaves. -/
structure SweptAll (w w' : NvsWorld) (nsIndex datatype : UInt8) (key : List UInt8) : Prop where
  /-- No written entry matches. -/
  noHit : NoHit w'.flash nsIndex datatype key
  pages : ∀ p < 8, SweptPage w.flash w'.flash nsIndex datatype key p
  /-- The cache does not answer for the key. -/
  cache : ∀ env, (∃ p < 8, HasHit w.flash nsIndex datatype key p) → getFromCache env nsIndex key w'.ram = 0

/-- What is written and matches is swept by the scan. -/
theorem SweptPage.noHit (hfit : HitsFitPage f nsIndex datatype key p) (h : SweptPage f g nsIndex datatype key p) {i : ℕ}
    (hi : i < 126) (hw : entryAt g p i = .written) : ¬ Hit g nsIndex datatype key p i := by
  intro hhit
  rw [Hit, itemAt_slots hi h.slot] at hhit
  rw [h.entry i (by omega)] at hw
  split_ifs at hw with hs
  apply hs
  rcases marked_or_covered (P := Hit f nsIndex datatype key p) (l := spanAt f p) hi hw hhit with hmem | hcov
  · have := (hfit i hi hw hhit).1
    exact ⟨i, hmem, le_rfl, by omega⟩
  · exact hcov

theorem wp_eraseOldItem_swept (h : HitsFit w.flash nsIndex datatype key) :
    wp (fun _ _ => True) (fun _ w' => SweptAll w w' nsIndex datatype key) (fun _ _ => False)
      (eraseOldItem nsIndex datatype key) w := by
  rw [eraseOldItem]
  -- the pages before `k` are swept, the pages from `k` on untouched
  refine wp_post (wp_range (fun k _ w' => (∀ p < k, SweptPage w.flash w'.flash nsIndex datatype key p) ∧
    (∀ p, k ≤ p → ∀ x, base p ≤ x → x < base p + 4096 → w'.flash x = w.flash x) ∧
    ∀ env, (∃ p < k, HasHit w.flash nsIndex datatype key p) → getFromCache env nsIndex key w'.ram = 0)
    (fun k hk _ w' inv => ?_) ⟨fun p hp => by omega, fun _ _ _ _ _ => rfl, ?_⟩) ?_
  · obtain ⟨hdone, hrest, hcache⟩ := inv
    have hpage := hrest k le_rfl
    refine wp_mono (wp_erasePage_swept (hitsFit_page (fun x h1 h2 => (hpage x h1 h2).symm) (h k hk)) hk)
      (fun _ _ h => h) ?_ fun _ _ h => h.elim
    rintro - w'' ⟨hswept, hother, hram⟩
    refine ⟨fun p hp => ?_, fun p hp x h1 h2 => ?_, fun env hex => ?_⟩
    · by_cases hpk : p = k
      · subst hpk
        exact hswept.congr hpage fun _ _ _ => rfl
      · exact (hdone p (by omega)).congr (fun _ _ _ => rfl) fun x h1 h2 => (hother p hpk x h1 h2).symm
    · rw [hother p (by omega) x h1 h2, hrest p (by omega) x h1 h2]
    · rcases hram with ⟨hram, hno⟩ | hram
      · -- the match was on a page before
        rw [hram]
        apply hcache env
        obtain ⟨p, hp, hhit⟩ := hex
        rw [hasHit_page hpage] at hno
        have hpk : p ≠ k := fun e => hno (e ▸ hhit)
        exact ⟨p, by omega, hhit⟩
      · rw [hram, getFromCache_invalidateCache]
  · rintro - ⟨p, hp, -⟩
    omega
  · rintro - w' ⟨hdone, -, hcache⟩
    exact ⟨fun p hp i hi hw => (hdone p hp).noHit (h p hp) hi hw, hdone, hcache⟩

/-- On every flash whose matching entries stay inside their pages `eraseOldItem`
returns and erases exactly the entries swept. -/
theorem eraseOldItem_exact (h : HitsFit w.flash nsIndex datatype key) :
    ∃ w', (eraseOldItem nsIndex datatype key).run w = (.ok (), w') ∧ SweptAll w w' nsIndex datatype key := by
  have hw := wp_run (wp_eraseOldItem_swept h)
  rcases hr : (eraseOldItem nsIndex datatype key).run w with ⟨e | ⟨⟩, w'⟩
  · rw [hr] at hw
    exact hw.elim
  · rw [hr] at hw
    exact ⟨w', rfl, hw⟩

theorem eraseOldItem_exact_factory : ∃ w w',
    ((Call.set (.scalar .u8 7#8) 10 keyA).prog (.built []) 1).run factory = (.ok (.code espOk), w) ∧
      (eraseOldItem 10 ItemType.any.code keyA.bytes).run w = (.ok (), w') ∧ SweptAll w w' 10 ItemType.any.code keyA.bytes := by
  have hc := refines_factory.faithful (.built []) (c := .set (.scalar .u8 7#8) 10 keyA) (by decide)
  have h := refines_factory.next hc (show (Store.empty.step 1 _).1 = .ok (.code espOk) by decide)
  have hr := (refines_factory.run hc 1).trans (show _ = Except.ok (.code espOk) by decide)
  obtain ⟨w', hw'⟩ := eraseOldItem_exact ((h.abs.clear (by decide) 10 ItemType.any.code keyA.bytes).hitsFit h.abs.sound.packed)
  exact ⟨_, w', run_eq hr, hw'⟩

end Esp8266Sdk.Nvs
