import Esp8266Sdk.Nvs.Blocks

/-! The representation invariant: pages fill up in order, every page is a
sequence of blocks followed by erased slots, and no two blocks hold the same
namespace, key and type. It survives the two changes the store makes to its
items: blocks are erased, and a new block is stored behind all others. -/

namespace Esp8266Sdk.Nvs

open Nor

/-- The pages before `a` are full, page `a` is active or erased, those behind it are erased. -/
structure Ordered (f : Flash) (a : ℕ) : Prop where
  lt : a < 8
  full : ∀ p < a, stateAt f p = PageState.full.word
  here : stateAt f a = PageState.active.word ∨ Blank f a
  fresh : ∀ p, a < p → p < 8 → Blank f p

/-- The slot of entry `i` of page `p` is erased. -/
def BlankSlot (f : Flash) (p i : ℕ) : Prop := ∀ x, slotAddr p i ≤ x → x < slotAddr p i + 32 → f x = 0xff

/-- Every page is a sequence of sound blocks and then erased slots. -/
structure Packed (f : Flash) : Prop where
  blocks : ∀ p < 8, Blocks f p (Head f p)
  crc : ∀ p < 8, ∀ i, Head f p i → (itemAt f p i).crc32 = calculateCrc32 (itemAt f p i)
  chunk : ∀ p < 8, ∀ i, Head f p i → (itemAt f p i).chunkIndex = 0xff
  blank : ∀ p < 8, ∀ i < 126, entryAt f p i = .empty → BlankSlot f p i
  suffix : ∀ p < 8, ∀ i j, i ≤ j → j < 126 → entryAt f p i = .empty → entryAt f p j = .empty

/-- No two blocks hold the same namespace, key and type. -/
def Distinct (f : Flash) : Prop :=
  ∀ p < 8, ∀ q < 8, ∀ i j, Head f p i → Head f q j → (itemAt f p i).nsIndex = (itemAt f q j).nsIndex →
    (itemAt f p i).keyString = (itemAt f q j).keyString → (itemAt f p i).datatype = (itemAt f q j).datatype →
    p = q ∧ i = j

theorem Blocks.heads {f : Flash} {p : ℕ} {H : ℕ → Prop} (h : Blocks f p H) : Blocks f p (Head f p) := by
  have e : H = Head f p := funext fun i => propext h.head_iff
  rwa [e] at h

/-- One block covers an entry. -/
theorem Blocks.unique {f : Flash} {p : ℕ} {H : ℕ → Prop} (h : Blocks f p H) {i j k : ℕ} (hi : H i) (hj : H j)
    (hik : i ≤ k) (hki : k < i + spanAt f p i) (hjk : j ≤ k) (hkj : k < j + spanAt f p j) : i = j := by
  rcases Nat.lt_trichotomy i j with hlt | heq | hgt
  · have := h.disjoint hi hj hlt
    omega
  · exact heq
  · have := h.disjoint hj hi hgt
    omega

theorem Ordered.congr {f g : Flash} {a : ℕ} (h : Ordered f a) (hs : ∀ p < 8, stateAt g p = stateAt f p)
    (hb : ∀ p < 8, Blank f p → Blank g p) : Ordered g a where
  lt := h.lt
  full := fun p hp => by rw [hs p (by have := h.lt; omega), h.full p hp]
  here := h.here.imp (fun ha => by rw [hs a h.lt, ha]) (hb a h.lt)
  fresh := fun p hp hp8 => hb p hp8 (h.fresh p hp hp8)

/-! ### Erasing blocks -/

/-- `g` is `f` with the blocks at `R` erased. -/
structure Erases (f g : Flash) (R : ℕ → ℕ → Prop) : Prop where
  head : ∀ p < 8, ∀ i, R p i → Head f p i
  gone : ∀ p < 8, ∀ i j, R p i → i ≤ j → j < i + spanAt f p i → entryAt g p j = .erased
  kept : ∀ p < 8, ∀ j < 126, (∀ i, R p i → i ≤ j → j < i + spanAt f p i → False) → entryAt g p j = entryAt f p j
  slot : ∀ p < 8, ∀ x, base p + 64 ≤ x → x < base p + 4096 → g x = f x

theorem itemAt_slots {f g : Flash} {p i : ℕ} (hi : i < 126)
    (h : ∀ x, base p + 64 ≤ x → x < base p + 4096 → g x = f x) : itemAt g p i = itemAt f p i :=
  itemAt_congr fun x h1 h2 => h x (by simp only [slotAddr] at *; omega) (by simp only [slotAddr] at *; omega)

namespace Erases

variable {f g : Flash} {R : ℕ → ℕ → Prop} (e : Erases f g R) (hf : Packed f)
include e

theorem item {p i : ℕ} (hp : p < 8) (hi : i < 126) : itemAt g p i = itemAt f p i := itemAt_slots hi (e.slot p hp)

theorem span {p i : ℕ} (hp : p < 8) (hi : i < 126) : spanAt g p i = spanAt f p i := by rw [spanAt, spanAt, e.item hp hi]

include hf

theorem blocks {p : ℕ} (hp : p < 8) : Blocks g p fun i => Head f p i ∧ ¬ R p i := by
  have hb := hf.blocks p hp
  constructor
  · intro i hi
    rw [e.span hp (hb.lt hi.1)]
    exact hb.pos hi.1
  · intro i hi
    rw [e.span hp (hb.lt hi.1)]
    exact hb.fits hi.1
  · intro i j hi hij hji
    rw [e.span hp (hb.lt hi.1)] at hji
    have := hb.fits hi.1
    rw [e.kept p hp j (by omega), hb.written hi.1 hij hji]
    intro k hk hkj hjk
    exact hi.2 (hb.unique hi.1 (e.head p hp k hk) hij hji hkj hjk ▸ hk)
  · intro i j hi hj hij
    rw [e.span hp (hb.lt hi.1)]
    exact hb.disjoint hi.1 hj.1 hij
  · intro j hj hw
    have hno : ∀ i, R p i → i ≤ j → j < i + spanAt f p i → False := by
      intro i hi h1 h2
      rw [e.gone p hp i j hi h1 h2] at hw
      cases hw
    rw [e.kept p hp j hj hno] at hw
    obtain ⟨i, hi, hij, hji⟩ := hb.cover hj hw
    exact ⟨i, ⟨hi, fun hr => hno i hr hij hji⟩, hij, by rwa [e.span hp (hb.lt hi)]⟩

/-- The heads left. -/
theorem head_iff {p i : ℕ} (hp : p < 8) : Head g p i ↔ Head f p i ∧ ¬ R p i := (e.blocks hf hp).head_iff.symm

theorem empty_iff {p j : ℕ} (hp : p < 8) (hj : j < 126) : entryAt g p j = .empty ↔ entryAt f p j = .empty := by
  by_cases hno : ∀ i, R p i → i ≤ j → j < i + spanAt f p i → False
  · rw [e.kept p hp j hj hno]
  · push Not at hno
    obtain ⟨i, hi, h1, h2, -⟩ := hno
    rw [e.gone p hp i j hi h1 h2, (hf.blocks p hp).written (e.head p hp i hi) h1 h2]
    decide

theorem packed : Packed g where
  blocks := fun p hp => (e.blocks hf hp).heads
  crc := fun p hp i hi => by
    rw [e.item hp hi.1]
    exact hf.crc p hp i ((e.head_iff hf hp).1 hi).1
  chunk := fun p hp i hi => by
    rw [e.item hp hi.1]
    exact hf.chunk p hp i ((e.head_iff hf hp).1 hi).1
  blank := fun p hp i hi he x h1 h2 => by
    rw [e.slot p hp x (by simp only [slotAddr] at *; omega) (by simp only [slotAddr] at *; omega)]
    exact hf.blank p hp i hi ((e.empty_iff hf hp hi).1 he) x h1 h2
  suffix := fun p hp i j hij hj he =>
    (e.empty_iff hf hp hj).2 (hf.suffix p hp i j hij hj ((e.empty_iff hf hp (by omega)).1 he))

theorem distinct (hd : Distinct f) : Distinct g := by
  intro p hp q hq i j hi hj
  rw [e.item hp hi.1, e.item hq hj.1]
  exact hd p hp q hq i j ((e.head_iff hf hp).1 hi).1 ((e.head_iff hf hq).1 hj).1

omit e hf in
/-- Where nothing is erased the heads are the same. -/
theorem head_same (e : Erases f g fun _ _ => False) (hf : Packed f) {p i : ℕ} (hp : p < 8) :
    Head g p i ↔ Head f p i := by
  rw [e.head_iff hf hp, and_iff_left id]

end Erases

/-! ### Storing a block -/

/-- `g` is `f` with a block of `n` entries stored at entry `t` of page `p`,
behind the entries in use. -/
structure Stores (f g : Flash) (p t n : ℕ) : Prop where
  page : p < 8
  pos : 1 ≤ n
  fits : t + n ≤ 126
  span : spanAt g p t = n
  free : ∀ j, t ≤ j → j < t + n → entryAt f p j = .empty
  used : ∀ j < t, entryAt f p j ≠ .empty
  entry : ∀ j, t ≤ j → j < t + n → entryAt g p j = .written
  other : ∀ q < 8, ∀ j < 126, (q ≠ p ∨ j < t ∨ t + n ≤ j) → entryAt g q j = entryAt f q j
  slot : ∀ q < 8, ∀ x, base q + 64 ≤ x → x < base q + 4096 → (q ≠ p ∨ x < slotAddr p t ∨ slotAddr p (t + n) ≤ x) →
    g x = f x

namespace Stores

variable {f g : Flash} {p t n : ℕ} (e : Stores f g p t n) (hf : Packed f)
include e

/-- The slots of other entries are as they were. -/
theorem slot_other {q i x : ℕ} (hq : q < 8) (hi : i < 126) (ho : q ≠ p ∨ i < t ∨ t + n ≤ i) (h1 : slotAddr q i ≤ x)
    (h2 : x < slotAddr q i + 32) : g x = f x := by
  apply e.slot q hq x (by simp only [slotAddr] at *; omega) (by simp only [slotAddr] at *; omega)
  rcases ho with hqp | ho
  · exact .inl hqp
  · by_cases hqp : q = p
    · rw [hqp] at h1 h2
      simp only [slotAddr] at *
      omega
    · exact .inl hqp

theorem item {q i : ℕ} (hq : q < 8) (hi : i < 126) (ho : q ≠ p ∨ i < t ∨ t + n ≤ i) : itemAt g q i = itemAt f q i :=
  itemAt_congr fun _ h1 h2 => e.slot_other hq hi ho h1 h2

include hf

/-- The old blocks are not where the new one is. -/
theorem old {q i : ℕ} (hq : q < 8) (hi : Head f q i) : q ≠ p ∨ i + spanAt f q i ≤ t := by
  by_contra hno
  push Not at hno
  obtain ⟨rfl, hlt⟩ := hno
  have hb := hf.blocks q hq
  have hpos := hb.pos hi
  have ht : entryAt f q t = .empty := e.free t le_rfl (by have := e.pos; omega)
  rcases Nat.lt_or_ge t i with hti | hti
  · have := hf.suffix q hq t i hti.le hi.1 ht
    rw [hi.2.1] at this
    cases this
  · rw [hb.written hi hti hlt] at ht
    cases ht

theorem blocks {q : ℕ} (hq : q < 8) : Blocks g q fun i => Head f q i ∨ q = p ∧ i = t := by
  have hb := hf.blocks q hq
  have hspan : ∀ {i}, Head f q i → spanAt g q i = spanAt f q i := by
    intro i hi
    have := hb.pos hi
    rw [spanAt, spanAt, e.item hq hi.1 ((e.old hf hq hi).imp_right fun h => .inl (by omega))]
  have hpos := e.pos
  have hfits := e.fits
  constructor
  · rintro i (hi | ⟨rfl, rfl⟩)
    · rw [hspan hi]
      exact hb.pos hi
    · rw [e.span]
      exact e.pos
  · rintro i (hi | ⟨rfl, rfl⟩)
    · rw [hspan hi]
      exact hb.fits hi
    · rw [e.span]
      exact e.fits
  · rintro i j (hi | ⟨rfl, rfl⟩) hij hji
    · rw [hspan hi] at hji
      have := hb.fits hi
      rw [e.other q hq j (by omega) ((e.old hf hq hi).imp_right fun h => .inl (by omega))]
      exact hb.written hi hij hji
    · rw [e.span] at hji
      exact e.entry j hij hji
  · rintro i j (hi | ⟨rfl, rfl⟩) (hj | ⟨hqp, rfl⟩) hij
    · rw [hspan hi]
      exact hb.disjoint hi hj hij
    · rw [hspan hi]
      exact (e.old hf hq hi).resolve_left fun h => h hqp
    · have := (e.old hf hq hj).resolve_left fun h => h rfl
      omega
    · omega
  · intro j hj hw
    by_cases hnew : q = p ∧ t ≤ j ∧ j < t + n
    · obtain ⟨rfl, h1, h2⟩ := hnew
      exact ⟨t, .inr ⟨rfl, rfl⟩, h1, by rwa [e.span]⟩
    · rw [e.other q hq j hj (by omega)] at hw
      obtain ⟨i, hi, hij, hji⟩ := hb.cover hj hw
      exact ⟨i, .inl hi, hij, by rwa [hspan hi]⟩

theorem head_iff {q i : ℕ} (hq : q < 8) : Head g q i ↔ Head f q i ∨ q = p ∧ i = t := (e.blocks hf hq).head_iff.symm

theorem item_old {q i : ℕ} (hq : q < 8) (hi : Head f q i) : itemAt g q i = itemAt f q i := by
  have := (hf.blocks q hq).pos hi
  exact e.item hq hi.1 ((e.old hf hq hi).imp_right fun h => .inl (by omega))

theorem packed (hcrc : (itemAt g p t).crc32 = calculateCrc32 (itemAt g p t))
    (hchunk : (itemAt g p t).chunkIndex = 0xff) : Packed g where
  blocks := fun q hq => (e.blocks hf hq).heads
  crc := fun q hq i hi => by
    rcases (e.head_iff hf hq).1 hi with h | ⟨rfl, rfl⟩
    · rw [e.item_old hf hq h]
      exact hf.crc q hq i h
    · exact hcrc
  chunk := fun q hq i hi => by
    rcases (e.head_iff hf hq).1 hi with h | ⟨rfl, rfl⟩
    · rw [e.item_old hf hq h]
      exact hf.chunk q hq i h
    · exact hchunk
  blank := fun q hq i hi he x h1 h2 => by
    have hout : q ≠ p ∨ i < t ∨ t + n ≤ i := by
      by_contra hin
      push Not at hin
      obtain ⟨rfl, h1, h2⟩ := hin
      rw [e.entry i h1 h2] at he
      cases he
    rw [e.other q hq i hi hout] at he
    rw [e.slot_other hq hi hout h1 h2, hf.blank q hq i hi he x h1 h2]
  suffix := fun q hq i j hij hj he => by
    have hout : q ≠ p ∨ i < t ∨ t + n ≤ i := by
      by_contra hin
      push Not at hin
      obtain ⟨rfl, h1, h2⟩ := hin
      rw [e.entry i h1 h2] at he
      cases he
    rw [e.other q hq i (by omega) hout] at he
    have hafter : q ≠ p ∨ t + n ≤ i := by
      by_cases hqp : q = p
      · rw [hqp] at he
        exact .inr ((hout.resolve_left fun h => h hqp).resolve_left fun hlt => e.used i hlt he)
      · exact .inl hqp
    rw [e.other q hq j hj (by omega)]
    exact hf.suffix q hq i j hij hj he

theorem distinct (hd : Distinct f) (hnew : ∀ q < 8, ∀ i, Head f q i → (itemAt f q i).nsIndex = (itemAt g p t).nsIndex →
    (itemAt f q i).keyString = (itemAt g p t).keyString → (itemAt f q i).datatype ≠ (itemAt g p t).datatype) :
    Distinct g := by
  intro q hq r hr i j hi hj
  rcases (e.head_iff hf hq).1 hi with h | ⟨rfl, rfl⟩ <;> rcases (e.head_iff hf hr).1 hj with h' | ⟨rfl, rfl⟩
  · rw [e.item_old hf hq h, e.item_old hf hr h']
    exact hd q hq r hr i j h h'
  · rw [e.item_old hf hq h]
    exact fun h1 h2 h3 => absurd h3 (hnew q hq i h h1 h2)
  · rw [e.item_old hf hr h']
    exact fun h1 h2 h3 => absurd h3.symm (hnew r hr j h' h1.symm h2.symm)
  · exact fun _ _ _ => ⟨rfl, rfl⟩

end Stores

end Esp8266Sdk.Nvs
