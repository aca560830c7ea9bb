import Esp8266Sdk.Nvs.View

/-! Blocks of entries. An item of span `n` takes `n` entries, its head and its
continuation entries, all marked written. Walking a page from its first entry
tells heads from continuations; a page is well formed where the written entries
are exactly the entries of disjoint blocks. -/

namespace Esp8266Sdk.Nvs

open Nor

def spanAt (f : Flash) (p i : ℕ) : ℕ := (itemAt f p i).span.toNat

/-- The entries from `i` on that the block open at `i` still claims. -/
def pending (f : Flash) (p : ℕ) : ℕ → ℕ
  | 0 => 0
  | i + 1 =>
    if pending f p i = 0 then if entryAt f p i = .written then spanAt f p i - 1 else 0 else pending f p i - 1

/-- Entry `i` is the first of its block. -/
def Head (f : Flash) (p i : ℕ) : Prop := i < 126 ∧ entryAt f p i = .written ∧ pending f p i = 0

instance (f : Flash) (p i : ℕ) : Decidable (Head f p i) := inferInstanceAs (Decidable (_ ∧ _))

/-- The written entries of page `p` are the disjoint blocks that start at `H`. -/
structure Blocks (f : Flash) (p : ℕ) (H : ℕ → Prop) : Prop where
  pos : ∀ {i}, H i → 1 ≤ spanAt f p i
  fits : ∀ {i}, H i → i + spanAt f p i ≤ 126
  written : ∀ {i j}, H i → i ≤ j → j < i + spanAt f p i → entryAt f p j = .written
  disjoint : ∀ {i j}, H i → H j → i < j → i + spanAt f p i ≤ j
  cover : ∀ {j}, j < 126 → entryAt f p j = .written → ∃ i, H i ∧ i ≤ j ∧ j < i + spanAt f p i

namespace Blocks

variable {f : Flash} {p : ℕ} {H : ℕ → Prop} (h : Blocks f p H)
include h

theorem head_written {i : ℕ} (hi : H i) : entryAt f p i = .written :=
  h.written hi le_rfl (by have := h.pos hi; omega)

theorem lt {i : ℕ} (hi : H i) : i < 126 := by
  have := h.pos hi
  have := h.fits hi
  omega

/-- The walk is inside a block exactly where a block covers the entry. -/
theorem pending_eq {i : ℕ} (hi : i ≤ 126) :
    (∀ j, H j → j < i → i < j + spanAt f p j → pending f p i = j + spanAt f p j - i) ∧
      ((∀ j, H j → j < i → j + spanAt f p j ≤ i) → pending f p i = 0) := by
  induction i with
  | zero => exact ⟨fun j _ hj => by omega, fun _ => rfl⟩
  | succ i ih =>
    have ih := ih (by omega)
    constructor
    · intro j hj hji hij
      rcases Nat.lt_or_ge j i with hlt | hge
      · have hp := ih.1 j hj hlt (by omega)
        rw [pending, if_neg (by omega), hp]
        omega
      · obtain rfl : j = i := by omega
        have h0 := ih.2 fun k hk hkj => h.disjoint hk hj hkj
        rw [pending, if_pos h0, if_pos (h.head_written hj)]
        omega
    · intro hno
      by_cases hin : ∃ j, H j ∧ j < i ∧ i < j + spanAt f p j
      · obtain ⟨j, hj, hji, hij⟩ := hin
        have hp := ih.1 j hj hji hij
        have := hno j hj (by omega)
        rw [pending, if_neg (by omega), hp]
        omega
      · have h0 := ih.2 fun j hj hji => Nat.le_of_not_lt fun hij => hin ⟨j, hj, hji, hij⟩
        rw [pending, if_pos h0]
        split_ifs with hw
        · obtain ⟨j, hj, hji, hij⟩ := h.cover (by omega) hw
          obtain rfl : j = i := by
            by_contra hne
            exact hin ⟨j, hj, by omega, hij⟩
          have := hno j hj (by omega)
          omega
        · rfl

/-- The blocks of a page are determined by its bytes. -/
theorem head_iff {i : ℕ} : H i ↔ Head f p i := by
  constructor
  · intro hi
    exact ⟨h.lt hi, h.head_written hi, (h.pending_eq (h.lt hi).le).2 fun j hj hji => h.disjoint hj hi hji⟩
  · rintro ⟨hi, hw, h0⟩
    obtain ⟨j, hj, hji, hij⟩ := h.cover hi hw
    rcases Nat.lt_or_ge j i with hlt | hge
    · have := (h.pending_eq hi.le).1 j hj hlt hij
      omega
    · rwa [show i = j by omega]

end Blocks

/-! ### Pages without items -/

/-- No entry of the page is written. -/
def NoWritten (f : Flash) (p : ℕ) : Prop := ∀ i < 126, entryAt f p i ≠ .written

instance (f : Flash) (p : ℕ) : Decidable (NoWritten f p) := inferInstanceAs (Decidable (∀ _ < _, _))

theorem entryAt_page {f g : Flash} {p i : ℕ} (hi : i < 128)
    (h : ∀ x, base p ≤ x → x < base p + 4096 → f x = g x) : entryAt f p i = entryAt g p i := by
  rw [entryAt_eq f p hi, entryAt_eq g p hi, h _ (by omega) (by omega)]

theorem noWritten_page {f g : Flash} {p : ℕ} (h : ∀ x, base p ≤ x → x < base p + 4096 → f x = g x) (hn : NoWritten g p) :
    NoWritten f p := by
  intro i hi
  rw [entryAt_page (by omega) h]
  exact hn i hi

end Esp8266Sdk.Nvs
