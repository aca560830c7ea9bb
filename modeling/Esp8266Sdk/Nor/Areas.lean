import Esp8266Sdk.Nor.Torn

/-! What is read from an area of a flash after a step, inside or outside of what
the step changed. -/

namespace Esp8266Sdk.Nor.Flash

variable {f g : Flash} {a b n : ℕ} {bs : List UInt8}

/-- `n` erased bytes. -/
def blank (n : ℕ) : List UInt8 := List.replicate n 0xff

@[simp] theorem length_blank : (blank n).length = n := List.length_replicate

theorem read_eq_iff : f.read a bs.length = bs ↔ ∀ i, ∀ h : i < bs.length, f (a + i) = bs[i] := by
  constructor
  · intro e i hi
    have hi' : i < (f.read a bs.length).length := by rwa [length_read]
    rw [← getElem_read f a bs.length i hi']
    exact List.getElem_of_eq e hi'
  · intro e
    apply List.ext_getElem (length_read _ _ _)
    intro i hi h
    rw [getElem_read, e i h]

theorem read_eq_blank_iff : f.read a n = blank n ↔ ∀ x, a ≤ x → x < a + n → f x = 0xff := by
  have e : f.read a (blank n).length = blank n ↔ ∀ i, ∀ h : i < (blank n).length, f (a + i) = (blank n)[i] := read_eq_iff
  rw [show f.read a (blank n).length = f.read a n by rw [length_blank]] at e
  rw [e]
  constructor
  · intro h x hx hxn
    obtain ⟨i, rfl⟩ := Nat.exists_eq_add_of_le hx
    rw [h i (by rw [length_blank]; omega)]
    exact List.getElem_replicate _
  · intro h i hi
    rw [length_blank] at hi
    rw [h _ (by omega) (by omega)]
    exact (List.getElem_replicate _).symm

theorem read_program_outside (h : a + n ≤ b ∨ b + bs.length ≤ a) : (f.program b bs).read a n = f.read a n :=
  read_congr fun x _ _ => program_outside (by omega)

theorem read_erase_outside {m : ℕ} (h : a + n ≤ b ∨ b + m ≤ a) : (f.erase b m).read a n = f.read a n :=
  read_congr fun x _ _ => erase_outside (by omega)

theorem read_erase_inside {m : ℕ} (h : b ≤ a) (h' : a + n ≤ b + m) : (f.erase b m).read a n = blank n :=
  read_eq_blank_iff.2 fun x _ _ => erase_inside (by omega) (by omega)

/-- Bytes programmed over erased ones are read back. -/
theorem read_program_blank (h : f.read a bs.length = blank bs.length) : (f.program a bs).read a bs.length = bs := by
  rw [read_eq_iff]
  intro i hi
  rw [program_blank hi (read_eq_blank_iff.1 h _ (by omega) (by omega)), List.getD_eq_getElem _ _ hi]

/-- Bytes programmed a second time stay. -/
theorem read_program_same (h : f.read a bs.length = bs) : (f.program a bs).read a bs.length = bs := by
  conv_lhs => rw [← h]
  rw [program_read, length_read, h]

end Esp8266Sdk.Nor.Flash
