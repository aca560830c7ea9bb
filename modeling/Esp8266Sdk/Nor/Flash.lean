import Mathlib.Tactic.Basic
import Mathlib.Tactic.Common
import Mathlib.Data.List.GetD
import Mathlib.Data.List.OfFn

/-! NOR flash memory. A flash is one byte at every address. Erasing sets a block
of bytes to `0xff`; programming bitwise-ANDs bytes into what is stored, so that
between two erases a bit only ever goes from one to zero. -/

namespace Esp8266Sdk.Nor

/-- One byte at every address. -/
abbrev Flash := ℕ → UInt8

theorem and_ff (b : UInt8) : b &&& 0xff = b := UInt8.and_neg_one

theorem ff_and (b : UInt8) : 0xff &&& b = b := UInt8.neg_one_and

/-- An AND is all ones only if both sides are. -/
theorem and_eq_ff {a b : UInt8} : a &&& b = 0xff ↔ a = 0xff ∧ b = 0xff := UInt8.and_eq_neg_one_iff

namespace Flash

/-- The `n` bytes at address `a`. -/
def read (f : Flash) (a n : ℕ) : List UInt8 := (List.range n).map fun i => f (a + i)

/-- Program the bytes `bs` at address `a`. -/
def program (f : Flash) (a : ℕ) (bs : List UInt8) : Flash := fun x =>
  if a ≤ x ∧ x < a + bs.length then f x &&& bs.getD (x - a) 0xff else f x

/-- Erase the `n` bytes at address `a`. -/
def erase (f : Flash) (a n : ℕ) : Flash := fun x => if a ≤ x ∧ x < a + n then 0xff else f x

@[simp] theorem length_read (f : Flash) (a n : ℕ) : (f.read a n).length = n := by simp [read]

theorem getElem_read (f : Flash) (a n i : ℕ) (h : i < (f.read a n).length) : (f.read a n)[i] = f (a + i) := by
  simp [read]

@[simp] theorem getD_read (f : Flash) (a n i : ℕ) (d : UInt8) :
    (f.read a n).getD i d = if i < n then f (a + i) else d := by
  by_cases h : i < n <;> simp [read, List.getD_eq_getElem?_getD, h]

/-- A read depends only on the bytes it covers. -/
theorem read_congr {f g : Flash} {a n : ℕ} (h : ∀ x, a ≤ x → x < a + n → f x = g x) : f.read a n = g.read a n := by
  apply List.map_congr_left
  intro i hi
  have hin := List.mem_range.1 hi
  exact h _ (by omega) (by omega)

theorem read_add (f : Flash) (a m n : ℕ) : f.read a (m + n) = f.read a m ++ f.read (a + m) n := by
  simp [read, List.range_add, Function.comp_def, Nat.add_assoc]

theorem read_take (f : Flash) (a n k : ℕ) (h : k ≤ n) : (f.read a n).take k = f.read a k := by
  simp [read, ← List.map_take, List.take_range, Nat.min_eq_left h]

/-! ### Programming -/

theorem program_apply (f : Flash) (a : ℕ) (bs : List UInt8) (x : ℕ) :
    f.program a bs x = if a ≤ x ∧ x < a + bs.length then f x &&& bs.getD (x - a) 0xff else f x := rfl

theorem program_outside {f : Flash} {a : ℕ} {bs : List UInt8} {x : ℕ} (h : x < a ∨ a + bs.length ≤ x) :
    f.program a bs x = f x := by
  rw [program_apply, if_neg (by omega)]

theorem program_inside {f : Flash} {a : ℕ} {bs : List UInt8} {i : ℕ} (h : i < bs.length) :
    f.program a bs (a + i) = f (a + i) &&& bs.getD i 0xff := by
  rw [program_apply, if_pos (by omega), Nat.add_sub_cancel_left]

/-- Programming erased bytes stores exactly the bytes given. -/
theorem program_blank {f : Flash} {a : ℕ} {bs : List UInt8} {i : ℕ} (h : i < bs.length) (hb : f (a + i) = 0xff) :
    f.program a bs (a + i) = bs.getD i 0xff := by
  rw [program_inside h, hb, ff_and]

/-- Programming never sets a bit. -/
theorem program_ne_ff {f : Flash} {a : ℕ} {bs : List UInt8} {x : ℕ} (h : f x ≠ 0xff) : f.program a bs x ≠ 0xff := by
  rw [program_apply]
  split_ifs
  · exact fun e => h (and_eq_ff.1 e).1
  · exact h

/-- Programming all ones changes nothing. -/
theorem program_ff (f : Flash) (a : ℕ) {bs : List UInt8} (h : ∀ b ∈ bs, b = 0xff) : f.program a bs = f := by
  funext x
  rw [program_apply]
  split_ifs with hx
  · have hl : x - a < bs.length := by omega
    rw [List.getD_eq_getElem _ _ hl, h _ (List.getElem_mem hl), and_ff]
  · rfl

/-! ### Erasing -/

theorem erase_apply (f : Flash) (a n x : ℕ) : f.erase a n x = if a ≤ x ∧ x < a + n then 0xff else f x := rfl

theorem erase_inside {f : Flash} {a n x : ℕ} (h : a ≤ x) (h' : x < a + n) : f.erase a n x = 0xff := by
  rw [erase_apply, if_pos ⟨h, h'⟩]

theorem erase_outside {f : Flash} {a n x : ℕ} (h : x < a ∨ a + n ≤ x) : f.erase a n x = f x := by
  rw [erase_apply, if_neg (by omega)]

end Flash

/-- A step that changes a flash. -/
inductive Op where
  | write (a : ℕ) (bs : List UInt8)
  | erase (a n : ℕ)
  deriving DecidableEq

/-- The flash after a step. -/
def Op.apply : Op → Flash → Flash
  | .write a bs, f => f.program a bs
  | .erase a n, f => f.erase a n

@[simp] theorem Op.apply_write (a : ℕ) (bs : List UInt8) (f : Flash) : (Op.write a bs).apply f = f.program a bs := rfl

@[simp] theorem Op.apply_erase (a n : ℕ) (f : Flash) : (Op.erase a n).apply f = f.erase a n := rfl

end Esp8266Sdk.Nor
