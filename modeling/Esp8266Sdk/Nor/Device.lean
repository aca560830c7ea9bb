import Mathlib.Tactic.Basic
import Mathlib.Tactic.Common

/-! Code that drives a device. A call changes the state of the device and may be
refused; a run ends in a result, or does not end. `Ends m c Q` says that the run
of `m` from the state `c` ends, in a result and a state that satisfy `Q`. -/

namespace Esp8266Sdk.Nor

/-- Code over device states `χ` with results `α`. -/
abbrev DevM (χ α : Type) := StateT χ Option α

namespace DevM

variable {χ α β : Type}

/-- The result of a code from a state and the state it leaves, if it ends. -/
def exec (m : DevM χ α) (c : χ) : Option (α × χ) := m c

/-- A call of the device. -/
def call (f : χ → α × χ) : DevM χ α := fun c => some (f c)

/-- A run that does not end. -/
def spin : DevM χ α := fun _ => none

def Ends (m : DevM χ α) (c : χ) (Q : α → χ → Prop) : Prop := ∃ a c', exec m c = some (a, c') ∧ Q a c'

@[simp] theorem exec_pure (a : α) (c : χ) : exec (pure a : DevM χ α) c = some (a, c) := rfl

@[simp] theorem exec_call (f : χ → α × χ) (c : χ) : exec (call f) c = some (f c) := rfl

@[simp] theorem exec_spin (c : χ) : exec (spin : DevM χ α) c = none := rfl

theorem exec_bind (m : DevM χ α) (k : α → DevM χ β) (c : χ) :
    exec (m >>= k) c = (exec m c).bind fun r => exec (k r.1) r.2 := rfl

theorem exec_bind_eq_some {m : DevM χ α} {k : α → DevM χ β} {c : χ} {r : β × χ} :
    exec (m >>= k) c = some r ↔ ∃ a c', exec m c = some (a, c') ∧ exec (k a) c' = some r := by
  rw [exec_bind, Option.bind_eq_some_iff]
  constructor
  · rintro ⟨⟨a, c'⟩, h⟩
    exact ⟨a, c', h⟩
  · rintro ⟨a, c', h⟩
    exact ⟨(a, c'), h⟩

namespace Ends

variable {m : DevM χ α} {c : χ} {Q Q' : α → χ → Prop}

theorem pure {a : α} (h : Q a c) : Ends (Pure.pure a : DevM χ α) c Q := ⟨a, c, rfl, h⟩

theorem call {f : χ → α × χ} (h : Q (f c).1 (f c).2) : Ends (DevM.call f) c Q := ⟨_, _, rfl, h⟩

theorem bind {k : α → DevM χ β} {R : β → χ → Prop} (h : Ends m c fun a c' => Ends (k a) c' R) : Ends (m >>= k) c R := by
  obtain ⟨a, c', hr, b, c'', hk, h⟩ := h
  exact ⟨b, c'', exec_bind_eq_some.2 ⟨a, c', hr, hk⟩, h⟩

theorem imp (h : Ends m c Q) (hq : ∀ a c', Q a c' → Q' a c') : Ends m c Q' := by
  obtain ⟨a, c', hr, h⟩ := h
  exact ⟨a, c', hr, hq a c' h⟩

/-- A sequence of two codes, given what the first one ends with. -/
theorem seq {k : α → DevM χ β} {R : β → χ → Prop} (h : Ends m c Q) (hk : ∀ a c', Q a c' → Ends (k a) c' R) :
    Ends (m >>= k) c R := bind (h.imp hk)

end Ends

end DevM

end Esp8266Sdk.Nor
