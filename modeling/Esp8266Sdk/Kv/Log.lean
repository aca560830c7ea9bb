import Mathlib.Tactic.Basic
import Mathlib.Tactic.Common
import Mathlib.Data.List.Range

/-! A log-structured key-value store. Entries are kept in the order they were
stored; a lookup answers the oldest entry of its name, a store appends behind
all others, and entries are dropped in place. -/

namespace Esp8266Sdk.Kv

variable {ν κ α : Type}

/-- A value of some kind under a name. -/
structure Entry (ν κ α : Type) where
  name : ν
  kind : κ
  value : α
  deriving DecidableEq

/-- Entries, oldest first. -/
abbrev Log (ν κ α : Type) := List (Entry ν κ α)

namespace Log

/-- The oldest entry of a name, of whatever kind. -/
def lookup [DecidableEq ν] (l : Log ν κ α) (n : ν) : Option (Entry ν κ α) := l.find? fun e => e.name = n

def put (l : Log ν κ α) (e : Entry ν κ α) : Log ν κ α := l ++ [e]

/-- Drop the entries that meet `P`. -/
def drop (l : Log ν κ α) (P : Entry ν κ α → Prop) [DecidablePred P] : Log ν κ α := l.filter fun e => ¬ P e

variable {l : Log ν κ α} {e : Entry ν κ α} {n : ν} {P : Entry ν κ α → Prop} [DecidablePred P]

theorem mem_put {x : Entry ν κ α} : x ∈ l.put e ↔ x ∈ l ∨ x = e := by simp [put]

theorem mem_drop {x : Entry ν κ α} : x ∈ l.drop P ↔ x ∈ l ∧ ¬ P x := by simp [drop]

variable [DecidableEq ν]

theorem lookup_name (h : l.lookup n = some e) : e.name = n := by
  simpa using List.find?_some h

theorem lookup_mem (h : l.lookup n = some e) : e ∈ l := List.mem_of_find?_eq_some h

theorem lookup_eq_none : l.lookup n = none ↔ ∀ e ∈ l, e.name ≠ n := by simp [lookup]

theorem lookup_put (l : Log ν κ α) (e : Entry ν κ α) (n : ν) :
    (l.put e).lookup n = (l.lookup n).or (if e.name = n then some e else none) := by
  rw [lookup, put, List.find?_append]
  by_cases h : e.name = n <;> simp [lookup, h]

theorem lookup_put_other (l : Log ν κ α) (h : e.name ≠ n) : (l.put e).lookup n = l.lookup n := by
  rw [lookup_put, if_neg h, Option.or_none]

/-- An entry that is found and kept is still found. -/
theorem lookup_drop_of_some (h : l.lookup n = some e) (he : ¬ P e) : (l.drop P).lookup n = some e := by
  induction l with
  | nil => cases h
  | cons x l ih =>
    rw [lookup, List.find?_cons] at h
    by_cases hx : x.name = n
    · simp only [hx, decide_true, Option.some.injEq] at h
      subst h
      simp [drop, lookup, he, hx]
    · simp only [hx, decide_false] at h
      have := ih h
      rw [drop, List.filter_cons]
      split_ifs
      · rwa [lookup, List.find?_cons_of_neg (by simpa using hx)]
      · exact this

/-- Entries of other names are found as before. -/
theorem lookup_drop_other (h : ∀ e ∈ l, e.name = n → ¬ P e) : (l.drop P).lookup n = l.lookup n := by
  cases hl : l.lookup n with
  | none =>
    rw [lookup_eq_none] at hl ⊢
    exact fun e he => hl e (mem_drop.1 he).1
  | some e => exact lookup_drop_of_some hl (h e (lookup_mem hl) (lookup_name hl))

end Log

end Esp8266Sdk.Kv
