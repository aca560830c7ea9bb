import Esp8266Sdk.Kv.Log
import Mathlib.Data.List.Forall2

/-! Two logs whose entries are related one to one, in the same order. What the
operations do depends on names and on the dropped property, so a relation that
keeps these is kept by each of them. -/

namespace Esp8266Sdk.Kv.Log

open List

variable {ν κ α : Type} {R : Entry ν κ α → Entry ν κ α → Prop} {l l' : Log ν κ α}

theorem related_put (h : Forall₂ R l l') {e e' : Entry ν κ α} (he : R e e') : Forall₂ R (l.put e) (l'.put e') :=
  rel_append h (.cons he .nil)

theorem related_drop (h : Forall₂ R l l') {P : Entry ν κ α → Prop} [DecidablePred P]
    (hP : ∀ e e', R e e' → (P e ↔ P e')) : Forall₂ R (l.drop P) (l'.drop P) := by
  refine rel_filter (fun e e' he => ?_) h
  simpa using not_congr (hP e e' he)

theorem related_lookup [DecidableEq ν] (h : Forall₂ R l l') (hn : ∀ e e', R e e' → e.name = e'.name) (n : ν) :
    Option.Rel R (l.lookup n) (l'.lookup n) := by
  induction h with
  | nil => exact .none
  | @cons e e' l l' he _ ih =>
    rw [lookup, lookup, List.find?_cons, List.find?_cons, hn e e' he]
    by_cases hname : e'.name = n
    · simp only [hname, decide_true]
      exact .some he
    · simp only [hname, decide_false]
      exact ih

end Esp8266Sdk.Kv.Log
