import Esp8266Sdk.Kv.Log
import Esp8266Sdk.Nvs.FindSpec
import Esp8266Sdk.Nvs.Packed

/-! What a flash holds, read as a log: one entry for each block, in the order in
which a lookup scans them. Erasing blocks drops entries, storing a block appends
one, and where no continuation entry reads as an item asked for, the scan of
`findItem` is a lookup in the log. -/

namespace Esp8266Sdk.Nvs

open Nor Kv

/-- A namespace index and a key, an item type, and the bytes of the data area. -/
abbrev Record := Entry (UInt8 × List UInt8) UInt8 (List UInt8)

abbrev Records := Log (UInt8 × List UInt8) UInt8 (List UInt8)

/-- The data area of a block runs from the inline data to the end of its last slot. -/
def recordAt (f : Flash) (p i : ℕ) : Record :=
  ⟨((itemAt f p i).nsIndex, (itemAt f p i).keyString), (itemAt f p i).datatype,
    f.read (slotAddr p i + 24) (32 * spanAt f p i - 24)⟩

/-- The heads of one page. -/
def pageHeads (f : Flash) (p : ℕ) : List (ℕ × ℕ) := ((List.range 126).filter fun i => Head f p i).map (p, ·)

/-- The heads of the partition, in scan order. -/
def heads (f : Flash) : List (ℕ × ℕ) := (List.range 8).flatMap (pageHeads f)

/-- The log a flash holds. -/
def logOf (f : Flash) : Records := (heads f).map fun x => recordAt f x.1 x.2

theorem mem_heads {f : Flash} {x : ℕ × ℕ} : x ∈ heads f ↔ x.1 < 8 ∧ Head f x.1 x.2 := by
  obtain ⟨p, i⟩ := x
  simp only [heads, pageHeads, List.mem_flatMap, List.mem_range, List.mem_map, List.mem_filter, decide_eq_true_eq,
    Prod.mk.injEq]
  constructor
  · rintro ⟨q, hq, j, ⟨-, hh⟩, rfl, rfl⟩
    exact ⟨hq, hh⟩
  · rintro ⟨hp, hh⟩
    exact ⟨p, hp, i, ⟨hh.1, hh⟩, rfl, rfl⟩

theorem mem_logOf {f : Flash} {e : Record} : e ∈ logOf f ↔ ∃ p < 8, ∃ i, Head f p i ∧ recordAt f p i = e := by
  simp only [logOf, List.mem_map, Prod.exists, mem_heads]
  constructor
  · rintro ⟨p, i, ⟨hp, hh⟩, he⟩
    exact ⟨p, hp, i, hh, he⟩
  · rintro ⟨p, hp, i, hh, he⟩
    exact ⟨p, i, ⟨hp, hh⟩, he⟩

theorem recordAt_congr {f g : Flash} {p i : ℕ} (hs : 1 ≤ spanAt f p i)
    (h : ∀ x, slotAddr p i ≤ x → x < slotAddr p i + 32 * spanAt f p i → g x = f x) : recordAt g p i = recordAt f p i := by
  have hitem : itemAt g p i = itemAt f p i := itemAt_congr fun x h1 h2 => h x h1 (by omega)
  rw [recordAt, recordAt, spanAt, spanAt, hitem]
  congr 1
  exact Flash.read_congr fun x h1 h2 => h x (by omega) (by rw [spanAt]; omega)

/-! ### Erasing blocks -/

namespace Erases

variable {f g : Flash} {R : ℕ → ℕ → Prop} (e : Erases f g R) (hf : Packed f)
include e hf

theorem recordAt {p i : ℕ} (hp : p < 8) (hi : Head f p i) : recordAt g p i = Nvs.recordAt f p i := by
  have hb := hf.blocks p hp
  have := hb.fits hi
  refine recordAt_congr (hb.pos hi) fun x h1 h2 => e.slot p hp x ?_ ?_ <;> simp only [slotAddr] at * <;> omega

theorem heads [∀ p i, Decidable (R p i)] : heads g = (Nvs.heads f).filter fun x => ¬ R x.1 x.2 := by
  rw [Nvs.heads, Nvs.heads, List.filter_flatMap]
  refine List.flatMap_congr fun p hp => ?_
  rw [pageHeads, pageHeads, List.filter_map, List.filter_filter]
  congr 1
  refine List.filter_congr fun i _ => ?_
  simp only [e.head_iff hf (List.mem_range.1 hp), Function.comp_apply, Bool.decide_and, Bool.and_comm]

/-- Erasing blocks drops their entries. -/
theorem logOf [∀ p i, Decidable (R p i)] {P : Record → Prop} [DecidablePred P]
    (hP : ∀ p < 8, ∀ i, Head f p i → (R p i ↔ P (Nvs.recordAt f p i))) : logOf g = (Nvs.logOf f).drop P := by
  rw [Nvs.logOf, Nvs.logOf, e.heads hf, Log.drop, List.filter_map]
  have hfilter : (Nvs.heads f).filter (fun x => decide ¬ R x.1 x.2) =
      (Nvs.heads f).filter ((fun e => decide ¬ P e) ∘ fun x => Nvs.recordAt f x.1 x.2) := by
    refine List.filter_congr fun x hx => ?_
    obtain ⟨hp, hh⟩ := mem_heads.1 hx
    simp only [Function.comp_apply, hP x.1 hp x.2 hh]
  rw [hfilter]
  refine List.map_congr_left fun x hx => ?_
  obtain ⟨hp, hh⟩ := mem_heads.1 (List.mem_filter.1 hx).1
  exact e.recordAt hf hp hh

end Erases

/-- Where nothing is erased the log is the same. -/
theorem Erases.logOf_same {f g : Flash} (e : Erases f g fun _ _ => False) (hf : Packed f) :
    Nvs.logOf g = Nvs.logOf f := by
  have h := e.logOf hf (P := fun _ => False) fun _ _ _ _ => Iff.rfl
  rw [h, Log.drop]
  exact List.filter_eq_self.2 fun _ _ => by simp

/-! ### Storing a block -/

theorem filter_range_snoc {P Q : ℕ → Prop} [DecidablePred P] [DecidablePred Q] {n t : ℕ} (ht : t < n)
    (hlt : ∀ i < n, P i → i < t) (hQ : ∀ i < n, Q i ↔ P i ∨ i = t) :
    (List.range n).filter (fun i => Q i) = (List.range n).filter (fun i => P i) ++ [t] := by
  induction n with
  | zero => omega
  | succ n ih =>
    rw [List.range_succ, List.filter_append, List.filter_append]
    have hn := hQ n (by omega)
    have hnP : ¬ P n := fun h => by have := hlt n (by omega) h; omega
    by_cases hnt : n = t
    · subst hnt
      have hsame : (List.range n).filter (fun i => Q i) = (List.range n).filter (fun i => P i) := by
        refine List.filter_congr fun i hi => ?_
        have hi := List.mem_range.1 hi
        simp only [hQ i (by omega), or_iff_left (show ¬ i = n by omega)]
      simp [hsame, hn, hnP]
    · rw [ih (by omega) (fun i hi => hlt i (by omega)) fun i hi => hQ i (by omega)]
      simp [hn, hnP, hnt]

theorem flatMap_range_snoc {α : Type} {F F' : ℕ → List α} {n p : ℕ} {x : α} (hp : p < n) (hat : F' p = F p ++ [x])
    (hother : ∀ q < n, q ≠ p → F' q = F q) (hafter : ∀ q < n, p < q → F q = []) :
    (List.range n).flatMap F' = (List.range n).flatMap F ++ [x] := by
  induction n with
  | zero => omega
  | succ n ih =>
    rw [List.range_succ, List.flatMap_append, List.flatMap_append]
    by_cases hnp : n = p
    · subst hnp
      have hsame : (List.range n).flatMap F' = (List.range n).flatMap F :=
        List.flatMap_congr fun q hq => hother q (by have := List.mem_range.1 hq; omega) (by have := List.mem_range.1 hq; omega)
      simp [hsame, hat]
    · rw [ih (by omega) (fun q hq => hother q (by omega)) fun q hq => hafter q (by omega)]
      simp [hother n (by omega) hnp, hafter n (by omega) (by omega)]

namespace Stores

variable {f g : Flash} {p t n : ℕ} (e : Stores f g p t n) (hf : Packed f)
include e hf

theorem recordAt {q i : ℕ} (hq : q < 8) (hi : Head f q i) : recordAt g q i = Nvs.recordAt f q i := by
  have hb := hf.blocks q hq
  have := hb.fits hi
  refine recordAt_congr (hb.pos hi) fun x h1 h2 => e.slot q hq x ?_ ?_ ?_
  · simp only [slotAddr] at *
    omega
  · simp only [slotAddr] at *
    omega
  · rcases e.old hf hq hi with h | h
    · exact .inl h
    · by_cases hqp : q = p
      · subst hqp
        simp only [slotAddr] at *
        omega
      · exact .inl hqp

/-- Storing a block behind all others appends its entry. -/
theorem logOf (hafter : ∀ q < 8, p < q → ∀ i, ¬ Head f q i) : logOf g = (Nvs.logOf f).put (Nvs.recordAt g p t) := by
  have hpage : pageHeads g p = pageHeads f p ++ [(p, t)] := by
    have hpos := e.pos
    have hfits := e.fits
    have hfilter := filter_range_snoc (P := Head f p) (Q := Head g p) (n := 126) (t := t) (by omega)
      (fun i _ hi => by
        have := (e.old hf e.page hi).resolve_left fun h => h rfl
        have := (hf.blocks p e.page).pos hi
        omega)
      fun i _ => by rw [e.head_iff hf e.page, eq_self_iff_true, true_and]
    rw [pageHeads, hfilter, List.map_append, List.map_singleton, pageHeads]
  have hheads : heads g = heads f ++ [(p, t)] := by
    refine flatMap_range_snoc e.page hpage (fun q hq hqp => ?_) fun q hq hqp => ?_
    · have hsame : (List.range 126).filter (fun i => Head g q i) = (List.range 126).filter fun i => Head f q i :=
        List.filter_congr fun i _ => by simp only [e.head_iff hf hq, hqp, false_and, or_false]
      rw [pageHeads, hsame, pageHeads]
    · rw [pageHeads, List.filter_eq_nil_iff.2 fun i _ => by simpa using hafter q hq hqp i, List.map_nil]
  rw [Nvs.logOf, Nvs.logOf, hheads, List.map_append, Log.put]
  congr 1
  refine List.map_congr_left fun x hx => ?_
  obtain ⟨hp, hh⟩ := mem_heads.1 hx
  exact e.recordAt hf hp hh

end Stores

/-! ### Lookups -/

theorem Ordered.pageLive {f : Flash} {a p i : ℕ} (h : Ordered f a) (hp : p < 8) (hi : Head f p i) : PageLive f p := by
  have hnb : ¬ Blank f p := by
    intro hb
    have hw := hi.2.1
    rw [hb.entryAt (by have := hi.1; omega)] at hw
    cases hw
  rcases Nat.lt_trichotomy p a with hlt | rfl | hgt
  · rw [PageLive, h.full p hlt]
    decide
  · rw [PageLive, h.here.resolve_right hnb]
    decide
  · exact absurd (h.fresh p hgt hp) hnb

/-- No continuation entry reads as an item of this name. -/
def ClearName (f : Flash) (nsIndex : UInt8) (key : List UInt8) : Prop :=
  ∀ p < 8, ∀ i < 126, Match f nsIndex key 0xff p i → Head f p i

instance (f : Flash) (nsIndex : UInt8) (key : List UInt8) : Decidable (ClearName f nsIndex key) :=
  inferInstanceAs (Decidable (∀ _ < _, _))

/-- The first block of a name. -/
def firstHead (f : Flash) (nsIndex : UInt8) (key : List UInt8) : Option (ℕ × ℕ) :=
  (heads f).find? fun x => (itemAt f x.1 x.2).named nsIndex key

theorem lookup_logOf (f : Flash) (nsIndex : UInt8) (key : List UInt8) :
    (logOf f).lookup (nsIndex, key) = (firstHead f nsIndex key).map fun x => recordAt f x.1 x.2 := by
  rw [Log.lookup, logOf, List.find?_map, firstHead]
  congr 2
  funext x
  exact decide_eq_decide.2 (by simp only [recordAt, Prod.mk.injEq, Item.named])

theorem findSome?_ite {ι β : Type} (P : ι → Prop) [DecidablePred P] (g : ι → β) (l : List ι) :
    (l.findSome? fun i => if P i then some (g i) else none) = (l.find? fun i => P i).map g := by
  induction l with
  | nil => rfl
  | cons i l ih =>
    rw [List.findSome?_cons, List.find?_cons]
    by_cases h : P i <;> simp [h, ih]

theorem find?_congr {ι : Type} {P Q : ι → Prop} [DecidablePred P] [DecidablePred Q] {l : List ι}
    (h : ∀ i ∈ l, (P i ↔ Q i)) : (l.find? fun i => P i) = l.find? fun i => Q i := by
  induction l with
  | nil => rfl
  | cons i l ih =>
    rw [List.find?_cons, List.find?_cons, ih fun j hj => h j (List.mem_cons_of_mem _ hj)]
    simp only [h i List.mem_cons_self]

/-- Where no continuation entry reads as an item of the name, the scan answers its first block. -/
theorem scan_eq_firstHead {f : Flash} {a : ℕ} (ho : Ordered f a) (hf : Packed f) {nsIndex : UInt8} {key : List UInt8}
    (hc : ClearName f nsIndex key) (datatype : UInt8) :
    scan f nsIndex datatype key 0xff = (firstHead f nsIndex key).map fun x => answer f datatype x.1 x.2 := by
  rw [scan, firstHead, heads, List.find?_flatMap, List.map_findSome?]
  refine Prog.findSome?_congr fun p hp => ?_
  have hp := List.mem_range.1 hp
  have hmatch : ∀ i ∈ List.range 126, Match f nsIndex key 0xff p i ↔ Head f p i ∧ (itemAt f p i).named nsIndex key := by
    intro i hi
    have hi := List.mem_range.1 hi
    constructor
    · exact fun hm => ⟨hc p hp i hi hm, hm.2.2.2.2.1⟩
    · exact fun hm => ⟨hp, hi, ho.pageLive hp hm.1, hm.1.2.1, hm.2, .inr (hf.chunk p hp i hm.1)⟩
  rw [findSome?_ite, find?_congr hmatch, Function.comp_apply, pageHeads, List.find?_map, List.find?_filter,
    Option.map_map]
  congr 2
  funext i
  simp only [Bool.decide_and, Function.comp_apply, Bool.decide_eq_true]

theorem firstHead_some {f : Flash} {nsIndex : UInt8} {key : List UInt8} {p i : ℕ}
    (h : firstHead f nsIndex key = some (p, i)) : p < 8 ∧ Head f p i ∧ (itemAt f p i).named nsIndex key := by
  obtain ⟨hp, hh⟩ := mem_heads.1 (List.mem_of_find?_eq_some h)
  exact ⟨hp, hh, by simpa using List.find?_some h⟩

end Esp8266Sdk.Nvs
