import Esp8266Sdk.Mdns.Packet

/-! The names a host goes through when it loses its name (`_mdns_mangle_name`):
`name`, `name-2`, `name-3` and so on. Compared without case, no name comes back
before the number leaves the range of `int`. -/

namespace Esp8266Sdk.Mdns

section Source

/-- `'-'` -/
def dash : UInt8 := 45

def isDigit (c : UInt8) : Bool := 48 ≤ c && c ≤ 57

def isSpace (c : UInt8) : Bool := c == 32 || (9 ≤ c && c ≤ 13)

/-- `INT_MAX` and `LONG_MAX` of the target, whose `long` has 32 bits -/
def intMax : ℕ := 2 ^ 31 - 1

def digitsValue (digits : List UInt8) : ℕ := digits.foldl (fun v d => v * 10 + (d.toNat - 48)) 0

/-- `strtol(s, &endp, 10)`: the value and the text from `endp` on. -/
def strtol (s : List UInt8) : ℤ × List UInt8 :=
  let t := s.dropWhile isSpace
  let u := if t.head? = some dash ∨ t.head? = some 43 then t.tail else t
  if u.takeWhile isDigit = [] then (0, s)
  else
    let value : ℤ := digitsValue (u.takeWhile isDigit)
    if t.head? = some dash then (max (-value) (-intMax - 1), u.dropWhile isDigit)
    else (min value intMax, u.dropWhile isDigit)

/-- Decimal digits without a sign. -/
def decNat (n : ℕ) : List UInt8 :=
  if n = 0 then [48] else (Nat.digits 10 n).reverse.map fun d => UInt8.ofNat (48 + d)

/-- `%d` -/
def decimal (n : ℤ) : List UInt8 := if n < 0 then dash :: decNat n.natAbs else decNat n.natAbs

/-- What stands behind the last `'-'`, `strrchr(in, '-') + 1`. -/
def suffixText (s : CString) : List UInt8 := s.val.rtakeWhile (· != dash)

/-- `_mdns_mangle_name`. The sum with 1 is taken in `int`. -/
def mangleName (s : CString) : CString :=
  if dash ∉ s.val then cstr (s.val ++ [dash, 50])
  else
    let r := strtol (suffixText s)
    if r.2 ≠ [] then cstr (s.val ++ [dash, 50])
    else
      let baseLen := s.val.length - (suffixText s).length - 1
      cstr (s.val.take baseLen ++ dash :: decimal (Int.bmod (r.1 + 1) (2 ^ 32)))

/-- `tolower` -/
def toLower (c : UInt8) : UInt8 := if 65 ≤ c ∧ c ≤ 90 then c + 32 else c

/-- `strcasecmp(s, t) == 0` -/
def SameName (s t : CString) : Prop := s.val.map toLower = t.val.map toLower

instance (s t : CString) : Decidable (SameName s t) := inferInstanceAs (Decidable (_ = _))

end Source

section Decimal

theorem cstr_of_not_mem {buf : List UInt8} (h : 0 ∉ buf) : (cstr buf).val = buf := congrArg Subtype.val (cstr_val ⟨buf, h⟩)

theorem isDigit_iff {c : UInt8} : isDigit c = true ↔ 48 ≤ c.toNat ∧ c.toNat ≤ 57 := by
  rw [isDigit, Bool.and_eq_true, decide_eq_true_iff, decide_eq_true_iff, UInt8.le_iff_toNat_le, UInt8.le_iff_toNat_le]
  exact Iff.rfl

theorem isDigit_decNat (n : ℕ) : ∀ c ∈ decNat n, isDigit c = true := by
  intro c hc
  rw [decNat] at hc
  split at hc
  · rw [List.mem_singleton.1 hc]
    rfl
  · obtain ⟨d, hd, rfl⟩ := List.mem_map.1 hc
    have h10 : d < 10 := Nat.digits_lt_base (by decide) (List.mem_reverse.1 hd)
    rw [isDigit_iff, UInt8.toNat_ofNat_of_lt' (by simp only [UInt8.size]; omega)]
    omega

theorem decNat_ne_nil (n : ℕ) : decNat n ≠ [] := by
  rw [decNat]
  split
  · exact List.cons_ne_nil _ _
  · rename_i h
    exact fun e => Nat.digits_ne_nil_iff_ne_zero.2 h (List.reverse_eq_nil_iff.1 (List.map_eq_nil_iff.1 e))

theorem digitsValue_decNat (n : ℕ) : digitsValue (decNat n) = n := by
  rw [decNat]
  split
  case isTrue h => exact h ▸ rfl
  case isFalse h =>
    have key (ds : List ℕ) (hd : ∀ d ∈ ds, d < 10) :
        digitsValue (ds.reverse.map fun d => UInt8.ofNat (48 + d)) = Nat.ofDigits 10 ds := by
      induction ds with
      | nil => rfl
      | cons d ds ih =>
        have h10 := hd d (List.mem_cons_self ..)
        have hb : (UInt8.ofNat (48 + d)).toNat = 48 + d := UInt8.toNat_ofNat_of_lt' (by simp only [UInt8.size]; omega)
        have ih := ih fun e he => hd e (List.mem_cons_of_mem _ he)
        rw [digitsValue] at ih
        rw [digitsValue, List.reverse_cons, List.map_append, List.foldl_append, ih, List.map_singleton, List.foldl_cons,
          List.foldl_nil, hb, Nat.ofDigits_cons]
        omega
    rw [key _ fun d hd => Nat.digits_lt_base (by decide) hd, Nat.ofDigits_digits]

theorem decNat_injective : Function.Injective decNat := fun n m h => by
  rw [← digitsValue_decNat n, h, digitsValue_decNat]

theorem dash_not_mem_decNat (n : ℕ) : dash ∉ decNat n := fun h =>
  absurd (isDigit_decNat n dash h) (by decide)

theorem strtol_decNat {n : ℕ} (h : n ≤ intMax) : strtol (decNat n) = ((n : ℤ), []) := by
  obtain ⟨c, cs, hc⟩ := List.exists_cons_of_ne_nil (decNat_ne_nil n)
  have hd := isDigit_decNat n
  have hcd : isDigit c = true := hd c (hc ▸ List.mem_cons_self ..)
  have hsp : isSpace c = false := by
    have := isDigit_iff.1 hcd
    rw [isSpace, Bool.or_eq_false_iff, Bool.and_eq_false_iff, beq_eq_false_iff_ne, decide_eq_false_iff_not,
      decide_eq_false_iff_not, UInt8.le_iff_toNat_le, UInt8.le_iff_toNat_le]
    refine ⟨?_, Or.inr ?_⟩
    · rintro rfl
      exact absurd this.1 (by decide)
    · simp only [UInt8.reduceToNat]
      omega
  have hdrop : (decNat n).dropWhile isSpace = decNat n := by rw [hc, List.dropWhile_cons_of_neg (by rw [hsp]; decide)]
  have hhead (x : UInt8) (hx : isDigit x = false) : (decNat n).head? ≠ some x := by
    rw [hc, List.head?_cons]
    rintro h
    rw [Option.some.inj h, hx] at hcd
    exact absurd hcd (by decide)
  have htake : (decNat n).takeWhile isDigit = decNat n := List.takeWhile_eq_self_iff.2 hd
  have hrest : (decNat n).dropWhile isDigit = [] := List.dropWhile_eq_nil_iff.2 hd
  have hdash := hhead dash rfl
  have hplus := hhead 43 rfl
  have hu : ¬ ((decNat n).head? = some dash ∨ (decNat n).head? = some 43) := fun h => h.elim hdash hplus
  rw [strtol]
  simp only [hdrop, if_neg hu, htake, hrest, if_neg hdash, if_neg (decNat_ne_nil n), digitsValue_decNat]
  rw [min_eq_left (Int.ofNat_le.2 h)]

theorem digitsValue_lt {ds : List UInt8} (h : ∀ d ∈ ds, isDigit d = true) : digitsValue ds < 10 ^ ds.length := by
  have key (v : ℕ) : ds.foldl (fun v d => v * 10 + (d.toNat - 48)) v < (v + 1) * 10 ^ ds.length := by
    induction ds generalizing v with
    | nil => simp
    | cons d ds ih =>
      have hd := isDigit_iff.1 (h d (List.mem_cons_self ..))
      have ih := ih (fun e he => h e (List.mem_cons_of_mem _ he)) (v * 10 + (d.toNat - 48))
      have hle : (v * 10 + (d.toNat - 48) + 1) * 10 ^ ds.length ≤ (v + 1) * 10 * 10 ^ ds.length :=
        Nat.mul_le_mul_right _ (by omega)
      rw [List.foldl_cons, List.length_cons, Nat.pow_succ', ← Nat.mul_assoc]
      exact ih.trans_le hle
  have h0 := key 0
  rwa [Nat.zero_add, Nat.one_mul] at h0

theorem length_decNat_le {n d : ℕ} (hd : 0 < d) (h : n < 10 ^ d) : (decNat n).length ≤ d := by
  rw [decNat]
  split
  · exact hd
  · rw [List.length_map, List.length_reverse]
    exact Nat.digits_length_le_iff (by decide) n |>.2 h

/-- The number of a text without a sign is not negative and at most `INT_MAX`, and the
text has its digits. -/
theorem strtol_bounds {text : List UInt8} (h : dash ∉ text) :
    0 ≤ (strtol text).1 ∧ (strtol text).1 ≤ intMax ∧ (strtol text).1 < 10 ^ text.length := by
  have hh : (text.dropWhile isSpace).head? ≠ some dash := fun e =>
    h ((List.dropWhile_sublist _).subset (List.mem_of_head? e))
  rw [strtol]
  simp only [if_neg hh]
  have hsub : (if (text.dropWhile isSpace).head? = some dash ∨ (text.dropWhile isSpace).head? = some 43 then
      (text.dropWhile isSpace).tail else text.dropWhile isSpace).length ≤ text.length := by
    have hd := (List.dropWhile_sublist (p := isSpace) (l := text)).length_le
    split
    · rw [List.length_tail]
      omega
    · exact hd
  generalize (if (text.dropWhile isSpace).head? = some dash ∨ (text.dropWhile isSpace).head? = some 43 then
    (text.dropWhile isSpace).tail else text.dropWhile isSpace) = u at hsub
  split
  · exact ⟨le_refl _, Int.natCast_nonneg _, by positivity⟩
  · refine ⟨le_min (Int.natCast_nonneg _) (Int.natCast_nonneg _), min_le_right _ _, (min_le_left _ _).trans_lt ?_⟩
    have hlen : (u.takeWhile isDigit).length ≤ text.length := (List.takeWhile_sublist _).length_le.trans hsub
    have hv : digitsValue (u.takeWhile isDigit) < 10 ^ (u.takeWhile isDigit).length :=
      digitsValue_lt fun d hd => List.mem_takeWhile_imp hd
    exact_mod_cast hv.trans_le (Nat.pow_le_pow_right (by decide) hlen)

/-- The next number, as long as it is in the range of `int`. -/
theorem bmod_next {n : ℕ} (h : n < intMax) : Int.bmod ((n : ℤ) + 1) (2 ^ 32) = ((n + 1 : ℕ) : ℤ) := by
  rw [Int.bmod_eq_of_le] <;> simp only [intMax] at h <;> push_cast <;> omega

end Decimal

section Names

variable {s base : CString} {text : List UInt8} {n m : ℕ}

/-- `base-n` -/
def numbered (base : CString) (n : ℕ) : CString := cstr (base.val ++ dash :: decNat n)

theorem numbered_val (base : CString) (n : ℕ) : (numbered base n).val = base.val ++ dash :: decNat n := by
  apply cstr_of_not_mem
  rw [List.mem_append, List.mem_cons]
  rintro (h | h | h)
  · exact base.2 h
  · exact absurd h (by decide)
  · exact absurd (isDigit_decNat n 0 h) (by decide)

theorem rtakeWhile_dash {pre : List UInt8} (h : dash ∉ text) : (pre ++ dash :: text).rtakeWhile (· != dash) = text := by
  have ha : ∀ c ∈ text.reverse, (c != dash) = true := fun c hc =>
    bne_iff_ne.2 fun e => h (e ▸ List.mem_reverse.1 hc)
  rw [List.rtakeWhile, List.reverse_append, List.reverse_cons, List.append_assoc, List.takeWhile_append_of_pos ha,
    List.singleton_append, List.takeWhile_cons_of_neg (by simp), List.append_nil, List.reverse_reverse]

theorem exists_suffix (h : dash ∈ s.val) : ∃ pre, s.val = pre ++ dash :: suffixText s ∧ dash ∉ suffixText s := by
  obtain ⟨as, bs, he, hn⟩ := List.eq_append_cons_of_mem (List.mem_reverse.2 h)
  have hs : s.val = bs.reverse ++ dash :: as.reverse := by
    rw [← List.reverse_reverse s.val, he, List.reverse_append, List.reverse_cons, List.append_assoc]
    rfl
  have hn' : dash ∉ as.reverse := fun hm => hn (List.mem_reverse.1 hm)
  have ht : suffixText s = as.reverse := by rw [suffixText, hs, rtakeWhile_dash hn']
  exact ⟨bs.reverse, ht ▸ hs, ht ▸ hn'⟩

/-- The name has a number behind its last dash. -/
def HasNumber (s : CString) : Prop := dash ∈ s.val ∧ (strtol (suffixText s)).2 = []

instance (s : CString) : Decidable (HasNumber s) := inferInstanceAs (Decidable (_ ∧ _))

/-- The number of a name, 1 where it has none, and what stands before it. -/
def serial (s : CString) : ℕ := if HasNumber s then (strtol (suffixText s)).1.toNat else 1

def stem (s : CString) : CString :=
  if HasNumber s then cstr (s.val.take (s.val.length - (suffixText s).length - 1)) else s

theorem val_of_hasNumber (h : HasNumber s) : s.val = (stem s).val ++ dash :: suffixText s := by
  obtain ⟨pre, hs, -⟩ := exists_suffix h.1
  have hlen : s.val.length - (suffixText s).length - 1 = pre.length := by
    have hl := congrArg List.length hs
    rw [List.length_append, List.length_cons] at hl
    omega
  have hpre : s.val.take pre.length = pre := by rw [hs, List.take_left]
  have h0 : 0 ∉ pre := fun h0 => s.2 (hs ▸ List.mem_append_left _ h0)
  rw [stem, if_pos h, hlen, hpre, cstr_of_not_mem h0]
  exact hs

theorem mangleName_of_hasNumber (h : HasNumber s) :
    mangleName s = cstr ((stem s).val ++ dash :: decimal (Int.bmod ((strtol (suffixText s)).1 + 1) (2 ^ 32))) := by
  have hv := val_of_hasNumber h
  have hlen : s.val.length - (suffixText s).length - 1 = (stem s).val.length := by
    have hl := congrArg List.length hv
    rw [List.length_append, List.length_cons] at hl
    omega
  have hstem : s.val.take (stem s).val.length = (stem s).val := by
    conv_lhs => rw [hv]
    rw [List.take_left]
  rw [mangleName, if_neg (not_not.2 h.1)]
  simp only
  rw [if_neg (not_not.2 h.2), hlen, hstem]

theorem mangleName_of_not_hasNumber (h : ¬ HasNumber s) : mangleName s = cstr (s.val ++ [dash, 50]) := by
  rw [mangleName]
  by_cases hd : dash ∈ s.val
  · have hr : (strtol (suffixText s)).2 ≠ [] := fun hr => h ⟨hd, hr⟩
    rw [if_neg (not_not.2 hd)]
    simp only
    rw [if_pos hr]
  · rw [if_pos hd]

theorem mangleName_eq (h : serial s < intMax) : mangleName s = numbered (stem s) (serial s + 1) := by
  by_cases hn : HasNumber s
  · have hnum := (strtol_bounds (exists_suffix hn.1).choose_spec.2).1
    have hser : ((serial s : ℕ) : ℤ) = (strtol (suffixText s)).1 := by rw [serial, if_pos hn, Int.toNat_of_nonneg hnum]
    have hdec : decimal ((serial s + 1 : ℕ) : ℤ) = decNat (serial s + 1) := if_neg (by omega)
    rw [mangleName_of_hasNumber hn, ← hser, bmod_next h, hdec]
    rfl
  · have hser : serial s = 1 := if_neg hn
    have hstem : stem s = s := if_neg hn
    rw [mangleName_of_not_hasNumber hn, hser, hstem]
    rfl

theorem suffixText_numbered (base : CString) (n : ℕ) : suffixText (numbered base n) = decNat n := by
  rw [suffixText, numbered_val, rtakeWhile_dash (dash_not_mem_decNat n)]

theorem hasNumber_numbered (h : n ≤ intMax) : HasNumber (numbered base n) := by
  refine ⟨?_, ?_⟩
  · rw [numbered_val]
    exact List.mem_append_right _ (List.mem_cons_self ..)
  · rw [suffixText_numbered, strtol_decNat h]

theorem serial_numbered (h : n ≤ intMax) : serial (numbered base n) = n := by
  rw [serial, if_pos (hasNumber_numbered h), suffixText_numbered, strtol_decNat h]
  rfl

theorem stem_numbered (h : n ≤ intMax) : stem (numbered base n) = base := by
  have hv := val_of_hasNumber (s := numbered base n) (hasNumber_numbered h)
  rw [suffixText_numbered, numbered_val] at hv
  exact Subtype.ext (List.append_cancel_right hv).symm

/-- The name after `k + 1` losses. -/
theorem iterate_mangleName (k : ℕ) (h : serial s + k < intMax) :
    mangleName^[k + 1] s = numbered (stem s) (serial s + (k + 1)) := by
  induction k with
  | zero => exact mangleName_eq h
  | succ k ih =>
    have hle : serial s + (k + 1) ≤ intMax := by omega
    rw [Function.iterate_succ_apply', ih (by omega), mangleName_eq (by rw [serial_numbered hle]; omega), serial_numbered hle,
      stem_numbered hle]
    rfl

example : mangleName (cstr [101, 115, 112, 45, 57]) = cstr [101, 115, 112, 45, 49, 48] := by decide

theorem toLower_digit {c d : UInt8} (hd : isDigit d = true) : toLower c = d ↔ c = d := by
  have hd := isDigit_iff.1 hd
  rw [toLower]
  split
  case isTrue h =>
    rw [UInt8.le_iff_toNat_le, UInt8.le_iff_toNat_le] at h
    simp only [UInt8.reduceToNat] at h
    have h1 : c + 32 ≠ d := by
      rintro rfl
      rw [UInt8.toNat_add] at hd
      simp only [UInt8.reduceToNat] at hd
      omega
    have h2 : c ≠ d := by
      rintro rfl
      omega
    exact ⟨fun e => absurd e h1, fun e => absurd e h2⟩
  case isFalse => exact Iff.rfl

theorem map_toLower_eq_digits {t ds : List UInt8} (hd : ∀ d ∈ ds, isDigit d = true) (h : t.map toLower = ds) : t = ds := by
  induction t generalizing ds with
  | nil => exact h
  | cons c t ih =>
    subst h
    have hc := hd (toLower c) (List.mem_cons_self ..)
    rw [List.map_cons, ← (toLower_digit hc).1 rfl, ← ih (fun d h => hd d (List.mem_cons_of_mem _ h)) rfl]

theorem map_toLower_decNat (n : ℕ) : (decNat n).map toLower = decNat n := by
  rw [List.map_congr_left fun d hd => (toLower_digit (isDigit_decNat n d hd)).2 rfl, List.map_id']

theorem map_toLower_numbered (base : CString) (n : ℕ) :
    (numbered base n).val.map toLower = base.val.map toLower ++ dash :: decNat n := by
  rw [numbered_val, List.map_append, List.map_cons, map_toLower_decNat]
  rfl

theorem sameName_numbered (h : SameName (numbered base n) (numbered base m)) : n = m := by
  rw [SameName, map_toLower_numbered, map_toLower_numbered] at h
  exact decNat_injective (List.cons.inj (List.append_cancel_left h)).2

theorem not_sameName_numbered (h : serial s < n) (hn : n ≤ intMax) : ¬ SameName s (numbered (stem s) n) := by
  intro he
  rw [SameName, map_toLower_numbered] at he
  by_cases hs : HasNumber s
  · rw [val_of_hasNumber hs, List.map_append, List.map_cons] at he
    have ht := map_toLower_eq_digits (isDigit_decNat n) (List.cons.inj (List.append_cancel_left he)).2
    have hser : serial s = n := by
      rw [serial, if_pos hs, ht, strtol_decNat hn]
      rfl
    omega
  · rw [stem, if_neg hs] at he
    have hl := congrArg List.length he
    rw [List.length_append, List.length_cons] at hl
    omega

/-- No name comes back. -/
theorem not_sameName_iterate {i k : ℕ} (hik : i < k) (h : serial s + k ≤ intMax) :
    ¬ SameName (mangleName^[i] s) (mangleName^[k] s) := by
  obtain ⟨k, rfl⟩ := Nat.exists_eq_succ_of_ne_zero (Nat.ne_zero_of_lt hik)
  rw [Nat.succ_eq_add_one, iterate_mangleName k (by omega)]
  cases i with
  | zero =>
    change ¬ SameName s _
    exact not_sameName_numbered (by omega) h
  | succ i =>
    rw [iterate_mangleName i (by omega)]
    intro he
    have hn := sameName_numbered he
    omega

end Names

section Room

variable {s : CString} {text : List UInt8}

/-- The bytes `_mdns_mangle_name` allocates for the new name and its NUL. -/
def mangleRoom (s : CString) : ℕ := if HasNumber s then strlen s + 2 else strlen s + 3

theorem length_cstr_le (buf : List UInt8) : (cstr buf).val.length ≤ buf.length := (List.takeWhile_sublist _).length_le

theorem length_next (h : dash ∉ text) : (decimal (Int.bmod ((strtol text).1 + 1) (2 ^ 32))).length ≤ text.length + 1 := by
  obtain ⟨hnum, hmax, hlt⟩ := strtol_bounds h
  obtain ⟨v, hv⟩ := Int.eq_ofNat_of_zero_le hnum
  rw [hv] at hmax hlt ⊢
  have hvmax : v ≤ intMax := Int.ofNat_le.1 hmax
  have hvlt : v < 10 ^ text.length := by exact_mod_cast hlt
  rcases Nat.lt_or_eq_of_le hvmax with hs | rfl
  · rw [bmod_next hs, decimal, if_neg (by omega)]
    apply length_decNat_le (Nat.succ_pos _)
    rw [Int.natAbs_natCast, Nat.pow_succ]
    omega
  · -- the sum leaves the range of `int`, and the number has ten digits
    have h10 : 10 ≤ text.length := by
      by_contra hlen
      have hpow : 10 ^ text.length ≤ 10 ^ 9 := Nat.pow_le_pow_right (by decide) (by omega)
      simp only [intMax] at hvlt
      omega
    have hd : (decimal (Int.bmod ((intMax : ℤ) + 1) (2 ^ 32))).length = 11 := by decide
    omega

/-- The new name and its NUL fit the bytes allocated for them, also when the number
leaves the range of `int`. -/
theorem mangleName_fits (s : CString) : strlen (mangleName s) + 1 ≤ mangleRoom s := by
  by_cases hn : HasNumber s
  · have hlen := congrArg List.length (val_of_hasNumber hn)
    have hnext := length_next (exists_suffix hn.1).choose_spec.2
    have hl := length_cstr_le ((stem s).val ++ dash :: decimal (Int.bmod ((strtol (suffixText s)).1 + 1) (2 ^ 32)))
    rw [List.length_append, List.length_cons] at hlen hl
    rw [mangleRoom, if_pos hn, mangleName_of_hasNumber hn, strlen, strlen]
    omega
  · have hl := length_cstr_le (s.val ++ [dash, 50])
    rw [List.length_append] at hl
    rw [mangleRoom, if_neg hn, mangleName_of_not_hasNumber hn, strlen, strlen]
    exact Nat.add_le_add_right hl 1

end Room

end Esp8266Sdk.Mdns
