import Esp8266Sdk.Nvs.Plain
import Esp8266Sdk.Nvs.Visible

/-! A value that was set is read back after a reboot, where the set was regular
and no other type is stored under the key. -/

namespace Esp8266Sdk.Nvs

open Nor Prog Kv

/-! ### Values -/

/-- The setter is called with the bytes `bs` and their length. -/
structure Setter.Carries (s : Setter) (bs : List UInt8) : Prop where
  data : s.data = some bs
  length : s.length.toNat = bs.length

/-- The matching getter, with a buffer of exactly the size of the value. -/
def Setter.getter (s : Setter) : Getter :=
  match s with
  | .scalar k _ => .scalar k
  | .str _ => .str (some s.length)
  | .blob _ _ => .blob (some s.length)

/-- The reply of the getter that returns `ESP_OK` and the bytes that were set. -/
def Setter.echo (s : Setter) (bs : List UInt8) : Reply :=
  match s with
  | .scalar _ _ => ⟨espOk, some bs, none, none⟩
  | .str _ | .blob _ _ => ⟨espOk, some bs, some s.length, none⟩

theorem Setter.getter_itemType (s : Setter) : s.getter.itemType = s.itemType := by cases s <;> rfl

theorem length_dataArea (data : Option (List UInt8)) (length : UInt32) :
    (dataArea data length).length = 8 + 32 * ((itemSpan length).toNat - 1) := by simp [dataArea]

theorem getElem_dataField (bs : List UInt8) (length : UInt32) {i : ℕ} (hi : i < 8) :
    (dataField (some bs) length)[i] = if i < min 8 length.toNat then bs.getD i 0 else 0 := by
  rw [dataField, Vector.getElem_ofFn]

/-- The data area starts with the bytes of the value. -/
theorem take_dataArea {bs : List UInt8} {length : UInt32} (hlen : length.toNat = bs.length) (h : length.toNat ≤ 8136) :
    (dataArea (some bs) length).take bs.length = bs := by
  have harea := le_of_itemSpan h
  have hl := length_dataArea (some bs) length
  refine List.ext_getElem (by rw [List.length_take]; omega) fun i h1 h2 => ?_
  rw [List.getElem_take]
  rcases Nat.lt_or_ge i 8 with hi | hi
  · simp only [dataArea]
    rw [List.getElem_append_left (by rw [Vector.length_toList]; exact hi), Vector.getElem_toList, getElem_dataField bs length hi,
      if_pos (by omega), List.getD_eq_getElem _ _ h2]
  · have h8 : 8 < length.toNat := by omega
    have hsub : (length - 8).toNat = length.toNat - 8 := UInt32.toNat_sub_of_le _ _ (UInt32.le_iff_toNat_le.2 h8.le)
    have hspan : itemSpan length > 1 := by
      have := itemSpan_toNat h8 (by omega)
      exact UInt8.lt_iff_toNat_lt.2 (show 1 < (itemSpan length).toNat by omega)
    have hpay : payload (some bs) length = some (bs.drop 8) := by
      rw [payload, if_pos hspan, hsub, List.take_of_length_le (by rw [List.length_drop]; omega)]
    simp only [dataArea, hpay, Option.getD_some]
    rw [List.getElem_append_right (by rw [Vector.length_toList]; exact hi), List.getElem_map, List.getElem_range,
      Vector.length_toList, List.getD_eq_getElem _ _ (by rw [List.length_drop]; omega), List.getElem_drop]
    congr 1
    omega

/-- The terminator of a string that fits the array of the search, whatever follows it. -/
theorem findTerminator_append {bs : List UInt8} (h : 0 ∉ bs) (rest : List UInt8) {i : ℕ} (hi : i + bs.length < 1024) :
    findTerminator (bs ++ 0 :: rest) i = some (some (i + bs.length + 1)) := by
  induction bs generalizing i with
  | nil =>
    simp only [List.length_nil, Nat.add_zero] at hi
    rw [List.nil_append, findTerminator, if_neg (by omega), if_pos rfl]
    rfl
  | cons b bs ih =>
    simp only [List.mem_cons, not_or] at h
    simp only [List.length_cons] at hi
    rw [List.cons_append, findTerminator, if_neg (by omega), if_neg fun e => h.1 e.symm, ih h.2 (by omega)]
    simp only [List.length_cons]
    congr 2
    omega

theorem length_leBytes (n : ℕ) {m : ℕ} (v : BitVec m) : (leBytes n v).length = n := by simp [leBytes]

/-- The matching getter reads back what a setter stored. The search for the
terminator of a string looks at no more than 1024 bytes. -/
theorem read_newRecord {s : Setter} {bs : List UInt8} (hv : s.Carries bs) (hlen : bs.length ≤ 1024) (nsIndex : UInt8)
    (key : List UInt8) : s.getter.read (some (newRecord nsIndex s.itemType.code key s.data s.length)) = .ok (s.echo bs) := by
  have htake := take_dataArea hv.length (by rw [hv.length]; omega)
  have harea : s.length.toNat ≤ 8 + 32 * ((itemSpan s.length).toNat - 1) := le_of_itemSpan (by rw [hv.length]; omega)
  have hl := length_dataArea s.data s.length
  have hspan := (itemSpan s.length).toNat_lt
  have hmin : min (UInt32.ofNat (dataArea s.data s.length).length) s.length = s.length := by
    apply UInt32.toNat.inj
    rw [toNat_min, UInt32.toNat_ofNat', hl, Nat.mod_eq_of_lt (by omega)]
    omega
  rw [← hv.data, ← hv.length] at htake
  simp only [Getter.read, newRecord, s.getter_itemType, ne_eq, not_true, if_false]
  have hdata := hv.data
  have hlength := hv.length
  generalize dataArea s.data s.length = area at htake hmin ⊢
  cases s with
  | scalar k value =>
    have hk : (Setter.scalar k value).length.toNat = k.size := by
      rw [hlength, ← length_leBytes k.size value]
      exact congrArg List.length (Option.some.inj hdata).symm
    simp only [Setter.getter, Setter.echo, ← hk, htake]
  | str value =>
    obtain rfl : value.bytes ++ [0] = bs := Option.some.inj hdata
    have hterm := findTerminator_append value.nul_free [] (i := 0) (by simp at hlen; omega)
    simp only [Setter.getter, Setter.echo, hmin, htake, hterm, Option.map_some, Option.getD_some, Nat.zero_add]
    rfl
  | blob value length => simp only [Setter.getter, Setter.echo, hmin, htake]

/-! ### Setting and reading back -/

/-- All entries that a lookup of the key takes for its item have the type. -/
def OneType (f : Flash) (nsIndex datatype : UInt8) (key : List UInt8) : Prop :=
  ∀ p < 8, ∀ i < 126, Match f nsIndex key 0xff p i → (itemAt f p i).datatype = datatype

instance (f : Flash) (nsIndex datatype : UInt8) (key : List UInt8) : Decidable (OneType f nsIndex datatype key) :=
  inferInstanceAs (Decidable (∀ _ < _, _))

theorem Abs.oneType {f : Flash} {s : Store} (h : Abs f s) (hp : s.Plain) {nsIndex datatype : UInt8} {key : List UInt8}
    (ht : ∀ e ∈ s.log, e.name = (nsIndex, key) → e.kind = datatype) : OneType f nsIndex datatype key := by
  intro p hp8 i hi hm
  have hhead := h.clearName hp nsIndex key p hp8 i hi hm
  exact ht (recordAt f p i) (by rw [h.log]; exact mem_logOf.2 ⟨p, hp8, i, hhead, rfl⟩) (name_recordAt.2 hm.2.2.2.2.1)

variable {w w' : NvsWorld}

/-- Erasing all items that a lookup takes for the key hides the key. -/
theorem ErasedOld.hidden_of {nsIndex datatype : UInt8} {key : List UInt8} (e : ErasedOld w w' nsIndex datatype key)
    (hf : Packed w.flash) (hc : Clear w.flash nsIndex datatype key)
    (ht : ∀ p < 8, ∀ i < 126, Match w.flash nsIndex key 0xff p i → (itemAt w.flash p i).typed datatype) :
    Hidden w'.flash nsIndex key := by
  intro p i hm
  obtain ⟨hm', hno⟩ := e.removes.match_before hm
  have ⟨hp, hi, _, hw, hn, _⟩ := hm'
  have hhit : Hit w.flash nsIndex datatype key p i := ⟨hn, ht p hp i hi hm'⟩
  have hhead := hc p hp i hi hw hhit
  have hpos := (hf.blocks p hp).pos hhead
  exact hno i ⟨hhead, hhit⟩ le_rfl (by omega)

/-- Erasing the one type of a key hides the key. -/
theorem ErasedOld.hidden {nsIndex datatype : UInt8} {key : List UInt8} (e : ErasedOld w w' nsIndex datatype key)
    (hf : Packed w.flash) (hc : Clear w.flash nsIndex datatype key) (ht : OneType w.flash nsIndex datatype key) :
    Hidden w'.flash nsIndex key :=
  e.hidden_of hf hc fun p hp i hi hm => .inr (ht p hp i hi hm)

theorem PutValue.recordAt {f g : Flash} {p t : ℕ} {nsIndex datatype : UInt8} {key : List UInt8}
    {data : Option (List UInt8)} {length : UInt32} (e : PutValue f g p t nsIndex datatype key data length) (hkey : 0 ∉ key) :
    recordAt g p t = newRecord nsIndex datatype key data length := by
  rw [Put.recordAt e, newItem_keyString _ _ hkey]
  rfl

/-- A set that returns `ESP_OK` stored a block of at most 32 entries. -/
theorem set_stored {env : Env} {depth a u : ℕ} (hs : Sound w.flash a u) {s : Setter} {handle : UInt32} {key : CString}
    (hc : RegularSet w.flash s (nsIndexOf handle) key.bytes) {r : Reply}
    (hr : ((Call.set s handle key).prog env depth).run w = (.ok r, w')) (hok : r.err = espOk) :
    (∃ a' u', Sound w'.flash a' u') ∧ (itemSpan s.length).toNat ≤ 32 ∧ ∃ w₁ p t,
      ErasedOld w w₁ (nsIndexOf handle) s.itemType.code key.bytes ∧ Sound w₁.flash a u ∧
      PutValue w₁.flash w'.flash p t (nsIndexOf handle) s.itemType.code key.bytes s.data s.length ∧
      w'.ram = updateCache (nsIndexOf handle) key.bytes (slotAddr p t) w₁.ram := by
  obtain ⟨-, habs, w₁, err, rfl, he, hw⟩ := wp_ok (wp_set_regular env depth hs.abs hc) hr
  obtain rfl : err = espOk := hok
  refine ⟨⟨_, _, habs.sound⟩, ?_⟩
  cases hw with
  | stored hplace hwords put ram => exact ⟨by omega, w₁, _, _, he, he.removes.sound hs, put, ram⟩

/-- Once the one type of a key is erased and the value stored, a lookup finds the value. -/
theorem ErasedOld.visible {nsIndex datatype : UInt8} {key : List UInt8} {w₁ : NvsWorld} {a u p t : ℕ}
    {data : Option (List UInt8)} {length : UInt32} (e : ErasedOld w w₁ nsIndex datatype key) (hs : Sound w.flash a u)
    (hkey : 0 ∉ key) (hlen : key.length ≤ 15) (hc : Clear w.flash nsIndex datatype key)
    (ht : OneType w.flash nsIndex datatype key)
    (hput : PutValue w₁.flash w'.flash p t nsIndex datatype key data length) :
    Visible w'.flash nsIndex key (newRecord nsIndex datatype key data length) := by
  have hs₁ := e.removes.sound hs
  rw [← hput.recordAt hkey]
  refine Put.visible_new hput hs₁.ordered hs₁.packed (e.hidden hs.packed hc ht) ⟨rfl, ?_⟩ rfl
  rw [newItem_keyString _ _ hkey, List.take_of_length_le hlen]

/-- After a set of the one type of a key, a lookup finds the new value. -/
theorem set_visible {env : Env} {depth a u : ℕ} (hs : Sound w.flash a u) {s : Setter} {handle : UInt32} {key : CString}
    (hkey : key.bytes.length ≤ 15) (hc : RegularSet w.flash s (nsIndexOf handle) key.bytes)
    (ht : OneType w.flash (nsIndexOf handle) s.itemType.code key.bytes) {r : Reply}
    (hr : ((Call.set s handle key).prog env depth).run w = (.ok r, w')) (hok : r.err = espOk) :
    Visible w'.flash (nsIndexOf handle) key.bytes
      (newRecord (nsIndexOf handle) s.itemType.code key.bytes s.data s.length) := by
  obtain ⟨-, -, w₁, p, t, he, -, hput, -⟩ := set_stored hs hc hr hok
  exact he.visible hs key.nul_free hkey hc.clear ht hput

/-- The longest values that get into a block of at most 32 entries. -/
theorem Setter.Carries.length_le_of {s : Setter} {bs : List UInt8} (hv : s.Carries bs) (hlt : s.length.toNat ≤ 8136)
    (hspan : (itemSpan s.length).toNat ≤ 32) : bs.length ≤ 1024 := by
  have hle := le_of_itemSpan hlt
  rw [hv.length] at hle
  omega

/-- A value that a set stored, in a block of at most 32 entries. -/
theorem Setter.Carries.length_le {s : Setter} {bs : List UInt8} (hv : s.Carries bs) {handle : UInt32} {key : CString}
    (hsize : (Call.set s handle key).valueSize ≤ 4000) (hspan : (itemSpan s.length).toNat ≤ 32) : bs.length ≤ 1024 :=
  hv.length_le_of ((Setter.length_le hsize).trans (by omega)) hspan

/-- On a sound flash `nvs_flash_init` succeeds and changes nothing. -/
theorem run_flashInit {a u : ℕ} (h : Sound w.flash a u) : nvsFlashInit.run w = (.ok (.code espOk), w) := by
  have hinit := wp_run (wp_flashInit_sound (E := fun _ _ => False) h)
  rcases hi : nvsFlashInit.run w with ⟨e | r, w₁⟩
  · rw [hi] at hinit
    exact hinit.elim
  · rw [hi] at hinit
    obtain ⟨rfl, rfl⟩ := hinit
    rfl

/-- What was set is read back after a reboot, from any sound store. -/
theorem set_get_of_sound {env : Env} {depth a u : ℕ} (hs : Sound w.flash a u) {s : Setter} {handle : UInt32}
    {key : CString} {bs : List UInt8} (hkey : key.bytes.length ≤ 15) (hv : s.Carries bs)
    (hsize : (Call.set s handle key).valueSize ≤ 4000) (hc : RegularSet w.flash s (nsIndexOf handle) key.bytes)
    (ht : OneType w.flash (nsIndexOf handle) s.itemType.code key.bytes) {r : Reply}
    (hr : ((Call.set s handle key).prog env depth).run w = (.ok r, w')) (hok : r.err = espOk) (depth' depth'' : ℕ) :
    ∃ w₁, (Call.flashInit.prog env depth').run (powerOn w'.flash) = (.ok (.code espOk), w₁) ∧
      (((Call.get s.getter handle key).prog env depth'').run w₁).1 = .ok (s.echo bs) := by
  obtain ⟨⟨a', u', hs'⟩, hspan, -⟩ := set_stored hs hc hr hok
  have hvis := set_visible hs hkey hc ht hr hok
  refine ⟨powerOn w'.flash, ?_, ?_⟩
  · rw [Call.prog]
    exact run_flashInit hs'
  · have hlen := hv.length_le hsize hspan
    rw [Call.prog, get_visible hs'.packed hvis, read_newRecord hv hlen]

/-- In every run of regular calls: a regular set of the one type of a key that
returns `ESP_OK` is read back after a reboot, with exactly the bytes set. -/
theorem set_get_after_reboot {env : Env} (hw : Reach env (Regular env) noCut w) {s : Setter} {handle : UInt32}
    {key : CString} {bs : List UInt8} (hkey : 1 ≤ key.bytes.length ∧ key.bytes.length ≤ 15) (hv : s.Carries bs)
    (hsize : (Call.set s handle key).valueSize ≤ 4000) (hc : Regular env w (.set s handle key))
    (ht : OneType w.flash (nsIndexOf handle) s.itemType.code key.bytes) {depth : ℕ} {r : Reply}
    (hr : ((Call.set s handle key).prog env depth).run w = (.ok r, w')) (hok : r.err = espOk) (depth' depth'' : ℕ) :
    ∃ w₁, (Call.flashInit.prog env depth').run (powerOn w'.flash) = (.ok (.code espOk), w₁) ∧
      (((Call.get s.getter handle key).prog env depth'').run w₁).1 = .ok (s.echo bs) := by
  obtain ⟨a, u, hs⟩ := hw.sound fun _ _ h => h
  exact set_get_of_sound hs hkey.2 hv hsize hc ht hr hok depth' depth''

theorem set_get_after_reboot_factory : ∃ w' w₁,
    ((Call.set (.scalar .u8 7#8) 10 keyA).prog (.built []) 1).run factory = (.ok (.code espOk), w') ∧
      (Call.flashInit.prog (.built []) 1).run (powerOn w'.flash) = (.ok (.code espOk), w₁) ∧
      (((Call.get (.scalar .u8) 10 keyA).prog (.built []) 1).run w₁).1 = .ok ⟨espOk, some [7], none, none⟩ := by
  have hc := refines_factory.faithful (.built []) (c := .set (.scalar .u8 7#8) 10 keyA) (by decide)
  have hr := run_eq ((refines_factory.run hc 1).trans (show _ = Except.ok (.code espOk) by decide))
  have hv : (Setter.scalar .u8 7#8).Carries [7] := ⟨rfl, rfl⟩
  obtain ⟨w₁, hinit, hget⟩ := set_get_after_reboot reach_factory (by decide) hv (by decide) hc.regular (refines_factory.abs.oneType (by decide) (by decide)) hr rfl 1 1
  exact ⟨_, w₁, hr, hinit, hget⟩

/-- A blob of four entries is followed by a value at entry 4, whose state is in
table word 0; the word written back is word 1. -/
theorem set_get_lost :
    let l := calls (.built []) [(1, .set (.blob (some (List.replicate 104 0)) 104) 10 keyB),
      (1, .set (.scalar .u8 7#8) 10 keyA)] factory
    l.1 = [.ok (.code espOk), .ok (.code espOk)] ∧
      (((Call.get (.scalar .u8) 10 keyA).prog (.built []) 1).run (powerOn l.2.flash)).1 =
        .ok (.code espErrNvsNotFound) := by decide +kernel

end Esp8266Sdk.Nvs
