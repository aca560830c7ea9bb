import Esp8266Sdk.Nvs.Durability
import Esp8266Sdk.Nvs.EraseKey

/-! What `nvs_get_blob` and `nvs_get_str` make of a stored value and a buffer of
any size. An item keeps its size in whole entries only: the exact length of a
blob is lost, that of a string is found again by its terminator, and neither
getter refuses a buffer that is too small. -/

namespace Esp8266Sdk.Nvs

open Nor Prog Kv

variable {env : Env} {w w' : NvsWorld} {handle : UInt32} {key : CString}

/-! ### Reading what was set -/

theorem getFromCache_updateCache (he : env.cached = true) (nsIndex : UInt8) (k : List UInt8) (a : ℕ) (cache : Cache) :
    getFromCache env nsIndex k (updateCache nsIndex k a cache) = a := by
  have hlt := hash_mod_lt (calculateKeyHash nsIndex k)
  have hslot := getElem_updateCache nsIndex k a cache hlt
  rw [if_pos rfl] at hslot
  rw [getFromCache_eq he hlt rfl (by rw [hslot]), hslot]

/-- The worlds in which a value that was just set can be read: at once, or after
a reboot where no other type was stored under its key. -/
def ReadableFrom (env : Env) (w w' : NvsWorld) (nsIndex datatype : UInt8) (k : List UInt8) (w₁ : NvsWorld) : Prop :=
  env.cached = true ∧ w₁ = w' ∨ OneType w.flash nsIndex datatype k ∧ Rebooted w'.flash w₁

/-- The cache points at a block just stored. -/
theorem PutValue.lookup {f : Flash} {a u p t : ℕ} {nsIndex datatype : UInt8} {k : List UInt8} {data : Option (List UInt8)}
    {length : UInt32} (e : PutValue f w'.flash p t nsIndex datatype k data length) (hs : Sound f a u)
    (hcached : env.cached = true) (hnul : 0 ∉ k) (hk : k.length ≤ 15) {cache : Cache}
    (hram : w'.ram = updateCache nsIndex k (slotAddr p t) cache) :
    p < 8 ∧ Head w'.flash p t ∧ (itemAt w'.flash p t).named nsIndex k ∧ (itemAt w'.flash p t).datatype = datatype ∧
      (Nvs.lookup env w' nsIndex datatype k 0xff).1 = answer w'.flash datatype p t := by
  obtain ⟨_, -, hst⟩ := e.stores
  have hhead := Put.head_new e hs.packed
  have hitem : itemAt w'.flash p t = _ := e.item
  have hnamed : (itemAt w'.flash p t).named nsIndex k := by
    rw [hitem]
    exact ⟨rfl, by rw [newItem_keyString _ _ hnul, List.take_of_length_le hk]⟩
  have htype : (itemAt w'.flash p t).datatype = datatype := by
    rw [hitem]
    rfl
  have hchunk : (itemAt w'.flash p t).chunked 0xff := by
    rw [hitem]
    exact .inr rfl
  have hcache := cachedAt_slot w'.flash nsIndex datatype k 0xff hst.page hhead.1
  rw [if_pos ⟨hnamed, .inr htype, hchunk⟩] at hcache
  refine ⟨hst.page, hhead, hnamed, htype, ?_⟩
  rw [Nvs.lookup, hram, getFromCache_updateCache hcached, hcache]

/-- The getters of a type read from its record what was set. -/
theorem get_set {s : Setter} (hw : Reach env (Regular env) noCut w) (hkey : key.bytes.length ≤ 15)
    (hc : Regular env w (.set s handle key)) {depth : ℕ} {r : Reply}
    (hr : ((Call.set s handle key).prog env depth).run w = (.ok r, w')) (hok : r.err = espOk) {w₁ : NvsWorld}
    (h₁ : ReadableFrom env w w' (nsIndexOf handle) s.itemType.code key.bytes w₁) {g : Getter} (hg : g.itemType = s.itemType) :
    ((g.prog env handle key).run w₁).1 =
      g.read (some (newRecord (nsIndexOf handle) s.itemType.code key.bytes s.data s.length)) := by
  obtain ⟨a, u, hs⟩ := hw.sound fun _ _ h => h
  obtain ⟨⟨a', u', hs'⟩, -, w₂, p, t, -, hs₂, hput, hram⟩ := set_stored hs hc hr hok
  rcases h₁ with ⟨hcached, rfl⟩ | ⟨ht, hre⟩
  · obtain ⟨hp, hhead, -, -, hlookup⟩ := hput.lookup hs₂ hcached key.nul_free hkey hram
    rw [run_getter, ← hput.recordAt key.nul_free, hg, hlookup, ← hg]
    exact reply_head hs'.packed hp hhead g
  · have hvis := set_visible hs hkey hc ht hr hok
    have hpower : w₁ = powerOn w'.flash := by
      rcases hre with rfl | ⟨r', hr'⟩
      · rfl
      · exact (wp_ok (wp_flashInit_sound (E := fun _ _ => True) (w := powerOn w'.flash) hs') hr').2
    rw [hpower]
    exact get_visible hs'.packed hvis

theorem toNat_ofNat_of_le {n : ℕ} (h : n ≤ 8136) : (UInt32.ofNat n).toNat = n := by
  rw [UInt32.toNat_ofNat', Nat.mod_eq_of_lt (by omega)]

/-- The data area starts with the value. -/
theorem dataArea_eq {bs : List UInt8} (hlen : bs.length ≤ 8136) :
    ∃ rest, dataArea (some bs) (.ofNat bs.length) = bs ++ rest := by
  have hn := toNat_ofNat_of_le hlen
  have htake := take_dataArea hn (by omega)
  exact ⟨_, by rw [← List.take_append_drop bs.length (dataArea _ _), htake]⟩

/-! ### Blobs -/

/-- What the documentation of `nvs_get_blob` promises for a blob and a buffer. -/
def BlobContract (bs : List UInt8) (capacity : Option UInt32) (r : Except Defect Reply) : Prop :=
  match capacity with
  | none => r = .ok ⟨espOk, none, some (.ofNat bs.length), none⟩
  | some c =>
    if bs.length ≤ c.toNat then r = .ok ⟨espOk, some bs, some (.ofNat bs.length), none⟩
    else ∃ length, r = .ok ⟨espErrNvsInvalidLength, none, length, none⟩

/-- The blob fills its entries, or the buffer has its size; and the buffer is large enough. -/
def BlobFits (n : ℕ) : Option UInt32 → Prop
  | none => n % 32 = 8
  | some c => n ≤ c.toNat ∧ (c.toNat = n ∨ n % 32 = 8)

theorem itemSpan_ofNat {n : ℕ} (h : n ≤ 8136) :
    8 + 32 * ((itemSpan (.ofNat n)).toNat - 1) = if n ≤ 8 then 8 else 8 + 32 * ((n + 23) / 32) := by
  have hn := toNat_ofNat_of_le h
  split_ifs with h8
  · rw [itemSpan_small (by omega)]
    rfl
  · rw [itemSpan_toNat (by omega) (by omega), hn]
    omega

/-- A blob fills its entries where its data area has its length. -/
theorem length_dataArea_eq_iff {bs : List UInt8} (h : bs.length ≤ 8136) :
    bs.length ≤ (dataArea (some bs) (.ofNat bs.length)).length ∧ (dataArea (some bs) (.ofNat bs.length)).length ≤ 8200 ∧
      ((dataArea (some bs) (.ofNat bs.length)).length = bs.length ↔ bs.length % 32 = 8) := by
  rw [length_dataArea, itemSpan_ofNat h]
  split_ifs <;> omega

/-- `nvs_get_blob` copies what the buffer and the data area both hold. -/
theorem read_blob (nsIndex : UInt8) (k area : List UInt8) (capacity : Option UInt32) :
    (Getter.blob capacity).read (some ⟨(nsIndex, k), ItemType.blob.code, area⟩) = match capacity with
      | none => .ok ⟨espOk, none, some (.ofNat area.length), none⟩
      | some c => .ok ⟨espOk, some (area.take (min (.ofNat area.length) c).toNat), some (min (.ofNat area.length) c), none⟩ := by
  cases capacity <;> simp only [Getter.read, Getter.itemType, ne_eq, not_true, if_false]

theorem blobContract_read_iff {bs : List UInt8} (hlen : bs.length ≤ 8136) (nsIndex : UInt8) (k : List UInt8)
    (capacity : Option UInt32) :
    BlobContract bs capacity ((Getter.blob capacity).read (some ⟨(nsIndex, k), ItemType.blob.code,
      dataArea (some bs) (.ofNat bs.length)⟩)) ↔ BlobFits bs.length capacity := by
  obtain ⟨hle, hmax, hfill⟩ := length_dataArea_eq_iff hlen
  obtain ⟨rest, harea⟩ := dataArea_eq hlen
  have hn := toNat_ofNat_of_le hlen
  rw [read_blob]
  generalize dataArea (some bs) (.ofNat bs.length) = area at *
  have hcap : (UInt32.ofNat area.length).toNat = area.length := by
    rw [UInt32.toNat_ofNat', Nat.mod_eq_of_lt (by omega)]
  cases capacity with
  | none =>
    have hiff : UInt32.ofNat area.length = .ofNat bs.length ↔ area.length = bs.length := by
      rw [← UInt32.toNat_inj, hcap, hn]
    simpa only [BlobContract, BlobFits, Except.ok.injEq, Reply.mk.injEq, true_and, and_true, Option.some.injEq, hiff] using hfill
  | some c =>
    have hmin : (min (UInt32.ofNat area.length) c).toNat = min area.length c.toNat := by rw [toNat_min, hcap]
    simp only [BlobContract, BlobFits]
    split_ifs with hc
    · have hiff : min (UInt32.ofNat area.length) c = .ofNat bs.length ↔ min area.length c.toNat = bs.length := by
        rw [← UInt32.toNat_inj, hmin, hn]
      simp only [Except.ok.injEq, Reply.mk.injEq, true_and, and_true, Option.some.injEq, hiff, hmin]
      constructor
      · rintro ⟨-, h⟩
        omega
      · intro h
        have heq : min area.length c.toNat = bs.length := by omega
        rw [heq, harea]
        exact ⟨List.take_left, rfl⟩
    · refine iff_of_false ?_ fun h => hc h.1
      rintro ⟨length, h⟩
      simp only [Except.ok.injEq, Reply.mk.injEq] at h
      exact absurd h.1 (by decide)

/-- In every run of regular calls: a blob that was set is read as documented if
and only if it fills its entries, or the buffer has exactly its size; and the
buffer is not too small. -/
theorem blob_read_iff (hw : Reach env (Regular env) noCut w) (hkey : key.bytes.length ≤ 15) {bs : List UInt8}
    (hlen : bs.length ≤ 4000) (hc : Regular env w (.set (.blob (some bs) (.ofNat bs.length)) handle key)) {depth : ℕ} {r : Reply}
    (hr : ((Call.set (.blob (some bs) (.ofNat bs.length)) handle key).prog env depth).run w = (.ok r, w')) (hok : r.err = espOk)
    {w₁ : NvsWorld} (h₁ : ReadableFrom env w w' (nsIndexOf handle) ItemType.blob.code key.bytes w₁) (capacity : Option UInt32) :
    BlobContract bs capacity (((Getter.blob capacity).prog env handle key).run w₁).1 ↔ BlobFits bs.length capacity := by
  rw [get_set hw hkey hc hr hok h₁ (g := .blob capacity) rfl]
  exact blobContract_read_iff (by omega) _ _ capacity

theorem blob_read_iff_factory : ∃ w',
    ((Call.set (.blob (some (List.replicate 8 7)) 8) 10 keyA).prog (.built []) 1).run factory = (.ok (.code espOk), w') ∧
      (BlobContract (List.replicate 8 7) none (((Getter.blob none).prog (.built []) 10 keyA).run w').1 ↔ BlobFits 8 none) := by
  have hc := refines_factory.faithful (.built []) (c := .set (.blob (some (List.replicate 8 7)) 8) 10 keyA) (by decide)
  have hr := run_eq ((refines_factory.run hc 1).trans (show _ = Except.ok (.code espOk) by decide))
  exact ⟨_, hr, blob_read_iff reach_factory (by decide) (by decide) hc.regular hr rfl (.inl ⟨rfl, rfl⟩) none⟩

/-- A blob of 10 bytes is reported with 40. -/
theorem blob_length_lost :
    let l := calls (.built []) [(1, .set (.blob (some (List.replicate 10 7)) 10) 10 keyA)] factory
    l.1 = [.ok (.code espOk)] ∧
      ¬ BlobContract (List.replicate 10 7) none (((Getter.blob none).prog (.built []) 10 keyA).run l.2).1 := by
  intro l
  have h : l.1 = [.ok (.code espOk)] ∧
      (((Getter.blob none).prog (.built []) 10 keyA).run l.2).1 = .ok ⟨espOk, none, some 40, none⟩ := by decide +kernel
  refine ⟨h.1, ?_⟩
  rw [h.2]
  exact (by decide : ¬ (Except.ok ⟨espOk, none, some 40, none⟩ : Except Defect Reply) = .ok ⟨espOk, none, some 10, none⟩)

/-! ### Strings -/

/-- The string, its terminator and its length were read. -/
def ReadsStr (value : CString) (r : Except Defect Reply) : Prop :=
  ∃ out, r = .ok ⟨espOk, some out, some (.ofNat (value.bytes.length + 1)), none⟩ ∧
    out.take (value.bytes.length + 1) = value.bytes ++ [0]

/-- What the documentation of `nvs_get_str` promises for a string and a buffer: a
buffer of the size reported without one will do, and one too small is refused. -/
def StrContract (env : Env) (handle : UInt32) (key : CString) (value : CString) (w : NvsWorld) : Option UInt32 → Prop
  | none => ∃ m w', ((Getter.str none).prog env handle key).run w = (.ok ⟨espOk, none, some m, none⟩, w') ∧
      ReadsStr value (((Getter.str (some m)).prog env handle key).run w').1
  | some c =>
    if value.bytes.length + 1 ≤ c.toNat then ReadsStr value (((Getter.str (some c)).prog env handle key).run w).1
    else ∃ length, (((Getter.str (some c)).prog env handle key).run w).1 = .ok ⟨espErrNvsInvalidLength, none, length, none⟩

/-- A lookup made again has the same answer. -/
theorem lookup_twice (env : Env) (w : NvsWorld) (nsIndex datatype : UInt8) (k : List UInt8) (chunkIndex : UInt8) :
    (lookup env ⟨w.flash, (lookup env w nsIndex datatype k chunkIndex).2⟩ nsIndex datatype k chunkIndex).1 =
      (lookup env w nsIndex datatype k chunkIndex).1 := by
  generalize hl : lookup env w nsIndex datatype k chunkIndex = l
  rw [lookup] at hl
  cases hc : cachedAt w.flash nsIndex datatype k chunkIndex (getFromCache env nsIndex k w.ram) with
  | some found =>
    obtain rfl : (found, w.ram) = l := by simpa only [hc] using hl
    simp only [lookup, hc]
  | none =>
    cases hs : scan w.flash nsIndex datatype k chunkIndex with
    | none =>
      obtain rfl : (notFound, w.ram) = l := by simpa only [hc, hs] using hl
      simp only [lookup, hc, hs]
    | some found =>
      simp only [hc, hs] at hl
      obtain ⟨p, i, ⟨⟨hp, hi, -, -, hnamed, hchunked⟩, -⟩, rfl⟩ := scan_eq_some_iff.1 hs
      rw [show (answer w.flash datatype p i).pageAddr + entryDataOffset + (answer w.flash datatype p i).entryIdx * entrySize =
        slotAddr p i from rfl] at hl
      subst hl
      split_ifs with hok
      · -- the cache now names the slot that was found, or is not used
        have htyped : (itemAt w.flash p i).typed datatype := by
          by_contra hne
          have hmismatch : espErrNvsTypeMismatch ≠ espOk := by decide
          rw [answer, if_neg hne] at hok
          exact hmismatch hok
        cases he : env.cached with
        | true =>
          have hslot := cachedAt_slot w.flash nsIndex datatype k chunkIndex hp hi
          rw [if_pos ⟨hnamed, htyped, hchunked⟩] at hslot
          simp only [lookup, getFromCache_updateCache he, hslot]
        | false =>
          have h0 : ∀ cache, getFromCache env nsIndex k cache = 0 := fun cache => by
            simp only [getFromCache, he, Bool.false_eq_true, if_false]
          simp only [lookup, h0, cachedAt_zero, hs]
      · simp only [lookup, hc, hs]

theorem run_getter_snd (env : Env) (g : Getter) (handle : UInt32) (key : CString) (w : NvsWorld) :
    ((g.prog env handle key).run w).2 =
      ⟨w.flash, (lookup env w (nsIndexOf handle) g.itemType.code key.bytes 0xff).2⟩ := by
  refine run_snd (G := fun _ _ => True) (I := fun w' => w' = ⟨w.flash, _⟩) ((wp_getter env g handle key).2 ?_)
  split <;> rfl

/-- A getter reads the same after another getter of its type. -/
theorem get_after_get (env : Env) {g g' : Getter} (hg : g.itemType = g'.itemType) (handle : UInt32) (key : CString)
    (w : NvsWorld) : ((g.prog env handle key).run ((g'.prog env handle key).run w).2).1 = ((g.prog env handle key).run w).1 := by
  rw [run_getter, run_getter, run_getter_snd, hg, lookup_twice]

/-- `nvs_get_str` copies what the buffer and the data area both hold, and looks for the terminator there. -/
theorem read_str_some (nsIndex : UInt8) (k area : List UInt8) (c : UInt32) :
    (Getter.str (some c)).read (some ⟨(nsIndex, k), ItemType.sz.code, area⟩) =
      match findTerminator (area.take (min (.ofNat area.length) c).toNat) 0 with
      | some actualLen => .ok ⟨espOk, some (area.take (min (.ofNat area.length) c).toNat),
          some ((actualLen.map UInt32.ofNat).getD (min (.ofNat area.length) c)), none⟩
      | none => .error .index := by
  unfold Getter.read
  exact if_neg fun h => h rfl

theorem read_str_none (nsIndex : UInt8) (k area : List UInt8) :
    (Getter.str none).read (some ⟨(nsIndex, k), ItemType.sz.code, area⟩) =
      .ok ⟨espOk, none, some (.ofNat area.length), none⟩ := by
  unfold Getter.read
  exact if_neg fun h => h rfl

/-- A getter with a buffer of at least the size of the string reads it. -/
theorem readsStr_read {value : CString} (hlen : value.bytes.length + 1 ≤ 1000) {rest : List UInt8} (nsIndex : UInt8)
    (k : List UInt8) {c : UInt32} (hmax : (value.bytes ++ [0] ++ rest).length ≤ 8200) (hc : value.bytes.length + 1 ≤ c.toNat) :
    ReadsStr value ((Getter.str (some c)).read (some ⟨(nsIndex, k), ItemType.sz.code, value.bytes ++ [0] ++ rest⟩)) := by
  have hcap : (UInt32.ofNat (value.bytes ++ [0] ++ rest).length).toNat = (value.bytes ++ [0] ++ rest).length := by
    rw [UInt32.toNat_ofNat', Nat.mod_eq_of_lt (by omega)]
  have hmin := toNat_min (UInt32.ofNat (value.bytes ++ [0] ++ rest).length) c
  rw [hcap] at hmin
  have hle : value.bytes.length + 1 ≤ (min (UInt32.ofNat (value.bytes ++ [0] ++ rest).length) c).toNat := by
    rw [hmin, List.length_append, List.length_append, List.length_singleton]
    omega
  obtain ⟨n, hn⟩ := Nat.exists_eq_add_of_le hle
  have htake : (value.bytes ++ [0] ++ rest).take (min (UInt32.ofNat (value.bytes ++ [0] ++ rest).length) c).toNat =
      value.bytes ++ 0 :: rest.take n := by
    rw [hn, List.take_append, List.take_of_length_le (by simp), List.append_assoc, List.singleton_append]
    simp
  have hterm := findTerminator_append value.nul_free (rest.take n) (i := 0) (by omega)
  rw [Nat.zero_add] at hterm
  rw [read_str_some, htake, hterm]
  refine ⟨_, rfl, ?_⟩
  rw [← List.singleton_append, ← List.append_assoc, List.take_left' (by simp)]

/-- No getter of a string refuses a buffer. -/
theorem read_str_ne_invalidLength (nsIndex : UInt8) (k area : List UInt8) (c : UInt32) (length : Option UInt32) :
    (Getter.str (some c)).read (some ⟨(nsIndex, k), ItemType.sz.code, area⟩) ≠ .ok ⟨espErrNvsInvalidLength, none, length, none⟩ := by
  rw [read_str_some]
  cases findTerminator (area.take (min (.ofNat area.length) c).toNat) 0 with
  | none => exact fun h => by cases h
  | some actualLen =>
    intro h
    simp only [Except.ok.injEq, Reply.mk.injEq] at h
    exact absurd h.1 (by decide)

/-- In every run of regular calls: a string that was set is read as documented,
within the array of the search, if and only if the buffer is not too small. -/
theorem str_read_iff (hw : Reach env (Regular env) noCut w) (hkey : key.bytes.length ≤ 15) {value : CString}
    (hlen : value.bytes.length ≤ 3999) (hc : Regular env w (.set (.str value) handle key)) {depth : ℕ} {r : Reply}
    (hr : ((Call.set (.str value) handle key).prog env depth).run w = (.ok r, w')) (hok : r.err = espOk)
    {w₁ : NvsWorld} (h₁ : ReadableFrom env w w' (nsIndexOf handle) ItemType.sz.code key.bytes w₁) (capacity : Option UInt32) :
    StrContract env handle key value w₁ capacity ↔ ∀ c ∈ capacity, value.bytes.length + 1 ≤ c.toNat := by
  obtain ⟨a, u, hs⟩ := hw.sound fun _ _ h => h
  obtain ⟨-, hspan, -⟩ := set_stored hs hc hr hok
  -- the string fits 32 entries, so its terminator is among the bytes searched
  have hle : (value.bytes ++ [0]).length ≤ 1000 := by
    have hn : (value.bytes ++ [0]).length ≤ 8136 := by
      rw [List.length_append, List.length_singleton]
      omega
    have := le_of_itemSpan (by rw [toNat_ofNat_of_le hn]; exact hn)
    rw [toNat_ofNat_of_le hn] at this
    change (itemSpan (.ofNat (value.bytes.length + 1))).toNat ≤ 32 at hspan
    rw [List.length_append, List.length_singleton] at this ⊢
    omega
  have hn : (value.bytes ++ [0]).length ≤ 8136 := by omega
  obtain ⟨rest, harea⟩ := dataArea_eq hn
  obtain ⟨-, hmax, -⟩ := length_dataArea_eq_iff hn
  rw [harea] at hmax
  have hget : ∀ capacity, (((Getter.str capacity).prog env handle key).run w₁).1 = (Getter.str capacity).read
      (some ⟨(nsIndexOf handle, key.bytes), ItemType.sz.code, value.bytes ++ [0] ++ rest⟩) := by
    intro capacity
    rw [get_set hw hkey hc hr hok h₁ (g := .str capacity) rfl, ← harea, List.length_append, List.length_singleton]
    rfl
  rw [List.length_append, List.length_singleton] at hle
  have hreads : ∀ c : UInt32, value.bytes.length + 1 ≤ c.toNat →
      ReadsStr value (((Getter.str (some c)).prog env handle key).run w₁).1 := by
    intro c hc
    rw [hget]
    exact readsStr_read hle _ _ hmax hc
  cases capacity with
  | none =>
    refine iff_of_true ?_ (by simp)
    refine ⟨.ofNat (value.bytes ++ [0] ++ rest).length, (((Getter.str none).prog env handle key).run w₁).2,
      Prod.ext (by rw [hget, read_str_none]) rfl, ?_⟩
    -- the size reported is at least the size of the string
    rw [get_after_get env (show (Getter.str (some _)).itemType = (Getter.str none).itemType from rfl)]
    apply hreads _
    rw [UInt32.toNat_ofNat', Nat.mod_eq_of_lt (by omega), List.length_append, List.length_append, List.length_singleton]
    omega
  | some c =>
    simp only [StrContract, Option.mem_some_iff, forall_eq']
    split_ifs with hle'
    · exact iff_of_true (hreads c hle') hle'
    · refine iff_of_false ?_ hle'
      rintro ⟨length, h⟩
      rw [hget] at h
      exact read_str_ne_invalidLength _ _ _ c length h

def hello : CString := ⟨[104, 101, 108, 108, 111], by decide⟩

theorem str_read_iff_factory : ∃ w',
    ((Call.set (.str hello) 10 keyA).prog (.built []) 1).run factory = (.ok (.code espOk), w') ∧
      (StrContract (.built []) 10 keyA hello w' (some 6) ↔ ∀ c ∈ some 6, hello.bytes.length + 1 ≤ UInt32.toNat c) := by
  have hc := refines_factory.faithful (.built []) (c := .set (.str hello) 10 keyA) (by decide)
  have hr := run_eq ((refines_factory.run hc 1).trans (show _ = Except.ok (.code espOk) by decide))
  exact ⟨_, hr, str_read_iff reach_factory (by decide) (by decide) hc.regular hr rfl (.inl ⟨rfl, rfl⟩) (some 6)⟩

/-- A buffer of 3 bytes is filled with `"hel"`, and the call returns `ESP_OK`. -/
theorem str_prefix_accepted :
    let l := calls (.built []) [(1, .set (.str hello) 10 keyA)] factory
    l.1 = [.ok (.code espOk)] ∧
      (((Getter.str (some 3)).prog (.built []) 10 keyA).run l.2).1 = .ok ⟨espOk, some [104, 101, 108], some 3, none⟩ ∧
      ¬ StrContract (.built []) 10 keyA hello l.2 (some 3) := by
  intro l
  have h : l.1 = [.ok (.code espOk)] ∧ (((Getter.str (some 3)).prog (.built []) 10 keyA).run l.2).1 =
      .ok ⟨espOk, some [104, 101, 108], some 3, none⟩ := by decide +kernel
  refine ⟨h.1, h.2, ?_⟩
  have hlt : ¬ hello.bytes.length + 1 ≤ (3 : UInt32).toNat := by decide
  have hne : espOk ≠ espErrNvsInvalidLength := by decide
  rw [StrContract, if_neg hlt, h.2]
  rintro ⟨length, h⟩
  simp only [Except.ok.injEq, Reply.mk.injEq] at h
  exact hne h.1

end Esp8266Sdk.Nvs
