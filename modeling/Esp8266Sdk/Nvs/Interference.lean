import Esp8266Sdk.Kv.Related
import Esp8266Sdk.Nvs.Transparency

/-! Payload bytes. Two runs that store other bytes under one string or blob key
differ in what is read from that key and in nothing else, as long as no call
takes a payload entry for an item. -/

namespace Esp8266Sdk.Nvs

open Nor Prog Kv

/-! ### Two runs -/

/-- The same call, or two sets of a string or a blob of one length under the name. -/
inductive Call.Similar (name : UInt8 × List UInt8) : Call → Call → Prop
  | same (c : Call) : Similar name c c
  | str {value value' : CString} {handle : UInt32} {key : CString} (hname : (nsIndexOf handle, key.bytes) = name)
      (hlength : value.bytes.length = value'.bytes.length) :
      Similar name (.set (.str value) handle key) (.set (.str value') handle key)
  | blob {value value' : List UInt8} {length : UInt32} {handle : UInt32} {key : CString}
      (hname : (nsIndexOf handle, key.bytes) = name) :
      Similar name (.set (.blob (some value) length) handle key) (.set (.blob (some value') length) handle key)

/-- The call reads the value of the name. -/
def Call.Gets (name : UInt8 × List UInt8) : Call → Prop
  | .get _ handle key => (nsIndexOf handle, key.bytes) = name
  | _ => False

instance (name : UInt8 × List UInt8) : (c : Call) → Decidable (c.Gets name)
  | .get .. => inferInstanceAs (Decidable (_ = _))
  | .flashInit | .flashDeinit | .flashErase | .open _ | .close _ | .commit _ | .set .. |
    .eraseKey .. | .eraseAll _ => inferInstanceAs (Decidable False)

/-- Two sequences with similar calls, on stacks of the same depths. -/
def Similar (name : UInt8 × List UInt8) (l l' : List (ℕ × Call)) : Prop :=
  List.Forall₂ (fun x x' => x.1 = x'.1 ∧ x.2.Similar name x'.2) l l'

/-! ### The abstract store -/

/-- The same record, or two of a string or blob of the name, of one length. -/
def AlikeRecords (name : UInt8 × List UInt8) (e e' : Record) : Prop :=
  e = e' ∨ e.name = name ∧ e'.name = name ∧ e.kind = e'.kind ∧ e.kind ≠ ItemType.u8.code ∧ e.value.length = e'.value.length

variable {name : UInt8 × List UInt8} {e e' : Record}

namespace AlikeRecords

theorem name_eq (h : AlikeRecords name e e') : e.name = e'.name := by
  rcases h with rfl | ⟨h, h', -⟩
  · rfl
  · rw [h, h']

theorem kind_eq (h : AlikeRecords name e e') : e.kind = e'.kind := by
  rcases h with rfl | ⟨-, -, h, -⟩
  · rfl
  · exact h

theorem eq_of_name (h : AlikeRecords name e e') (hn : e.name ≠ name) : e = e' := h.resolve_right fun h => hn h.1

theorem eq_of_kind (h : AlikeRecords name e e') (hk : e.kind = ItemType.u8.code) : e = e' :=
  h.resolve_right fun h => h.2.2.2.1 hk

end AlikeRecords

/-- Two stores that differ in the bytes under the name. -/
structure AlikeStores (name : UInt8 × List UInt8) (s s' : Store) : Prop where
  log : List.Forall₂ (AlikeRecords name) s.log s'.log
  page : s.page = s'.page
  used : s.used = s'.used

/-- The values are short enough for the search for a terminator. -/
def Store.Searchable (s : Store) : Prop := ∀ e ∈ s.log, e.value.length ≤ 1024

variable {s s' : Store}

theorem AlikeStores.empty : AlikeStores name .empty .empty := ⟨.nil, rfl, rfl⟩

theorem AlikeStores.drop (h : AlikeStores name s s') {P : Record → Prop} [DecidablePred P]
    (hP : ∀ e e', AlikeRecords name e e' → (P e ↔ P e')) : AlikeStores name (s.drop P) (s'.drop P) :=
  ⟨Log.related_drop h.log hP, h.page, h.used⟩

theorem AlikeStores.put (h : AlikeStores name s s') (he : AlikeRecords name e e') (depth n : ℕ) :
    (s.put depth n e).1 = (s'.put depth n e').1 ∧ AlikeStores name (s.put depth n e).2 (s'.put depth n e').2 := by
  have hput := Log.related_put h.log he
  unfold Store.put
  rw [h.used, h.page]
  split_ifs <;> first | exact ⟨rfl, h⟩ | exact ⟨rfl, ⟨hput, rfl, rfl⟩⟩ | exact ⟨rfl, ⟨h.log, rfl, rfl⟩⟩

theorem Store.Searchable.put (h : s.Searchable) {depth n : ℕ} {err : EspErr} (he : n ≤ 32 → e.value.length ≤ 1024)
    (hr : (s.put depth n e).1 = .ok err) : (s.put depth n e).2.Searchable := by
  have hput : n ≤ 32 → ∀ x ∈ s.log.put e, x.value.length ≤ 1024 := by
    intro hn x hx
    rcases Log.mem_put.1 hx with hx | rfl
    · exact h x hx
    · exact he hn
  unfold Store.put at hr ⊢
  split_ifs at hr ⊢ <;> first | exact h | exact hput (by omega)

/-! ### One call -/

/-- A value that can be searched is read without a failure. -/
theorem Getter.isOk_read (g : Getter) {o : Option Record} (ho : ∀ e, o = some e → e.value.length ≤ 1024) :
    (g.read o).isOk = true := by
  have hfind : ∀ (l : List UInt8) (i : ℕ), i + l.length ≤ 1024 → (findTerminator l i).isSome = true := by
    intro l
    induction l with
    | nil => exact fun _ _ => rfl
    | cons c l ih =>
      intro i hi
      simp only [List.length_cons] at hi
      rw [findTerminator, if_neg (by omega)]
      split_ifs
      · rfl
      · exact ih (i + 1) (by omega)
  cases o with
  | none => rfl
  | some e =>
    unfold Getter.read
    dsimp only
    split_ifs
    · rfl
    cases g with
    | scalar k => rfl
    | str capacity =>
      cases capacity with
      | none => rfl
      | some length =>
        have hlen := ho e rfl
        obtain ⟨n, hn⟩ := Option.isSome_iff_exists.1
          (hfind (e.value.take (min (UInt32.ofNat e.value.length) length).toNat) 0 (by rw [List.length_take]; omega))
        simp only [hn]
        rfl
    | blob capacity => cases capacity <;> rfl

theorem length_newRecord_le {nsIndex datatype : UInt8} {key : List UInt8} {data : Option (List UInt8)} {length : UInt32}
    (h : (itemSpan length).toNat ≤ 32) : (newRecord nsIndex datatype key data length).value.length ≤ 1024 := by
  rw [newRecord, length_dataArea]
  omega

/-- What a call that returns has stored can be searched. -/
theorem Store.Searchable.step (h : s.Searchable) {depth : ℕ} {c : Call} {r : Reply} (hr : (s.step depth c).1 = .ok r) :
    (s.step depth c).2.Searchable := by
  have hput : ∀ {s : Store}, s.Searchable → ∀ {n : ℕ} {e : Record} {f : EspErr → Reply} {r : Reply},
      (n ≤ 32 → e.value.length ≤ 1024) → (s.put depth n e).1.map f = .ok r → (s.put depth n e).2.Searchable := by
    intro s h n e f r he hr
    cases hp : (s.put depth n e).1 with
    | error d =>
      rw [hp] at hr
      cases hr
    | ok err => exact h.put he hp
  have hdrop : ∀ {P : Record → Prop} [DecidablePred P], (s.drop P).Searchable :=
    fun e he => h e (Log.mem_drop.1 he).1
  cases c with
  | «open» name =>
    simp only [Store.step] at hr ⊢
    split_ifs at hr ⊢
    · exact h
    split at hr
    · exact h
    · exact hput h (fun _ => length_newRecord_le (by decide)) hr
  | set st handle key => exact hput hdrop length_newRecord_le hr
  | eraseKey handle key => exact hdrop
  | eraseAll handle => exact hdrop
  | flashErase => exact fun e he => absurd he List.not_mem_nil
  | _ => exact h

/-- A set of a string or a blob of one length in both stores. -/
theorem AlikeStores.set (h : AlikeStores name s s') (hlen : name.2.length ≤ 15) {st st' : Setter} {handle : UInt32}
    {key : CString} (hname : (nsIndexOf handle, key.bytes) = name) (htype : st.itemType = st'.itemType)
    (hu8 : st.itemType.code ≠ ItemType.u8.code) (hlength : st.length = st'.length) (depth : ℕ) :
    (s.step depth (.set st handle key)).1 = (s'.step depth (.set st' handle key)).1 ∧
      AlikeStores name (s.step depth (.set st handle key)).2 (s'.step depth (.set st' handle key)).2 := by
  have hcut : (nsIndexOf handle, key.bytes.take 15) = name := by
    rw [← hname] at hlen
    rw [List.take_of_length_le hlen, hname]
  have hrecord : AlikeRecords name (newRecord (nsIndexOf handle) st.itemType.code key.bytes st.data st.length)
      (newRecord (nsIndexOf handle) st.itemType.code key.bytes st'.data st'.length) :=
    .inr ⟨hcut, hcut, rfl, hu8, by rw [newRecord, newRecord, length_dataArea, length_dataArea, hlength]⟩
  have hdrop := h.drop (P := fun e => e.name = (nsIndexOf handle, key.bytes) ∧ e.kind = st.itemType.code)
    fun e e' he => by rw [he.name_eq, he.kind_eq]
  obtain ⟨hres, hstores⟩ := hdrop.put hrecord depth (itemSpan st.length).toNat
  rw [hlength] at hres hstores
  constructor
  · simp only [Store.step, ← htype, hlength, hres]
  · simpa only [Store.step, ← htype, hlength] using hstores

/-- Two similar calls on alike stores end alike, except where they read the name. -/
theorem AlikeStores.step (h : AlikeStores name s s') (hlen : name.2.length ≤ 15) (hs : s.Searchable) (hs' : s'.Searchable)
    {c c' : Call} (hc : c.Similar name c') (depth : ℕ) :
    (s.step depth c).1.isOk = (s'.step depth c').1.isOk ∧ (¬ c.Gets name → (s.step depth c).1 = (s'.step depth c').1) ∧
      AlikeStores name (s.step depth c).2 (s'.step depth c').2 := by
  have hfrom : ∀ {x x' : Except Defect Reply} {t t' : Store}, x = x' ∧ AlikeStores name t t' →
      x.isOk = x'.isOk ∧ (¬ c.Gets name → x = x') ∧ AlikeStores name t t' :=
    fun h => ⟨h.1 ▸ rfl, fun _ => h.1, h.2⟩
  cases hc with
  | @str value value' handle key hname hlength =>
    have hset : (Setter.str value).length = (Setter.str value').length := by
      rw [Setter.length, Setter.length, hlength]
    exact hfrom (@AlikeStores.set name s s' h hlen (.str value) (.str value') handle key hname rfl
      (show ItemType.sz.code ≠ ItemType.u8.code by decide) hset depth)
  | @blob value value' length handle key hname =>
    exact hfrom (@AlikeStores.set name s s' h hlen (.blob (some value) length) (.blob (some value') length) handle key
      hname rfl (show ItemType.blob.code ≠ ItemType.u8.code by decide) rfl depth)
  | same =>
    cases c with
    | «open» n =>
      apply hfrom
      simp only [Store.step]
      split_ifs with hphy
      · exact ⟨rfl, h⟩
      have hlookup := Log.related_lookup h.log (fun _ _ he => he.name_eq) (0, n.bytes)
      have hfilter : ((s.log.lookup (0, n.bytes)).filter fun e => e.kind = ItemType.u8.code) =
          (s'.log.lookup (0, n.bytes)).filter fun e => e.kind = ItemType.u8.code := by
        generalize s.log.lookup (0, n.bytes) = x at hlookup
        generalize s'.log.lookup (0, n.bytes) = x' at hlookup
        cases hlookup with
        | none => rfl
        | @some e e' he =>
          by_cases hk : e.kind = ItemType.u8.code
          · rw [he.eq_of_kind hk]
          · rw [Option.filter_some, Option.filter_some, ← he.kind_eq]
            simp [hk]
      rw [hfilter]
      cases (s'.log.lookup (0, n.bytes)).filter fun e => e.kind = ItemType.u8.code with
      | some e => exact ⟨rfl, h⟩
      | none =>
        obtain ⟨hres, hstores⟩ := h.put (.inl rfl : AlikeRecords name (registration n.bytes) _) depth 1
        exact ⟨congrArg (Except.map openReply) hres, hstores⟩
    | get g handle key =>
      have hlookup := Log.related_lookup h.log (fun _ _ he => he.name_eq) (nsIndexOf handle, key.bytes)
      have hok : ∀ {s : Store}, s.Searchable → (s.step depth (.get g handle key)).1.isOk = true :=
        fun hs => g.isOk_read fun e he => hs e (Log.lookup_mem he)
      refine ⟨(hok hs).trans (hok hs').symm, fun hname => ?_, h⟩
      simp only [Store.step]
      generalize hx : s.log.lookup (nsIndexOf handle, key.bytes) = x at hlookup
      generalize s'.log.lookup (nsIndexOf handle, key.bytes) = x' at hlookup
      cases hlookup with
      | none => rfl
      | @some e e' he =>
        have hne : e.name ≠ name := fun hn => hname ((Log.lookup_name hx).symm.trans hn)
        rw [he.eq_of_name hne]
    | set st handle key =>
      apply hfrom
      have hdrop := h.drop (P := fun e => e.name = (nsIndexOf handle, key.bytes) ∧ e.kind = st.itemType.code)
        fun e e' he => by rw [he.name_eq, he.kind_eq]
      obtain ⟨hres, hstores⟩ := hdrop.put (.inl rfl : AlikeRecords name
        (newRecord (nsIndexOf handle) st.itemType.code key.bytes st.data st.length) _) depth (itemSpan st.length).toNat
      exact ⟨congrArg (Except.map Reply.code) hres, hstores⟩
    | eraseKey handle key => exact hfrom ⟨rfl, h.drop fun e e' he => by rw [he.name_eq]⟩
    | eraseAll handle => exact hfrom ⟨rfl, h.drop fun e e' he => by rw [he.name_eq]⟩
    | flashErase => exact hfrom ⟨rfl, .empty⟩
    | _ => exact hfrom ⟨rfl, h⟩

/-! ### Runs -/

variable {env : Env} {w w' : NvsWorld} {l l' : List (ℕ × Call)}

/-- Faithful calls of two similar sequences end alike, except where they read the name. -/
theorem calls_similar (hl : Similar name l l') (hlen : name.2.length ≤ 15) (h : Refines w s) (h' : Refines w' s')
    (ha : AlikeStores name s s') (hs : s.Searchable) (hs' : s'.Searchable) (hf : Each env (Faithful env) l w)
    (hf' : Each env (Faithful env) l' w') :
    (calls env l w).1.map Except.isOk = (calls env l' w').1.map Except.isOk ∧
      ∀ (i : ℕ) (x : ℕ × Call), l[i]? = some x → ¬ x.2.Gets name → (calls env l w).1[i]? = (calls env l' w').1[i]? := by
  induction hl generalizing w w' s s' with
  | nil => exact ⟨rfl, fun _ _ _ _ => rfl⟩
  | @cons x x' l l' hx hl ih =>
    obtain ⟨depth, c⟩ := x
    obtain ⟨depth', c'⟩ := x'
    obtain ⟨rfl, hc⟩ : depth = depth' ∧ c.Similar name c' := hx
    obtain ⟨hcall, hrest⟩ := hf
    obtain ⟨hcall', hrest'⟩ := hf'
    obtain ⟨hok, hres, hstores⟩ := ha.step hlen hs hs' hc depth
    have hrun := h.run hcall depth
    have hrun' := h'.run hcall' depth
    rw [← hrun, ← hrun'] at hok hres
    rw [calls, calls]
    rcases hr : (c.prog env depth).run w with ⟨e | r, w₁⟩ <;>
      rcases hr' : (c'.prog env depth).run w' with ⟨e' | r', w₁'⟩ <;> rw [hr, hr'] at hok hres
    · refine ⟨rfl, fun i x hi hx => ?_⟩
      cases i with
      | zero =>
        obtain rfl := Option.some.inj hi
        exact congrArg some (hres hx)
      | succ i => rfl
    · cases hok
    · cases hok
    · rw [hr] at hrun
      rw [hr'] at hrun'
      obtain ⟨hoks, hreplies⟩ := ih (wp_ok (call_refines env depth h hcall) hr).2
        (wp_ok (call_refines env depth h' hcall') hr').2 hstores (hs.step hrun.symm) (hs'.step hrun'.symm)
        (hrest r w₁ hr) (hrest' r' w₁' hr')
      refine ⟨congrArg (List.cons true) hoks, fun i x hi hx => ?_⟩
      cases i with
      | zero =>
        obtain rfl := Option.some.inj hi
        exact congrArg some (hres hx)
      | succ i => exact hreplies i x hi hx

/-- Two sequences that differ in the bytes of a string or blob under one name, each from
an erased partition and with every call faithful: they stop at the same call, and every
call that does not read the name returns the same in both. -/
theorem payload_not_interfering {f f' : Flash} (hf : Erased f) (hf' : Erased f') (hlen : name.2.length ≤ 15)
    (hl : Similar name l l') (h : Each env (Faithful env) l (powerOn f)) (h' : Each env (Faithful env) l' (powerOn f')) :
    (calls env l (powerOn f)).1.map Except.isOk = (calls env l' (powerOn f')).1.map Except.isOk ∧
      ∀ (i : ℕ) (x : ℕ × Call), l[i]? = some x → ¬ x.2.Gets name → (calls env l (powerOn f)).1[i]? = (calls env l' (powerOn f')).1[i]? :=
  calls_similar hl hlen (refines_powerOn hf.abs) (refines_powerOn hf'.abs) .empty
    (fun _ he => absurd he List.not_mem_nil) (fun _ he => absurd he List.not_mem_nil) h h'

theorem Refines.each_pair (h : Refines w s) {c c' : Call} {depth : ℕ} {r : Reply} (hc : s.Admits c)
    (hr : (s.step depth c).1 = .ok r) (hc' : (s.step depth c).2.Admits c') (depth' : ℕ) :
    Each env (Faithful env) [(depth, c), (depth', c')] w := by
  have hfaithful := h.faithful env hc
  refine ⟨hfaithful, fun r' w' hrun => ⟨?_, fun _ _ _ => trivial⟩⟩
  obtain rfl : ((c.prog env depth).run w).2 = w' := congrArg Prod.snd hrun
  exact (h.next hfaithful hr).faithful env hc'

/-- The strings "x" and "y" under "b", and a get of "a". -/
theorem payload_not_interfering_factory :
    let l := calls (.built []) [(1, .set (.str ⟨[0x78], by decide⟩) 10 keyB), (1, .get (.scalar .u8) 10 keyA)] factory
    let l' := calls (.built []) [(1, .set (.str ⟨[0x79], by decide⟩) 10 keyB), (1, .get (.scalar .u8) 10 keyA)] factory
    l.1.map Except.isOk = l'.1.map Except.isOk ∧ l.1[1]? = l'.1[1]? := by
  have hx : Each (.built []) (Faithful (.built []))
      [(1, .set (.str ⟨[0x78], by decide⟩) 10 keyB), (1, .get (.scalar .u8) 10 keyA)] factory :=
    refines_factory.each_pair (r := .code espOk) (by decide) (by decide) (by decide) 1
  have hy : Each (.built []) (Faithful (.built []))
      [(1, .set (.str ⟨[0x79], by decide⟩) 10 keyB), (1, .get (.scalar .u8) 10 keyA)] factory :=
    refines_factory.each_pair (r := .code espOk) (by decide) (by decide) (by decide) 1
  have hl : Similar (nsIndexOf 10, keyB.bytes)
      [(1, .set (.str ⟨[0x78], by decide⟩) 10 keyB), (1, .get (.scalar .u8) 10 keyA)]
      [(1, .set (.str ⟨[0x79], by decide⟩) 10 keyB), (1, .get (.scalar .u8) 10 keyA)] :=
    .cons ⟨rfl, .str rfl rfl⟩ (.cons ⟨rfl, .same _⟩ .nil)
  have h := payload_not_interfering (fun _ _ _ => rfl) (fun _ _ _ => rfl) (by decide) hl hx hy
  exact ⟨h.1, h.2 1 _ rfl (by decide)⟩

/-- The second entry of a blob of 40 zero bytes is taken for no item; with other bytes
there it is taken for the value of "c". -/
theorem payload_interfering :
    let l (value : List UInt8) := calls (.built []) [(1, .set (.blob (some value) 40) 10 keyB),
      (1, .get (.scalar .u8) 10 ⟨[0x63], by decide⟩)] factory
    let forged : List UInt8 := [10, 1, 1, 0xff, 0, 0, 0, 0, 0x63] ++ List.replicate 15 0 ++ [42] ++ List.replicate 7 0
    (l (List.replicate 40 0)).1 = [.ok (.code espOk), .ok (.code espErrNvsNotFound)] ∧
      (l (List.replicate 8 0 ++ forged)).1 = [.ok (.code espOk), .ok ⟨espOk, some [42], none, none⟩] := by
  decide +kernel

end Esp8266Sdk.Nvs
