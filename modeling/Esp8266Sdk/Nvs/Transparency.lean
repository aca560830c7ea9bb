import Esp8266Sdk.Nvs.RamUse
import Esp8266Sdk.Nvs.RoundTrip

/-! What the cache changes. Writing and erasing do not look at it, and a lookup
that it answers gives what the scan would where the entry it points to is the
first written one of the name, or a copy of it. A bulk erase that leaves the cache
alone breaks this. -/

namespace Esp8266Sdk.Nvs

open Nor Prog

/-- The program whose `getFromCache` always returns 0. -/
def Env.uncached (stackTail : List UInt8) : Env := ⟨false, stackTail⟩

/-- Each call meets the condition in the world that the calls before it leave. -/
def Each (env : Env) (ok : NvsWorld → Call → Prop) : List (ℕ × Call) → NvsWorld → Prop
  | [], _ => True
  | (depth, c) :: l, w => ok w c ∧ ∀ r w', (c.prog env depth).run w = (.ok r, w') → Each env ok l w'

/-- What was found has the item of entry `i` of page `p`, and the same bytes behind it. -/
structure SameBlock (f : Flash) (r : Found) (p i : ℕ) : Prop where
  item : r.item = itemAt f p i
  rest : f.read (r.pageAddr + entryDataOffset + r.entryIdx * entrySize + 32) ((totalCap r.item).toNat - 8) =
    f.read (slotAddr p i + 32) ((totalCap r.item).toNat - 8)

/-- Where the cache answers the lookup, it answers with the first written item of the name or a copy of it. -/
def Current (env : Env) (w : NvsWorld) (nsIndex datatype : UInt8) (key : List UInt8) : Prop :=
  ∀ r, cachedAt w.flash nsIndex datatype key 0xff (getFromCache env nsIndex key w.ram) = some r →
    ∃ p i, FirstMatch w.flash nsIndex key 0xff p i ∧ SameBlock w.flash r p i

/-- The lookup of the call is not answered from a cache slot that is out of date. -/
def CacheCurrent (env : Env) (w : NvsWorld) : Call → Prop
  | .open name => name.bytes ≠ phyName → Current env w 0 ItemType.u8.code name.bytes
  | .get g handle key => Current env w (nsIndexOf handle) g.itemType.code key.bytes
  | _ => True

variable {tail : List UInt8} {w : NvsWorld} {s : Store} {nsIndex datatype chunkIndex : UInt8} {key : List UInt8}

/-! ### The program without the cache -/

theorem getFromCache_uncached (cache : Cache) : getFromCache (.uncached tail) nsIndex key cache = 0 := by
  unfold getFromCache
  exact if_neg Bool.false_ne_true

/-- Without the cache `findItem` answers what the scan finds. -/
theorem lookup_uncached (w : NvsWorld) : (lookup (.uncached tail) w nsIndex datatype key chunkIndex).1 =
    (scan w.flash nsIndex datatype key chunkIndex).getD notFound := by
  rw [lookup, getFromCache_uncached, cachedAt_zero]
  cases scan w.flash nsIndex datatype key chunkIndex <;> rfl

theorem writeOnly_findItem :
    WriteOnly (fun _ => True) (findItem (.uncached tail) nsIndex datatype key chunkIndex) := by
  refine ⟨fun f s t => ?_, fun _ _ => trivial⟩
  rw [run_findItem, run_findItem, lookup_uncached, lookup_uncached]
  exact ⟨rfl, rfl⟩

/-- No call of the program without the cache depends on the RAM. -/
theorem writeOnly_uncached (depth : ℕ) (c : Call) : WriteOnly (fun _ => True) (c.prog (.uncached tail) depth) := by
  have hI := slotInvariant_true
  cases c with
  | flashInit =>
    refine .bind (.reads reads_findActivePage) fun x _ => ?_
    simp only
    split
    · exact .bind (writeOnly_initializePage ..) fun _ _ => .pure _
    · exact .pure _
  | flashErase => exact .bind (.foldlM (fun _ _ => .step _ (.pure ())) _ _) fun _ _ => .pure _
  | «open» name =>
    rw [Call.prog, nvsOpen]
    split
    · exact .pure _
    refine .bind writeOnly_findItem fun r _ => ?_
    split
    · exact .pure _
    · refine .bind (writeOnly_writeItem hI ..) fun err _ => ?_
      split <;> exact .pure _
  | get g handle key =>
    refine ⟨fun f s t => ⟨?_, ?_⟩, fun _ _ => trivial⟩
    · rw [Call.prog, run_getter, run_getter, lookup_uncached, lookup_uncached]
    · rw [Call.prog, run_getter_snd, run_getter_snd]
  | set st handle key =>
    rw [Call.prog, Setter.prog_eq]
    exact .bind (writeOnly_eraseOldItem hI ..) fun _ _ => .bind (writeOnly_writeItem hI ..) fun _ _ => .pure _
  | eraseKey handle key => exact .bind (writeOnly_eraseOldItem hI ..) fun _ _ => .pure _
  | eraseAll handle => exact writeOnly_eraseAll handle
  | _ => exact .pure _

/-- `writeItem` is the same in both programs. -/
theorem writeItem_uncached (depth : ℕ) : writeItem (.uncached tail) depth = writeItem (.built tail) depth := by
  induction depth with
  | zero => rfl
  | succ depth ih =>
    rw [writeItem, writeItem, ih]
    congr 1
    funext src dest nextSeq
    rw [compactPageWith, compactPageWith]
    rfl

/-! ### Lookups that the cache answers -/

/-- A lookup answers as the scan does, or finds a copy of what the scan finds. -/
theorem Current.lookup (h : Current (.built tail) w nsIndex datatype key) :
    (lookup (.built tail) w nsIndex datatype key 0xff).1 = (lookup (.uncached tail) w nsIndex datatype key 0xff).1 ∨
      ∃ p i, (Nvs.lookup (.built tail) w nsIndex datatype key 0xff).1.err = espOk ∧
        (Nvs.lookup (.uncached tail) w nsIndex datatype key 0xff).1 = answer w.flash datatype p i ∧
        (itemAt w.flash p i).typed datatype ∧
        SameBlock w.flash (Nvs.lookup (.built tail) w nsIndex datatype key 0xff).1 p i := by
  rw [lookup_uncached, Nvs.lookup]
  cases hc : cachedAt w.flash nsIndex datatype key 0xff (getFromCache (.built tail) nsIndex key w.ram) with
  | none =>
    left
    cases scan w.flash nsIndex datatype key 0xff <;> rfl
  | some r =>
    obtain ⟨p, i, hfirst, hsame⟩ := h r hc
    rw [scan_eq_some_iff.2 ⟨p, i, hfirst, rfl⟩]
    rw [cachedAt] at hc
    split_ifs at hc with hm
    obtain rfl := Option.some.inj hc
    exact .inr ⟨p, i, rfl, rfl, hsame.item ▸ hm.2.2.1, hsame⟩

/-- A getter answers the same from two blocks with the same bytes. -/
theorem reply_sameBlock {f : Flash} {r : Found} {p i : ℕ} (g : Getter) (hr : r.err = espOk)
    (ht : (itemAt f p i).typed datatype) (h : SameBlock f r p i) : g.reply f r = g.reply f (answer f datatype p i) := by
  have hitem : (answer f datatype p i).item = r.item := h.item.symm
  have hcopy : ∀ length : UInt32, copyAt f r (min (totalCap r.item) length) =
      copyAt f (answer f datatype p i) (min (totalCap r.item) length) := by
    intro length
    rw [copyAt, copyAt, hitem]
    split_ifs with h8
    · have hlt : 8 < (min (totalCap r.item) length).toNat := UInt32.lt_iff_toNat_lt.1 h8
      have hsub : (min (totalCap r.item) length - 8).toNat = (min (totalCap r.item) length).toNat - 8 :=
        UInt32.toNat_sub_of_le _ _ (UInt32.le_iff_toNat_le.2 hlt.le)
      have hmin := toNat_min (totalCap r.item) length
      have hle : (min (totalCap r.item) length - 8).toNat ≤ (totalCap r.item).toNat - 8 := by omega
      rw [← Flash.read_take _ _ _ _ hle, h.rest, Flash.read_take _ _ _ _ hle]
      rfl
    · rfl
  have herr : (answer f datatype p i).err = espOk := if_pos ht
  unfold Getter.reply
  rw [hr, herr, hitem]
  cases g with
  | scalar k => rfl
  | str capacity => cases capacity <;> simp only [hcopy]
  | blob capacity => cases capacity <;> simp only [hcopy]

theorem Current.reply {handle : UInt32} {k : CString} {g : Getter}
    (h : Current (.built tail) w (nsIndexOf handle) g.itemType.code k.bytes) :
    g.reply w.flash (Nvs.lookup (.built tail) w (nsIndexOf handle) g.itemType.code k.bytes 0xff).1 =
      g.reply w.flash (Nvs.lookup (.uncached tail) w (nsIndexOf handle) g.itemType.code k.bytes 0xff).1 := by
  rcases h.lookup with heq | ⟨p, i, herr, huncached, htyped, hsame⟩
  · rw [heq]
  · rw [huncached]
    exact reply_sameBlock g herr htyped hsame

/-! ### Calls -/

/-- `nvs_open` ends alike in both programs. -/
theorem sameEnd_open {name : CString} (depth : ℕ) (h : name.bytes ≠ phyName → Current (.built tail) w 0 ItemType.u8.code name.bytes) :
    SameEnd ((nvsOpen (.built tail) depth name).run w) ((nvsOpen (.uncached tail) depth name).run w) := by
  rw [nvsOpen, nvsOpen, writeItem_uncached]
  split_ifs with hphy
  · exact ⟨rfl, rfl⟩
  rw [run_bind, run_bind, run_findItem, run_findItem]
  rcases (h hphy).lookup with heq | ⟨p, i, herr, huncached, htyped, hsame⟩
  · rw [heq]
    refine WriteOnly.same (I := fun _ => True) ?_ _ _ _
    split
    · exact .pure _
    · refine .bind (writeOnly_writeItem slotInvariant_true ..) fun err _ => ?_
      split <;> exact .pure _
  · have herr' : (answer w.flash ItemType.u8.code p i).err = espOk := if_pos htyped
    simp only [huncached, herr, herr', if_true, hsame.item]
    exact ⟨rfl, rfl⟩

/-- A call whose lookup is current ends alike in both programs, whatever each has in its cache. -/
theorem sameEnd_call (depth : ℕ) {c : Call} {f : Flash} {cache : Cache} (hc : CacheCurrent (.built tail) ⟨f, cache⟩ c)
    (cache' : Cache) :
    SameEnd ((c.prog (.built tail) depth).run ⟨f, cache⟩) ((c.prog (.uncached tail) depth).run ⟨f, cache'⟩) := by
  have hram := (@writeOnly_uncached tail depth c).same f cache cache'
  have hsame : SameEnd ((c.prog (.built tail) depth).run ⟨f, cache⟩) ((c.prog (.uncached tail) depth).run ⟨f, cache⟩) := by
    cases c with
    | «open» name => exact sameEnd_open depth hc
    | get g handle key =>
      refine ⟨?_, ?_⟩
      · rw [Call.prog, Call.prog, run_getter, run_getter]
        exact Current.reply hc
      · rw [Call.prog, Call.prog, run_getter_snd, run_getter_snd]
    | set st handle key =>
      rw [Call.prog, Call.prog, Setter.prog_eq, Setter.prog_eq, nvsSetValue, nvsSetValue, writeItem_uncached]
      exact ⟨rfl, rfl⟩
    | _ => exact ⟨rfl, rfl⟩
  exact ⟨hsame.1.trans hram.1, hsame.2.trans hram.2⟩

/-! ### Runs -/

theorem calls_uncached {l : List (ℕ × Call)} {f : Flash} {cache : Cache}
    (hl : Each (.built tail) (CacheCurrent (.built tail)) l ⟨f, cache⟩) (cache' : Cache) :
    (calls (.uncached tail) l ⟨f, cache'⟩).1 = (calls (.built tail) l ⟨f, cache⟩).1 := by
  induction l generalizing f cache cache' with
  | nil => rfl
  | cons x l ih =>
    obtain ⟨depth, c⟩ := x
    obtain ⟨hc, hrest⟩ := hl
    obtain ⟨hres, hflash⟩ := sameEnd_call depth hc cache'
    rw [calls, calls]
    rcases hb : (c.prog (.built tail) depth).run ⟨f, cache⟩ with ⟨e | r, g, cache₁⟩ <;>
      rcases hu : (c.prog (.uncached tail) depth).run ⟨f, cache'⟩ with ⟨e' | r', g', cache₂⟩ <;> rw [hb, hu] at hres hflash
    · exact congrArg (fun e => [Except.error e]) (Except.error.inj hres).symm
    · cases hres
    · cases hres
    · obtain rfl := Except.ok.inj hres
      obtain rfl : g = g' := hflash
      exact congrArg (List.cons _) (ih (hrest _ _ hb) cache₂)

/-- In every sequence of calls from boot, whatever is on flash, in which no lookup is
answered from a cache slot out of date, every call answers as in the program that
always scans. -/
theorem cache_transparent {f : Flash} {l : List (ℕ × Call)}
    (hl : Each (.built tail) (CacheCurrent (.built tail)) l (powerOn f)) :
    (calls (.uncached tail) l (powerOn f)).1 = (calls (.built tail) l (powerOn f)).1 :=
  calls_uncached hl .empty

/-- A regular lookup is current. -/
theorem current_of_regular {a u : ℕ} (hs : Sound w.flash a u) (hcache : CacheOk w.ram w.flash)
    (hd : datatype ≠ ItemType.any.code) (hc : RegularLookup (.built tail) w nsIndex datatype key) :
    Current (.built tail) w nsIndex datatype key := by
  intro r hr
  have hfound := (lookup_regular _ hs hcache hd hc).1
  have hscan := scan_eq_firstHead hs.ordered hs.packed hc.clear datatype
  have hok : r.err = espOk := by
    rw [cachedAt] at hr
    split_ifs at hr
    rw [← Option.some.inj hr]
  rw [lookup, hr] at hfound
  cases hfirst : firstHead w.flash nsIndex key with
  | none =>
    rw [hfirst] at hfound
    rw [show r = notFound from hfound] at hok
    exact absurd hok (by decide)
  | some x =>
    rw [hfirst] at hfound hscan
    obtain ⟨p, i, hmatch, hanswer⟩ := scan_eq_some_iff.1 hscan
    have hx : r = answer w.flash datatype x.1 x.2 := hfound
    rw [hx.trans hanswer]
    exact ⟨p, i, hmatch, rfl, rfl⟩

theorem cache_transparent_factory :
    let l : List (ℕ × Call) := [(1, .set (.scalar .u8 7#8) 10 keyA), (1, .get (.scalar .u8) 10 keyA)]
    (calls (.uncached []) l factory).1 = (calls (.built []) l factory).1 := by
  have hset := refines_factory.faithful (.built []) (c := .set (.scalar .u8 7#8) 10 keyA) (by decide)
  have h := refines_factory.next hset (show (Store.empty.step 1 _).1 = .ok (.code espOk) by decide)
  have hget := h.faithful (.built []) (c := .get (.scalar .u8) 10 keyA) (by decide)
  have hcurrent : CacheCurrent (.built []) _ (.get (.scalar .u8) 10 keyA) :=
    current_of_regular h.abs.sound h.cache (Getter.code_ne_any (.scalar .u8)) hget
  refine cache_transparent ⟨trivial, fun r w' hr => ⟨?_, fun _ _ _ => trivial⟩⟩
  rw [show w' = _ from (congrArg Prod.snd hr).symm]
  exact hcurrent

/-- `nvs_erase_all` does not touch the cache: a value just set is read after it,
and the program that scans does not find it. -/
theorem cache_not_transparent :
    let l : List (ℕ × Call) := [(1, .set (.scalar .u8 7#8) 10 keyA), (1, .eraseAll 10), (1, .get (.scalar .u8) 10 keyA)]
    (calls (.built []) l factory).1 = [.ok (.code espOk), .ok (.code espOk), .ok ⟨espOk, some [7], none, none⟩] ∧
      (calls (.uncached []) l factory).1 = [.ok (.code espOk), .ok (.code espOk), .ok (.code espErrNvsNotFound)] := by
  decide +kernel

end Esp8266Sdk.Nvs
