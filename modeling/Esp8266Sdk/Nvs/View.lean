import Esp8266Sdk.Nvs.Api

/-! What the store reads off a flash: the header, entry table and item slots of
each page, and how one programmed range changes them. A page is 4096 bytes: the
header, the entry table and 126 slots of 32 bytes. -/

namespace Esp8266Sdk.Nvs

open Nor

/-- The first address of page `p`. -/
def base (p : ℕ) : ℕ := 0x100000 + p * 4096

theorem pageAddr_natCast {p : ℕ} (hp : p < 8) : pageAddr (p : ℤ) = base p := by
  simp only [pageAddr, nvsPartitionOffset, pageSize, base]
  omega

theorem base_inj {p q : ℕ} : base p = base q ↔ p = q := by simp [base]

def slotAddr (p i : ℕ) : ℕ := base p + 64 + i * 32

theorem slotAddr_def (p i : ℕ) : base p + entryDataOffset + i * entrySize = slotAddr p i := rfl

def headerAt (f : Flash) (p : ℕ) : PageHeader := .decode (f.read (base p) 32)

def stateAt (f : Flash) (p : ℕ) : UInt32 := (headerAt f p).state

def tableAt (f : Flash) (p : ℕ) : EntryTable := .ofBytes (f.read (base p + 32) 32)

def entryAt (f : Flash) (p i : ℕ) : EntryState := getEntryState (tableAt f p) i

def itemAt (f : Flash) (p i : ℕ) : Item := .decode (f.read (slotAddr p i) 32)

/-- Every byte of the page is erased. -/
def Blank (f : Flash) (p : ℕ) : Prop := ∀ x, base p ≤ x → x < base p + 4096 → f x = 0xff

/-! ### Dependence on bytes -/

theorem headerAt_congr {f g : Flash} {p : ℕ} (h : ∀ x, base p ≤ x → x < base p + 32 → f x = g x) :
    headerAt f p = headerAt g p := by
  rw [headerAt, headerAt, Flash.read_congr h]

theorem stateAt_eq (f : Flash) (p : ℕ) : stateAt f p = word32 (f.read (base p) 4) 0 := by
  simp [stateAt, headerAt, PageHeader.decode, word32, Flash.read]

theorem stateAt_congr {f g : Flash} {p : ℕ} (h : ∀ x, base p ≤ x → x < base p + 4 → f x = g x) :
    stateAt f p = stateAt g p := by
  rw [stateAt_eq, stateAt_eq, Flash.read_congr h]

theorem tableAt_congr {f g : Flash} {p : ℕ} (h : ∀ x, base p + 32 ≤ x → x < base p + 64 → f x = g x) :
    tableAt f p = tableAt g p := by
  rw [tableAt, tableAt, Flash.read_congr fun x h1 h2 => h x h1 (by omega)]

theorem entryAt_eq (f : Flash) (p : ℕ) {i : ℕ} (hi : i < 128) :
    entryAt f p i = byteState (f (base p + 32 + i / 4)) (i % 4) := by
  rw [entryAt, tableAt, getEntryState_ofBytes _ hi, Flash.getD_read, if_pos (by omega)]

theorem itemAt_congr {f g : Flash} {p i : ℕ} (h : ∀ x, slotAddr p i ≤ x → x < slotAddr p i + 32 → f x = g x) :
    itemAt f p i = itemAt g p i := by
  rw [itemAt, itemAt, Flash.read_congr h]

theorem stateAt_iff {f : Flash} {p : ℕ} {w : UInt32} :
    stateAt f p = w ↔ ∀ k < 4, f (base p + k) = (le32 w).getD k 0 := by
  rw [stateAt_eq, word32_eq_iff]
  refine forall₂_congr fun k hk => ?_
  rw [Nat.zero_add, Flash.getD_read, if_pos hk]

/-! ### Blank pages -/

theorem Blank.stateAt {f : Flash} {p : ℕ} (h : Blank f p) : stateAt f p = PageState.uninitialized.word := by
  rw [stateAt_iff]
  intro k hk
  rw [h _ (by omega) (by omega)]
  interval_cases k <;> rfl

theorem Blank.entryAt {f : Flash} {p i : ℕ} (h : Blank f p) (hi : i < 128) : entryAt f p i = .empty := by
  rw [entryAt_eq f p hi, h _ (by omega) (by omega), byteState_ff _ (by omega)]

theorem blank_erase (f : Flash) (p : ℕ) : Blank (f.erase (base p) 4096) p := fun _ h1 h2 => Flash.erase_inside h1 h2

/-! ### Programming inside one page -/

/-- Steps behind the state word of a page leave every state word alone. -/
theorem stateAt_program {f : Flash} {p a : ℕ} {bs : List UInt8} (h1 : base p + 4 ≤ a)
    (h2 : a + bs.length ≤ base p + 4096) (q : ℕ) : stateAt (f.program a bs) q = stateAt f q :=
  stateAt_congr fun x hx hx' => Flash.program_outside (by simp only [base] at *; omega)

/-- Steps in another page leave a page alone. -/
theorem program_otherPage {f : Flash} {p q a : ℕ} {bs : List UInt8} (h1 : base p ≤ a) (h2 : a + bs.length ≤ base p + 4096)
    (hq : q ≠ p) {x : ℕ} (hx : base q ≤ x) (hx' : x < base q + 4096) : f.program a bs x = f x :=
  Flash.program_outside (by simp only [base] at *; omega)

theorem erase_otherPage {f : Flash} {p q x : ℕ} (hq : q ≠ p) (hx : base q ≤ x) (hx' : x < base q + 4096) :
    f.erase (base p) 4096 x = f x :=
  Flash.erase_outside (by simp only [base] at *; omega)

/-- Steps in another page leave a state word alone. -/
theorem stateAt_program_otherPage {f : Flash} {p q a : ℕ} {bs : List UInt8} (h1 : base p ≤ a)
    (h2 : a + bs.length ≤ base p + 4096) (hq : q ≠ p) : stateAt (f.program a bs) q = stateAt f q :=
  stateAt_congr fun x hx hx' => program_otherPage h1 h2 hq hx (by omega)

theorem stateAt_erase_otherPage {f : Flash} {p q : ℕ} (hq : q ≠ p) : stateAt (f.erase (base p) 4096) q = stateAt f q :=
  stateAt_congr fun x hx hx' => erase_otherPage hq hx (by omega)

/-- A state word is only reset by an erase. -/
theorem stateAt_program_ne {f : Flash} {p : ℕ} (a : ℕ) (bs : List UInt8)
    (h : stateAt f p ≠ PageState.uninitialized.word) : stateAt (f.program a bs) p ≠ PageState.uninitialized.word := by
  rw [ne_eq, stateAt_iff] at h ⊢
  have hw : ∀ k < 4, (le32 PageState.uninitialized.word).getD k 0 = 0xff := by
    intro k hk
    interval_cases k <;> rfl
  intro hall
  refine h fun k hk => ?_
  have := hall k hk
  rw [hw k hk] at this ⊢
  by_contra hne
  exact Flash.program_ne_ff hne this

/-- Marking an active page full. -/
theorem stateAt_markFull {f : Flash} {p : ℕ} (h : stateAt f p = PageState.active.word) :
    stateAt (f.program (base p) (le32 PageState.full.word)) p = PageState.full.word := by
  rw [stateAt_iff] at h ⊢
  intro k hk
  have hf := h k hk
  rw [Flash.program_inside (by simpa using hk), hf]
  interval_cases k <;> rfl

theorem uninitialized_ones : ∀ b ∈ le32 PageState.uninitialized.word, b = 0xff := by decide +kernel

/-- Writing the `PS_UNINITIALIZED` word clears no bit. -/
theorem program_uninit (f : Flash) (a : ℕ) : f.program a (le32 PageState.uninitialized.word) = f :=
  Flash.program_ff f a uninitialized_ones

/-- A header written to a blank page is read back as written. -/
theorem stateAt_program_header {f : Flash} {p : ℕ} (h : Blank f p) (hd : PageHeader) :
    stateAt (f.program (base p) hd.encode) p = hd.state := by
  rw [stateAt_iff]
  intro k hk
  rw [Flash.program_blank (by simp; omega) (h _ (by omega) (by omega))]
  simp only [PageHeader.encode, List.append_assoc]
  rw [List.getD_append _ _ _ _ (by simpa using hk)]
  interval_cases k <;> rfl

/-- Programming erased bytes over a blank table changes nothing. -/
theorem program_blankTable (f : Flash) (a : ℕ) : f.program a (List.replicate 32 0xff) = f :=
  Flash.program_ff f a fun _ hb => List.eq_of_mem_replicate hb

/-- Each programmed table word programs the sixteen states in it. -/
theorem entryAt_program_word {f : Flash} {p w i : ℕ} (table : EntryTable) (hw : w < 8) (hi : i < 128) :
    entryAt (f.program (base p + 32 + w * 4) ((table.toList.drop (4 * w)).take 4)) p i =
      if i / 16 = w then (entryAt f p i).over (getEntryState table i) else entryAt f p i := by
  have hlen : ((table.toList.drop (4 * w)).take 4).length = 4 := by simp; omega
  rw [entryAt_eq _ p hi, entryAt_eq f p hi]
  split_ifs with hiw
  · have hk : i / 4 - 4 * w < 4 := by omega
    have ha : base p + 32 + i / 4 = base p + 32 + w * 4 + (i / 4 - 4 * w) := by omega
    rw [ha, Flash.program_inside (by omega), getD_tableWord table hk _ hw, byteState_and, getEntryState_eq,
      show 4 * w + (i / 4 - 4 * w) = i / 4 by omega]
  · rw [Flash.program_outside (by omega)]

end Esp8266Sdk.Nvs
