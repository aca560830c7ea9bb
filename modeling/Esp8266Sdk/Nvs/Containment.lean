import Esp8266Sdk.Nvs.WriterRule

/-! Where `writeItem` writes. Apart from initialising and compacting pages it
writes the header and the entry table of the page it uses and the slots of the
entries it reserves, as long as the block count of the value fits the `uint8` it
is narrowed to. The payload is written in the length before the narrowing. -/

namespace Esp8266Sdk.Nvs

open Nor Prog

/-- Where an item of this length goes: the page, its table in RAM, the first
entry that `findConsecutiveEntries` reserves and the world it is reserved in. -/
inductive Reserves (compactPage : CompactPage) (length : UInt32) (w : NvsWorld) : ℤ → EntryTable → ℕ → NvsWorld → Prop
  /-- On the page chosen first. -/
  | chosen {pageIdx maxSeq table t w'} (hsel : selectPage.run w = (.ok (pageIdx, maxSeq, table), w'))
      (ht : findConsecutiveEntries table (itemSpan length).toNat = some t) :
      Reserves compactPage length w pageIdx table t w'
  /-- On the page switched to. -/
  | switched {pageIdx maxSeq table w₁ nextIdx w₂ nextTable t w'}
      (hsel : selectPage.run w = (.ok (pageIdx, maxSeq, table), w₁))
      (hnone : findConsecutiveEntries table (itemSpan length).toNat = none)
      (hnext : (switchPage compactPage pageIdx maxSeq).run w₁ = (.ok nextIdx, w₂))
      (htable : (readTable (pageAddr nextIdx)).run w₂ = (.ok nextTable, w'))
      (ht : findConsecutiveEntries nextTable (itemSpan length).toNat = some t) :
      Reserves compactPage length w nextIdx nextTable t w'

/-- Address `x` is in the header or the entry table of a page. -/
def InHead (pageAddr x : ℕ) : Prop := pageAddr ≤ x ∧ x < pageAddr + entryDataOffset

/-- Address `x` is in the slots of the `span` entries from `t` on. -/
def InSlots (pageAddr t span x : ℕ) : Prop :=
  pageAddr + entryDataOffset + t * entrySize ≤ x ∧ x < pageAddr + entryDataOffset + (t + span) * entrySize

/-- The step changes byte `x`. -/
def Changes (s : NvsWorld × Op) (x : ℕ) : Prop := s.2.apply s.1.flash x ≠ s.1.flash x

/-- A step that initialises or compacts a page. -/
def PageStep (compactPage : CompactPage) (s : NvsWorld × Op) : Prop :=
  (∃ pageIdx seqNumber w, s ∈ (initializePage pageIdx seqNumber).steps w) ∨
    ∃ src dest nextSeq w, s ∈ (compactPage src dest nextSeq).steps w

section Call

variable (compactPage : CompactPage) (nsIndex datatype : UInt8) (key : List UInt8) (data : Option (List UInt8))
  (length : UInt32) (chunkIndex : UInt8) (w : NvsWorld)

/-- The other steps of `writeItem`: marking the chosen page full, and storing
the item. The page they are for, and the entry reserved on it, if any. -/
inductive OwnStep : ℤ → Option ℕ → NvsWorld × Op → Prop
  | full {pageIdx maxSeq table w₁ s} (hsel : selectPage.run w = (.ok (pageIdx, maxSeq, table), w₁))
      (hnone : findConsecutiveEntries table (itemSpan length).toNat = none) (h : s ∈ (markPageFull pageIdx).steps w₁) :
      OwnStep pageIdx none s
  | store {pageIdx table t w' s} (hres : Reserves compactPage length w pageIdx table t w')
      (h : s ∈ (storeItem (pageAddr pageIdx) table t nsIndex datatype key data length chunkIndex).steps w') :
      OwnStep pageIdx (some t) s

/-- What is asked of a `writeItem`. -/
structure Contained : Prop where
  /-- Its own steps change the header, the table and the reserved slots only. -/
  inside : ∀ {pageIdx reserved s}, OwnStep compactPage nsIndex datatype key data length chunkIndex w pageIdx reserved s →
    ∀ x, Changes s x → InHead (pageAddr pageIdx) x ∨
      ∃ t, reserved = some t ∧ InSlots (pageAddr pageIdx) t (itemSpan length).toNat x
  /-- The stored span holds the value. -/
  span : ∀ {pageIdx table t w'}, Reserves compactPage length w pageIdx table t w' →
    length.toNat ≤ 8 + 32 * ((itemSpan length).toNat - 1)
  /-- A length that no page can hold is an error. -/
  error : 8 + 32 * (entriesPerPage - 1) < length.toNat →
    ((writeItemWith compactPage nsIndex datatype key data length chunkIndex).run w).1 ≠ .ok espOk

end Call

variable {nsIndex datatype chunkIndex : UInt8} {key : List UInt8} {data : Option (List UInt8)} {length : UInt32}
  {w : NvsWorld}

/-! ### The steps of a call -/

section Steps

variable {compactPage : CompactPage}

/-- A program that only initialises or compacts pages. -/
def PageSteps {α : Type} (compactPage : CompactPage) (p : NvsM α) : Prop := ∀ w, ∀ s ∈ p.steps w, PageStep compactPage s

namespace PageSteps

variable {α β : Type}

theorem reads {p : NvsM α} {g : Flash → α} (hp : Reads p g) : PageSteps compactPage p := by
  intro w s hs
  rw [hp.steps] at hs
  cases hs

theorem pure (a : α) : PageSteps compactPage (Pure.pure a) := reads (Reads.pure a)

theorem bind {p : NvsM α} {k : α → NvsM β} (hp : PageSteps compactPage p) (hk : ∀ a, PageSteps compactPage (k a)) :
    PageSteps compactPage (p >>= k) := by
  intro w s hs
  obtain hs | ⟨a, w', -, hs⟩ := mem_steps_bind.1 hs
  · exact hp w s hs
  · exact hk a w' s hs

theorem init (pageIdx : ℤ) (seqNumber : UInt32) : PageSteps compactPage (initializePage pageIdx seqNumber) :=
  fun _ _ hs => .inl ⟨_, _, _, hs⟩

theorem compact (src dest : ℤ) (nextSeq : UInt32) : PageSteps compactPage (compactPage src dest nextSeq) :=
  fun _ _ hs => .inr ⟨_, _, _, _, hs⟩

theorem read {a n : ℕ} {g : List UInt8 → α} : PageSteps compactPage (do return g (← spiFlashRead a n)) :=
  reads (g := fun f => g (f.read a n)) fun _ _ _ _ => Iff.rfl

end PageSteps

theorem pageSteps_selectPage : PageSteps compactPage selectPage := by
  rw [selectPage]
  refine .bind (.reads reads_findActivePage) fun s => ?_
  have hrest : ∀ pageIdx : ℤ, PageSteps compactPage (do
      let header ← readHeader (pageAddr pageIdx)
      if header.state = PageState.uninitialized.word then
        let _ ← initializePage pageIdx (s.2 + 1)
        let _ ← readHeader (pageAddr pageIdx)
        return (pageIdx, s.2, ← readTable (pageAddr pageIdx))
      else return (pageIdx, s.2, ← readTable (pageAddr pageIdx))) := by
    intro pageIdx
    refine .bind .read fun header => ?_
    split
    · exact .bind (.init _ _) fun _ => .bind .read fun _ => .bind .read fun _ => .pure _
    · exact .bind .read fun _ => .pure _
  simp only
  split
  · exact .bind (.init _ _) fun _ => .bind (.pure _) fun _ => hrest _
  · exact .bind (.pure _) fun _ => hrest _

theorem steps_switchPage {pageIdx : ℤ} {maxSeq : UInt32} {s : NvsWorld × Op}
    (h : s ∈ (switchPage compactPage pageIdx maxSeq).steps w) :
    s ∈ (markPageFull pageIdx).steps w ∨ PageStep compactPage s := by
  rw [switchPage, mem_steps_bind] at h
  apply h.imp_right
  rintro ⟨_, w', -, h⟩
  have hrest : PageSteps compactPage (do
      let nextHeader ← readHeader (pageAddr ((pageIdx + 1) % numPages))
      if nextHeader.state = PageState.uninitialized.word then
        let _ ← initializePage ((pageIdx + 1) % numPages) (maxSeq + 1)
        return (pageIdx + 1) % numPages
      else
        let _ ← compactPage ((pageIdx + 1) % numPages) (((pageIdx + 1) % numPages + 1) % numPages) (maxSeq + 1)
        return (← findActivePage).1) := by
    refine .bind .read fun header => ?_
    split
    · exact .bind (.init _ _) fun _ => .pure _
    · exact .bind (.compact _ _ _) fun _ => .bind (.reads reads_findActivePage) fun _ => .pure _
  exact hrest w' s h

/-- Every step of `writeItem` is one of its own or initialises or compacts a page. -/
theorem steps_writeItemWith {s : NvsWorld × Op}
    (h : s ∈ (writeItemWith compactPage nsIndex datatype key data length chunkIndex).steps w) :
    PageStep compactPage s ∨
      ∃ pageIdx reserved, OwnStep compactPage nsIndex datatype key data length chunkIndex w pageIdx reserved s := by
  rw [writeItemWith, mem_steps_bind] at h
  obtain h | ⟨⟨pageIdx, maxSeq, table⟩, w₁, hsel, h⟩ := h
  · exact .inl (pageSteps_selectPage _ _ h)
  simp only at h
  split at h
  · rename_i t ht
    exact .inr ⟨_, _, .store (.chosen hsel ht) h⟩
  · rename_i hnone
    obtain h | ⟨nextIdx, w₂, hnext, h⟩ := mem_steps_bind.1 h
    · rcases steps_switchPage h with h | h
      · exact .inr ⟨_, _, .full hsel hnone h⟩
      · exact .inl h
    obtain h | ⟨nextTable, w₃, htable, h⟩ := mem_steps_bind.1 h
    · have hread : PageSteps compactPage (readTable (pageAddr nextIdx)) := .read
      exact .inl (hread _ _ h)
    split at h
    · rename_i t ht
      exact .inr ⟨_, _, .store (.switched hsel hnone hnext htable ht) h⟩
    · cases h

/-- `writeItem` answers `ESP_OK` only where it reserved entries. -/
theorem reserves_of_ok
    (h : ((writeItemWith compactPage nsIndex datatype key data length chunkIndex).run w).1 = .ok espOk) :
    ∃ pageIdx table t w', Reserves compactPage length w pageIdx table t w' := by
  have hr := run_eq h
  rw [writeItemWith, run_bind_eq_ok] at hr
  obtain ⟨⟨pageIdx, maxSeq, table⟩, w₁, hsel, hr⟩ := hr
  simp only at hr
  split at hr
  · rename_i t ht
    exact ⟨_, _, _, _, .chosen hsel ht⟩
  · rename_i hnone
    obtain ⟨nextIdx, w₂, hnext, hr⟩ := run_bind_eq_ok.1 hr
    obtain ⟨nextTable, w₃, htable, hr⟩ := run_bind_eq_ok.1 hr
    split at hr
    · rename_i t ht
      exact ⟨_, _, _, _, .switched hsel hnone hnext htable ht⟩
    · cases hr

end Steps

/-! ### Pages and spans -/

theorem anyFlash_rule : WriterRule (fun _ _ => True) (fun _ => True) fun _ => True where
  init := fun _ _ _ => ⟨trivial, trivial, trivial⟩
  full := fun _ _ _ => ⟨trivial, trivial⟩
  body := fun _ _ _ _ => ⟨trivial, trivial⟩
  ones := fun _ _ _ _ => trivial
  idle := fun _ h => h

theorem page_of_selectPage {pageIdx : ℤ} {maxSeq : UInt32} {table : EntryTable} {w' : NvsWorld}
    (h : selectPage.run w = (.ok (pageIdx, maxSeq, table), w')) :
    ∃ p : ℕ, p < 8 ∧ pageIdx = p ∧ stateAt w'.flash p = PageState.active.word := by
  obtain ⟨p, hp, he, -, ha⟩ := wp_ok (anyFlash_rule.selectPage trivial) h
  exact ⟨p, hp, he, ha⟩

/-- Entries are reserved on a page of the partition, and they are entries of it. -/
theorem Reserves.page {env : Env} {depth : ℕ} {pageIdx : ℤ} {table : EntryTable} {t : ℕ} {w' : NvsWorld}
    (h : Reserves (compactPage env depth) length w pageIdx table t w') :
    (∃ p : ℕ, p < 8 ∧ pageIdx = p) ∧ 1 ≤ (itemSpan length).toNat ∧ t + (itemSpan length).toNat ≤ 126 := by
  cases h with
  | chosen hsel ht =>
    obtain ⟨p, hp, he, -⟩ := page_of_selectPage hsel
    exact ⟨⟨p, hp, he⟩, room_of_some ht⟩
  | switched hsel _ hnext _ ht =>
    obtain ⟨p, hp, rfl, ha⟩ := page_of_selectPage hsel
    obtain ⟨q, hq, he, -⟩ :=
      wp_ok (anyFlash_rule.switchPage (anyFlash_rule.compactPage env depth) hp _ trivial ha) hnext
    exact ⟨⟨q, hq, he⟩, room_of_some ht⟩

/-! ### Containment -/

/-- A step changes only bytes it writes. -/
theorem Changes.within {w : NvsWorld} {a : ℕ} {bs : List UInt8} {x : ℕ} (h : Changes (w, .write a bs) x) :
    a ≤ x ∧ x < a + bs.length := by
  by_contra hout
  exact h (Flash.program_outside (by omega))

theorem inside_markPageFull {p : ℕ} (hp : p < 8) {s : NvsWorld × Op} (h : s ∈ (markPageFull p).steps w) {x : ℕ}
    (hx : Changes s x) : InHead (pageAddr p) x := by
  have hw : wp (fun v op => ∀ x, Changes (v, op) x → InHead (pageAddr p) x) (fun _ _ => True) (fun _ _ => True)
      (markPageFull p) w := by
    rw [wp_markPageFull hp]
    refine ⟨fun x hx => ?_, trivial⟩
    have hx := hx.within
    rw [length_le32] at hx
    rw [InHead, pageAddr_natCast hp, entryDataOffset]
    omega
  exact wp_steps hw s h x hx

/-- The item, its payload and its table words stay inside, where the payload
is no longer than the reserved slots. -/
theorem inside_storeItem {p t : ℕ} {table : EntryTable} (hp : p < 8) (hs : 1 ≤ (itemSpan length).toNat)
    (ht : t + (itemSpan length).toNat ≤ 126) (hfit : Fits data length) {s : NvsWorld × Op}
    (h : s ∈ (storeItem (pageAddr p) table t nsIndex datatype key data length chunkIndex).steps w) {x : ℕ}
    (hx : Changes s x) : InHead (pageAddr p) x ∨ InSlots (pageAddr p) t (itemSpan length).toNat x := by
  have hw : wp (fun v op => ∀ x, Changes (v, op) x → InHead (pageAddr p) x ∨
      InSlots (pageAddr p) t (itemSpan length).toNat x) (fun _ _ => True) (fun _ _ => True)
      (storeItem (pageAddr p) table t nsIndex datatype key data length chunkIndex) w := by
    refine wp_storeItem hp hs ht (fun x hx => ?_) (fun rest hrest x hx => ?_) (fun T _ k hk _ x hx => ?_)
      (fun _ _ _ => trivial) (fun _ _ _ => trivial)
    · have hx := hx.within
      rw [Item.length_encode, slotAddr] at hx
      right
      simp only [InSlots, pageAddr_natCast hp, entryDataOffset, entrySize]
      omega
    · have hx := hx.within
      have := hfit rest hrest
      rw [slotAddr] at hx
      right
      simp only [InSlots, pageAddr_natCast hp, entryDataOffset, entrySize]
      omega
    · have hx := Changes.within hx
      rw [wordStep_length T hk] at hx
      left
      rw [InHead, pageAddr_natCast hp, entryDataOffset]
      omega
  exact wp_steps hw s h x hx

variable (env : Env) (depth : ℕ)

/-- `writeItem` stays inside exactly where the block count of the value fits the
`uint8`, or no run of entries of the narrowed count is found. -/
theorem contained_iff (nsIndex datatype : UInt8) (key : List UInt8) (data : Option (List UInt8)) (length : UInt32)
    (chunkIndex : UInt8) (w : NvsWorld) :
    Contained (compactPage env depth) nsIndex datatype key data length chunkIndex w ↔
      length.toNat ≤ 8136 ∨ ∀ pageIdx table t w', ¬ Reserves (compactPage env depth) length w pageIdx table t w' := by
  constructor
  · intro hc
    by_contra hne
    push Not at hne
    obtain ⟨hlong, pageIdx, table, t, w', hres⟩ := hne
    have hspan := hc.span hres
    have hroom := hres.page.2
    omega
  · intro h
    have hcap : ∀ {pageIdx table t w'}, Reserves (compactPage env depth) length w pageIdx table t w' →
        length.toNat ≤ 8136 := fun hres => h.resolve_right fun hno => hno _ _ _ _ hres
    refine ⟨fun hown x hx => ?_, fun hres => le_of_itemSpan (hcap hres), fun hlong hok => ?_⟩
    · cases hown with
      | full hsel _ hs =>
        obtain ⟨p, hp, rfl, -⟩ := page_of_selectPage hsel
        exact .inl (inside_markPageFull hp hs hx)
      | store hres hs =>
        obtain ⟨⟨p, hp, rfl⟩, hs1, hst⟩ := hres.page
        exact (inside_storeItem hp hs1 hst (fits_of_le data (hcap hres)) hs hx).imp_right fun hin => ⟨_, rfl, hin⟩
    · obtain ⟨pageIdx, table, t, w', hres⟩ := reserves_of_ok hok
      have hspan := le_of_itemSpan (hcap hres)
      have hroom := hres.page.2
      rw [entriesPerPage] at hlong
      omega

/-- A blob of 8201 zeros takes 258 entries and reserves 2. It is stored, and it
overwrites the header of another page. -/
theorem blob_not_contained :
    let w' := (writeItem (.built []) 1 10 ItemType.blob.code keyA.bytes (some (List.replicate 8201 0)) 8201 0xff).run factory
    w'.1 = .ok espOk ∧ w'.2.flash (base 2) ≠ factory.flash (base 2) ∧
      ¬ Contained (compactPage (.built []) 0) 10 ItemType.blob.code keyA.bytes (some (List.replicate 8201 0)) 8201 0xff
        factory := by
  intro w'
  have hrun : w'.1 = .ok espOk ∧ w'.2.flash (base 2) ≠ factory.flash (base 2) := by decide +kernel
  refine ⟨hrun.1, hrun.2, fun hc => ?_⟩
  obtain ⟨pageIdx, table, t, w₁, hres⟩ := reserves_of_ok (show _ = _ from hrun.1)
  exact absurd (hc.span hres) (by decide)

end Esp8266Sdk.Nvs
