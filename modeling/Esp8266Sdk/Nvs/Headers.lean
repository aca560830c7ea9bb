import Esp8266Sdk.Nvs.ActivePage
import Esp8266Sdk.Nvs.EraseSpec

/-! Page headers and their CRC. The CRC covers the 24 bytes behind the state
word, so marking a page full keeps it. It covers the `dirty` field too, which
`markPageDirty` clears without a new CRC: the headers stay verifiable as long as
no call erases an item. -/

namespace Esp8266Sdk.Nvs

open Nor Prog

/-! ### The CRC of a header -/

theorem headerBody (h : PageHeader) : (h.encode.drop 4).take 24 =
    le32 h.seqNumber ++ [h.version] ++ le32 h.dirty ++ h.reserved.toList := by
  have hlen : (le32 h.seqNumber ++ [h.version] ++ le32 h.dirty ++ h.reserved.toList).length = 24 := by simp
  have he : h.encode = le32 h.state ++ ((le32 h.seqNumber ++ [h.version] ++ le32 h.dirty ++ h.reserved.toList) ++
      le32 h.crc32) := by simp [PageHeader.encode]
  rw [he, List.drop_left' (length_le32 _), List.take_left' hlen]

/-- The stored CRC is that of the header as it stands. -/
def CrcOk (h : PageHeader) : Prop := h.crc32 = calculateHeaderCrc32 h

instance (h : PageHeader) : Decidable (CrcOk h) := inferInstanceAs (Decidable (_ = _))

theorem crcOk_iff (h : PageHeader) : CrcOk h ↔
    h.crc32 = crc32_le 0xffffffff (le32 h.seqNumber ++ [h.version] ++ le32 h.dirty ++ h.reserved.toList) := by
  rw [CrcOk, calculateHeaderCrc32, headerBody]

theorem crcOk_freshHeader (seqNumber : UInt32) : CrcOk (freshHeader seqNumber) := by
  rw [crcOk_iff]
  simp only [freshHeader, calculateHeaderCrc32, headerBody]

/-- The CRC and what it covers lie behind the state word. -/
theorem crcOk_congr {f g : Flash} {p : ℕ} (h : ∀ x, base p + 4 ≤ x → x < base p + 32 → g x = f x) :
    CrcOk (headerAt g p) ↔ CrcOk (headerAt f p) := by
  have hb : ∀ i, 4 ≤ i → i < 32 → (g.read (base p) 32).getD i 0 = (f.read (base p) 32).getD i 0 := by
    intro i h4 h32
    rw [Flash.getD_read, Flash.getD_read, if_pos h32, if_pos h32, h _ (by omega) (by omega)]
  have hw : ∀ i, 4 ≤ i → i + 3 < 32 → word32 (g.read (base p) 32) i = word32 (f.read (base p) 32) i := by
    intro i h4 h32
    rw [word32, word32, hb i h4 (by omega), hb (i + 1) (by omega) (by omega), hb (i + 2) (by omega) (by omega),
      hb (i + 3) (by omega) (by omega)]
  have hreserved : (headerAt g p).reserved = (headerAt f p).reserved := by
    simp only [headerAt, PageHeader.decode]
    congr 1
    funext i
    exact hb _ (by omega) (by omega)
  have hseq : (headerAt g p).seqNumber = (headerAt f p).seqNumber := hw 4 (by omega) (by omega)
  have hversion : (headerAt g p).version = (headerAt f p).version := hb 8 (by omega) (by omega)
  have hdirty : (headerAt g p).dirty = (headerAt f p).dirty := hw 9 (by omega) (by omega)
  have hcrc : (headerAt g p).crc32 = (headerAt f p).crc32 := hw 28 (by omega) (by omega)
  rw [crcOk_iff, crcOk_iff, hreserved, hseq, hversion, hdirty, hcrc]

/-- Byte `k` of a field behind the bytes `pre`. -/
theorem getD_field {pre mid post : List UInt8} {k : ℕ} (hk : k < mid.length) :
    (pre ++ (mid ++ post)).getD (pre.length + k) 0 = mid.getD k 0 := by
  rw [List.getD_append_right _ _ _ _ (by omega), Nat.add_sub_cancel_left, List.getD_append _ _ _ _ hk]

theorem word32_field {pre post : List UInt8} {w : UInt32} : word32 (pre ++ (le32 w ++ post)) pre.length = w :=
  word32_eq_iff.2 fun _ hk => getD_field hk

/-- A header reads back as it was encoded. -/
theorem decode_encode (h : PageHeader) : PageHeader.decode h.encode = h := by
  have hstate : word32 h.encode 0 = h.state := by
    have he : h.encode = [] ++ (le32 h.state ++ (h.encode.drop 4)) := by simp [PageHeader.encode, le32]
    rw [he]
    exact word32_field
  have hseq : word32 h.encode 4 = h.seqNumber := by
    have he : h.encode = le32 h.state ++ (le32 h.seqNumber ++ (h.encode.drop 8)) := by simp [PageHeader.encode, le32]
    rw [he]
    exact word32_field
  have hversion : h.encode.getD 8 0 = h.version := by simp [PageHeader.encode, le32]
  have hdirty : word32 h.encode 9 = h.dirty := by
    have he : h.encode = (le32 h.state ++ le32 h.seqNumber ++ [h.version]) ++ (le32 h.dirty ++ (h.encode.drop 13)) := by
      simp [PageHeader.encode, le32]
    rw [he]
    exact word32_field
  have hreserved : ∀ i : Fin 15, h.encode.getD (13 + i) 0 = h.reserved[i] := by
    intro i
    have he : h.encode = (le32 h.state ++ le32 h.seqNumber ++ [h.version] ++ le32 h.dirty) ++
        (h.reserved.toList ++ le32 h.crc32) := by simp [PageHeader.encode]
    have hi : (i : ℕ) < h.reserved.toList.length := by simp
    rw [he]
    exact (getD_field hi).trans (by simp [List.getD_eq_getElem?_getD])
  have hcrc : word32 h.encode 28 = h.crc32 := by
    have he : h.encode = (le32 h.state ++ le32 h.seqNumber ++ [h.version] ++ le32 h.dirty ++ h.reserved.toList) ++
        (le32 h.crc32 ++ []) := by simp [PageHeader.encode]
    have hlen : (le32 h.state ++ le32 h.seqNumber ++ [h.version] ++ le32 h.dirty ++ h.reserved.toList).length = 28 := by
      simp
    rw [he, ← hlen]
    exact word32_field
  rw [PageHeader.decode, hstate, hseq, hversion, hdirty, hcrc]
  congr 1
  ext i hi
  rw [Vector.getElem_ofFn]
  exact congrArg UInt8.toNat (hreserved ⟨i, hi⟩)

theorem headerAt_program {f : Flash} {p : ℕ} (hb : Blank f p) (h : PageHeader) :
    headerAt (f.program (base p) h.encode) p = h := by
  have hread : (f.program (base p) h.encode).read (base p) 32 = h.encode := by
    refine List.ext_getElem (by simp) fun i hi hi' => ?_
    rw [Flash.getElem_read, Flash.program_blank hi' (hb _ (by omega) (by simp at hi'; omega)),
      List.getD_eq_getElem _ _ hi']
  rw [headerAt, hread, decode_encode]

/-! ### The invariant -/

/-- What `verifyPage` answers. -/
def Verified (f : Flash) (p : ℕ) : Prop :=
  stateAt f p = PageState.uninitialized.word ∨ stateAt f p ≠ PageState.corrupt.word ∧ CrcOk (headerAt f p)

instance (f : Flash) (p : ℕ) : Decidable (Verified f p) := inferInstanceAs (Decidable (_ ∨ _))

theorem reads_verifyPage {p : ℕ} (hp : p < 8) : Reads (verifyPage (pageAddr p)) fun f => decide (Verified f p) := by
  intro G Q E w
  rw [verifyPage, wp_bind, reads_readHeader hp]
  have hst : (headerAt w.flash p).state = stateAt w.flash p := rfl
  simp only [hst]
  split_ifs with hu hc
  · simp [Verified, hu]
  · have hne : PageState.corrupt.word ≠ PageState.uninitialized.word := by decide
    simp [Verified, hc, hne]
  · simp [Verified, hu, hc, CrcOk, beq_eq_decide]

/-- Page `p` is uninitialised, or in use under a header with a right CRC. -/
def HeaderOk (f : Flash) (p : ℕ) : Prop :=
  stateAt f p = PageState.uninitialized.word ∨
    (stateAt f p = PageState.active.word ∨ stateAt f p = PageState.full.word) ∧ CrcOk (headerAt f p)

def HeadersOk (f : Flash) : Prop := ∀ p < 8, HeaderOk f p

theorem HeaderOk.verified {f : Flash} {p : ℕ} (h : HeaderOk f p) : Verified f p := by
  rcases h with h | ⟨h | h, hcrc⟩
  · exact .inl h
  · exact .inr ⟨by rw [h]; decide, hcrc⟩
  · exact .inr ⟨by rw [h]; decide, hcrc⟩

theorem HeaderOk.congr {f g : Flash} {p : ℕ} (h : HeaderOk f p) (e : ∀ x, base p ≤ x → x < base p + 32 → g x = f x) :
    HeaderOk g p := by
  rw [HeaderOk, stateAt_congr fun x h1 h2 => e x h1 (by omega), crcOk_congr fun x h1 h2 => e x (by omega) h2]
  exact h

theorem Blank.headerOk {f : Flash} {p : ℕ} (h : Blank f p) : HeaderOk f p := .inl h.stateAt

theorem HeadersOk.erase {f : Flash} (h : HeadersOk f) (p : ℕ) : HeadersOk (f.erase (base p) 4096) := by
  intro q hq
  by_cases hqp : q = p
  · rw [hqp]
    exact (blank_erase f p).headerOk
  · exact (h q hq).congr fun x h1 h2 => erase_otherPage hqp h1 (by omega)

theorem HeadersOk.initFlash {f : Flash} (h : HeadersOk f) (p : ℕ) (seqNumber : UInt32) :
    HeadersOk (initFlash f p seqNumber) := by
  intro q hq
  by_cases hqp : q = p
  · rw [hqp, HeaderOk, stateAt_initFlash, Nvs.initFlash, headerAt_program (blank_erase f p)]
    exact .inr ⟨.inl rfl, crcOk_freshHeader seqNumber⟩
  · exact (h q hq).congr fun x h1 h2 => initFlash_otherPage f seqNumber hqp h1 (by omega)

theorem HeadersOk.markFull {f : Flash} (h : HeadersOk f) {p : ℕ} (hp : p < 8)
    (ha : stateAt f p = PageState.active.word) : HeadersOk (f.program (base p) (le32 PageState.full.word)) := by
  intro q hq
  by_cases hqp : q = p
  · have hcrc : CrcOk (headerAt f p) := by
      rcases h p hp with hu | ⟨-, hcrc⟩
      · rw [ha] at hu
        exact absurd hu (by decide)
      · exact hcrc
    rw [hqp]
    refine .inr ⟨.inr (stateAt_markFull ha), (crcOk_congr fun x h1 h2 => ?_).2 hcrc⟩
    exact Flash.program_outside (by rw [length_le32]; omega)
  · exact (h q hq).congr fun x h1 h2 => program_otherPage le_rfl (by simp) hqp h1 (by omega)

theorem HeadersOk.body {f : Flash} (h : HeadersOk f) {p : ℕ} {op : Op} (hb : Body p op) : HeadersOk (op.apply f) := by
  obtain ⟨a, bs, rfl, h1, h2⟩ := hb
  refine fun q hq => (h q hq).congr fun x hx hx' => Flash.program_outside ?_
  simp only [base] at *
  omega

/-! ### Calls -/

/-- A flash step with right headers on both sides. -/
def KeepsHeaders (f : Flash) (op : Op) : Prop := HeadersOk f ∧ HeadersOk (op.apply f)

theorem headers_rule : WriterRule KeepsHeaders HeadersOk HeadersOk where
  init := fun {f p} seqNumber _ h =>
    ⟨⟨h, h.erase p⟩, ⟨h.erase p, h.initFlash p seqNumber⟩, h.initFlash p seqNumber⟩
  full := fun hp ha h => ⟨⟨h, h.markFull hp ha⟩, h.markFull hp ha⟩
  body := fun _ _ hb h => ⟨⟨h, h.body hb⟩, h.body hb⟩
  ones := fun {f} a {bs} hbs h => ⟨h, by rwa [Op.apply_write, Flash.program_ff f a hbs]⟩
  idle := fun _ h => h

variable {w : NvsWorld}

/-- A set or an erase finds nothing to erase, and the value of a set fits. -/
def Call.ErasesNothing (f : Flash) : Call → Prop
  | .set s handle key => NoHit f (nsIndexOf handle) s.itemType.code key.bytes ∧ Nvs.Fits s.data s.length
  | .eraseKey handle key => NoHit f (nsIndexOf handle) ItemType.any.code key.bytes
  | _ => True

theorem HeadersOk.tableFlash {f : Flash} (h : HeadersOk f) (p : ℕ) (table : EntryTable) {lo n : ℕ} (hn : lo + n ≤ 8) :
    HeadersOk (tableFlash f p table lo n) := by
  induction n with
  | zero => exact h
  | succ n ih =>
    rw [tableFlash_succ]
    exact (ih (by omega)).body (body_wordStep p table (by omega))

theorem call_headers (env : Env) (depth : ℕ) {c : Call} (hc : c.ErasesNothing w.flash) (h : HeadersOk w.flash) :
    wp (fun w op => KeepsHeaders w.flash op) (fun _ w' => HeadersOk w'.flash) (fun _ _ => True) (c.prog env depth) w := by
  cases c with
  | flashInit =>
    rw [Call.prog, nvsFlashInit, wp_bind, reads_findActivePage]
    simp only
    split_ifs
    · rw [wp_bind]
      exact wp_post (headers_rule.initializePage (p := 0) (by omega) 1 h) fun _ w' h => h.1
    · exact h
  | flashErase =>
    rw [Call.prog, nvsFlashErase, wp_bind]
    refine wp_range (fun _ _ w => HeadersOk w.flash) (fun p _ _ w h => ?_) h
    rw [wp_eraseSector]
    exact ⟨⟨h, h.erase p⟩, h.erase p⟩
  | «open» name =>
    rw [Call.prog, nvsOpen]
    split_ifs
    · exact h
    · rw [wp_bind, wp_findItem]
      split_ifs
      · exact h
      · simp only [wp_bind]
        refine wp_post (headers_rule.writeItem env depth (fits_of_le _ (by decide)) h) fun err w'' h => ?_
        split_ifs <;> exact h.1
  | get g handle key =>
    rw [Call.prog, wp_getter]
    split
    · exact h
    · trivial
  | set s handle key =>
    rw [Call.prog, Setter.prog_eq, nvsSetValue, wp_bind]
    apply wp_eraseOldItem_noHit hc.1
    rw [wp_bind]
    exact wp_post (headers_rule.writeItem env depth hc.2 h) fun _ w'' h => h.1
  | eraseKey handle key =>
    rw [Call.prog, nvsEraseKey, wp_bind]
    exact wp_eraseOldItem_noHit hc h
  | eraseAll handle =>
    rw [Call.prog, nvsEraseAll, wp_bind]
    refine wp_range (fun _ _ w => HeadersOk w.flash) (fun p hp _ w h => ?_) h
    refine wp_eraseAllPage hp (fun table _ v hv => ?_) (fun _ _ => h) (fun table _ => ?_) fun _ => trivial
    · have ht : HeadersOk (tableFlash w.flash p table 0 v) := h.tableFlash p table (by omega)
      exact ⟨ht, ht.body (body_wordStep p table hv)⟩
    · exact h.tableFlash p table (by omega)
  | flashDeinit => exact h
  | close handle => exact h
  | commit handle => exact h

variable {env : Env}

theorem Reach.headersOk {cutOk : ℕ → NvsWorld → Call → ℕ → Prop}
    (hw : Reach env (fun w c => c.ErasesNothing w.flash) cutOk w) : HeadersOk w.flash := by
  refine hw.invariant (I := fun w => HeadersOk w.flash) (fun f hf p hp => (hf.blank hp).headerOk)
    (fun w c depth r w' h hc hr => wp_ok (call_headers env depth hc h) hr) fun w c depth k h hc _ => ?_
  exact wp_cut (fun _ _ h => h.2) (call_headers env depth hc h) h k

/-- As long as no call erases an item, `verifyPage` accepts every page, and an
initialised page carries the CRC of its header as it stands. -/
theorem headers_verifiable (hw : Reach env (fun w c => c.ErasesNothing w.flash) anyCut w) {p : ℕ} (hp : p < 8) :
    (verifyPage (pageAddr p)).run w = (.ok true, w) ∧
      (stateAt w.flash p ≠ PageState.uninitialized.word →
        (headerAt w.flash p).crc32 = calculateHeaderCrc32 (headerAt w.flash p)) := by
  have h := hw.headersOk p hp
  refine ⟨?_, fun hu => (h.resolve_left hu).2⟩
  rw [(reads_verifyPage hp).run, decide_eq_true h.verified]

theorem headers_verifiable_factory :
    let w := ((Call.set (.scalar .u8 7#8) 10 keyA).prog (.built []) 1).run factory
    (verifyPage (pageAddr 0)).run w.2 = (.ok true, w.2) ∧
      (stateAt w.2.flash 0 ≠ PageState.uninitialized.word →
        (headerAt w.2.flash 0).crc32 = calculateHeaderCrc32 (headerAt w.2.flash 0)) := by
  intro w
  have hc : (Call.set (.scalar .u8 7#8) 10 keyA).ErasesNothing factory.flash :=
    ⟨noHit_of_blank (fun _ _ _ _ _ => rfl) _ _ _, fits_of_le _ (by decide)⟩
  have hr : Reach (.built []) (fun w c => c.ErasesNothing w.flash) anyCut w.2 :=
    .call reach_factory hc (r := .code espOk) (run_eq (by decide +kernel))
  exact headers_verifiable hr (p := 0) (by omega)

/-- Setting a value twice clears the dirty flag under the CRC. -/
theorem headers_unverifiable :
    let w := calls (.built []) [(1, .set (.scalar .u8 7#8) 10 keyA), (1, .set (.scalar .u8 8#8) 10 keyA)] factory
    w.1 = [.ok (.code espOk), .ok (.code espOk)] ∧ (verifyPage (pageAddr 0)).run w.2 = (.ok false, w.2) := by
  intro w
  have h : w.1 = [.ok (.code espOk), .ok (.code espOk)] ∧ ¬ Verified w.2.flash 0 := by decide +kernel
  refine ⟨h.1, ?_⟩
  rw [show (0 : ℤ) = ((0 : ℕ) : ℤ) from rfl, (reads_verifyPage (by omega)).run, decide_eq_false h.2]

end Esp8266Sdk.Nvs
