import Esp8266Sdk.Spi.Driver

/-! What the driver's reads and writes do, on any chip whose ROM functions do what
they are asked for or refuse it. A ROM function is only asked for whole words
inside one page of the chip. -/

namespace Esp8266Sdk.Spi

open Nor DevM

variable {χ : Type}

/-- What a chip does on a request that the driver may make. A refused program or
erase may have been done in part. -/
structure Rom.Sound (rom : Rom χ) : Prop where
  program : ∀ a bs c, a % 4 = 0 → bs.length % 4 = 0 → a % 256 + bs.length ≤ 256 → a + bs.length ≤ rom.chipSize →
    Between (rom.flash c) (rom.flash (rom.spiPageProgram a bs c).2) ((rom.flash c).program a bs) ∧
    ((rom.spiPageProgram a bs c).1 = espOk → rom.flash (rom.spiPageProgram a bs c).2 = (rom.flash c).program a bs)
  read : ∀ a n c, a % 4 = 0 → n % 4 = 0 → a + n ≤ rom.chipSize → rom.flash (rom.spiReadData a n c).2 = rom.flash c ∧
    ((rom.spiReadData a n c).1.1 = espOk → (rom.spiReadData a n c).1.2 = (rom.flash c).read a n)
  enable : ∀ c, rom.flash (rom.spiWriteEnable c).2 = rom.flash c
  erase : ∀ a c, a % sectorSize = 0 → a + sectorSize ≤ rom.chipSize →
    (∀ x, x < a ∨ a + sectorSize ≤ x → rom.flash (rom.spiSectorErase a (rom.spiWriteEnable c).2).2 x = rom.flash c x) ∧
    ((rom.spiWriteEnable c).1 = espOk → (rom.spiSectorErase a (rom.spiWriteEnable c).2).1 = espOk →
      rom.flash (rom.spiSectorErase a (rom.spiWriteEnable c).2).2 = (rom.flash c).erase a sectorSize)
  protection : ∀ c, rom.flash (rom.clearProtection c) = rom.flash c

/-- A chip that refuses no such request. -/
structure Rom.Reliable (rom : Rom χ) : Prop where
  program : ∀ a bs c, a % 4 = 0 → bs.length % 4 = 0 → a % 256 + bs.length ≤ 256 → a + bs.length ≤ rom.chipSize →
    (rom.spiPageProgram a bs c).1 = espOk
  read : ∀ a n c, a % 4 = 0 → n % 4 = 0 → a + n ≤ rom.chipSize → (rom.spiReadData a n c).1.1 = espOk
  enable : ∀ c, (rom.spiWriteEnable c).1 = espOk
  erase : ∀ a c, a % sectorSize = 0 → a + sectorSize ≤ rom.chipSize → (rom.spiSectorErase a c).1 = espOk

/-! ### Arithmetic -/

theorem u32_of_lt {n : ℕ} (h : n < 2 ^ 32) : u32 n = n := Nat.mod_eq_of_lt h

theorem flashAlign_of_le {n : ℕ} (h : n ≤ 64) : flashAlign n = (n + 3) / 4 * 4 := by
  unfold flashAlign flashAlignBytes u32
  omega

/-- Rounding down, also where rounding up wraps around. -/
theorem flashAlignBefore_eq {a : ℕ} (h : a < 2 ^ 32) (ha : a % 4 ≠ 0) : flashAlignBefore a = a / 4 * 4 := by
  unfold flashAlignBefore flashAlign flashAlignBytes u32
  omega

theorem notAlign_iff {a : ℕ} : notAlign a ↔ a % 4 ≠ 0 := Iff.rfl

theorem Rom.chip_mod (rom : Rom χ) : rom.chipSize % 4 = 0 := by
  have h := Nat.mod_eq_zero_of_dvd rom.chip_dvd
  simp only [sectorSize] at h
  omega

theorem espErrFlashOpFail_ne : espErrFlashOpFail ≠ espOk := by decide

/-! ### Requests to write -/

variable {rom : Rom χ}

/-- How a request to write `bs` at `a` ends. -/
structure Wrote (rom : Rom χ) (c : χ) (a : ℕ) (bs : List UInt8) (ret : EspErr) (c' : χ) : Prop where
  between : Between (rom.flash c) (rom.flash c') ((rom.flash c).program a bs)
  ok : ret = espOk → rom.flash c' = (rom.flash c).program a bs
  refused : ret ≠ espOk → ¬ rom.Reliable

namespace Wrote

variable {c c' c'' : χ} {a : ℕ} {bs cs : List UInt8} {ret ret' : EspErr}

theorem of_flash (h : rom.flash c' = (rom.flash c).program a bs) : Wrote rom c a bs espOk c' where
  between := by rw [h]; exact .done _ _ _
  ok _ := h
  refused h := absurd rfl h

/-- Another return code of the same meaning. -/
theorem code (h : Wrote rom c a bs ret c') (hr : ret' = espOk ↔ ret = espOk) : Wrote rom c a bs ret' c' :=
  ⟨h.between, fun e => h.ok (hr.1 e), fun e => h.refused (mt hr.2 e)⟩

/-- A piece that was refused stops the request. -/
theorem stop (h : Wrote rom c a bs ret c') (hr : ret ≠ espOk) (cs : List UInt8) : Wrote rom c a (bs ++ cs) ret c' where
  between := h.between.first cs
  ok e := absurd e hr
  refused := h.refused

/-- A request in two pieces. -/
theorem append (h : Wrote rom c a bs espOk c') (h' : Wrote rom c' (a + bs.length) cs ret c'') :
    Wrote rom c a (bs ++ cs) ret c'' := by
  have e := h.ok rfl
  constructor
  · exact .rest (e ▸ h'.between)
  · intro hr
    rw [h'.ok hr, e, Flash.program_append]
  · exact h'.refused

/-- A request padded with the bytes stored around it. -/
theorem of_padded {k n : ℕ}
    (h : Wrote rom c a ((rom.flash c).read a k ++ bs ++ (rom.flash c).read (a + k + bs.length) n) ret c') :
    Wrote rom c (a + k) bs ret c' := by
  have e := Flash.program_padded (rom.flash c) a k n bs
  exact ⟨e ▸ h.between, fun hr => e ▸ h.ok hr, h.refused⟩

/-- The state a request starts from matters for its flash only. -/
theorem from_flash {b : χ} (h : Wrote rom c a bs ret c') (e : rom.flash c = rom.flash b) : Wrote rom b a bs ret c' :=
  ⟨e ▸ h.between, fun hr => e ▸ h.ok hr, h.refused⟩

end Wrote

section Program

variable {mem : Flash} {c : χ}

theorem spiFlashWriteRaw_ends (hs : rom.Sound) (a s n : ℕ) (ha : a % 4 = 0) (hn : n % 4 = 0) (hp : a % 256 + n ≤ 256)
    (hc : a + n ≤ rom.chipSize) :
    Ends (spiFlashWriteRaw rom a (mem.read s n)) c (Wrote rom c a (mem.read s n)) := by
  rw [← Flash.length_read mem s n] at hn hp hc
  have h := hs.program a _ c ha hn hp hc
  exact .call ⟨h.1, h.2, fun he hr => he (hr.program a _ c ha hn hp hc)⟩

/-- The loop over whole pages, while its counter does not wrap around. -/
theorem programPages_ends (hs : rom.Sound) {target srcAddr pgmNum : ℕ} (hn : pgmNum ≤ 255) (fuel : ℕ) (i : UInt8)
    (pgmLen n : ℕ) (c : χ) (hf : n < fuel) (hi : i.toNat + n = pgmNum) (hl : pgmLen % 4 = 0)
    (ht : (target + pgmLen) % 256 = 0) (hc : target + pgmLen + 256 * n ≤ rom.chipSize) :
    Ends (programPages rom mem target srcAddr pgmNum fuel i pgmLen) c fun r c' =>
      Wrote rom c (target + pgmLen) (mem.read (srcAddr + pgmLen) (256 * n)) r.1 c' ∧
      (r.1 = espOk → r.2 = pgmLen + 256 * n) := by
  have hlt := rom.chip_lt
  induction fuel generalizing i pgmLen n c with
  | zero => omega
  | succ fuel ih =>
    rw [programPages]
    by_cases h : i.toNat < pgmNum
    · obtain ⟨n, rfl⟩ : ∃ m, n = m + 1 := ⟨n - 1, by omega⟩
      have hroom : target + pgmLen + pageSize ≤ rom.chipSize := by
        rw [pageSize]
        linarith
      rw [if_pos h, u32_of_lt (by omega), Nat.div_mul_cancel (Nat.dvd_of_mod_eq_zero hl)]
      refine (spiFlashWriteRaw_ends hs (target + pgmLen) (srcAddr + pgmLen) pageSize (by omega) (by decide)
        (by rw [ht, pageSize]) hroom).seq ?_
      intro ret c₁ h₁
      have hsplit : mem.read (srcAddr + pgmLen) (256 * (n + 1)) =
          mem.read (srcAddr + pgmLen) pageSize ++ mem.read (srcAddr + (pgmLen + pageSize)) (256 * n) := by
        rw [show 256 * (n + 1) = pageSize + 256 * n by simp only [pageSize]; omega, Flash.read_add, Nat.add_assoc]
      rw [hsplit]
      split_ifs with hr
      · exact .pure ⟨(h₁.stop hr _).code ⟨fun e => absurd e espErrFlashOpFail_ne, fun e => absurd e hr⟩,
          fun e => absurd e espErrFlashOpFail_ne⟩
      · have hi' : (i + 1).toNat = i.toNat + 1 := by
          rw [UInt8.toNat_add, UInt8.toNat_one]
          omega
        have hr : ret = espOk := not_not.1 hr
        rw [u32_of_lt (by simp only [pageSize]; omega)]
        refine (ih (i + 1) (pgmLen + pageSize) n c₁ (by omega) (by omega) (by simp only [pageSize]; omega)
          (by simp only [pageSize]; omega) (by simp only [pageSize]; omega)).imp ?_
        rintro r c₂ ⟨h₂, he⟩
        rw [← Nat.add_assoc, ← Flash.length_read mem (srcAddr + pgmLen) pageSize] at h₂
        rw [Flash.length_read] at h₂
        constructor
        · subst hr
          exact h₁.append (by rw [Flash.length_read]; exact h₂)
        · intro e
          rw [he e]
          simp only [pageSize]
          omega
    · rw [if_neg h]
      obtain rfl : n = 0 := by omega
      exact .pure ⟨.of_flash (Flash.program_nil _ _).symm, fun _ => by omega⟩

/-- A request of whole words that spans at most 255 whole pages behind its first one. -/
theorem spiFlashProgram_ends (hs : rom.Sound) {fuel target srcAddr len : ℕ} (hf : 255 < fuel) (ht : target % 4 = 0)
    (hl : len % 4 = 0) (hp : len < 256 - target % 256 + 65536) (hc : target + len ≤ rom.chipSize) :
    Ends (spiFlashProgram rom fuel mem target srcAddr len) c (Wrote rom c target (mem.read srcAddr len)) := by
  have hlt := rom.chip_lt
  have code {c c' : χ} {a : ℕ} {bs : List UInt8} {ret : EspErr} (h : Wrote rom c a bs ret c') :
      Wrote rom c a bs (if ret ≠ espOk then espErrFlashOpFail else espOk) c' := h.code (by
    split_ifs with hr
    · exact ⟨fun e => absurd e espErrFlashOpFail_ne, fun e => absurd e hr⟩
    · exact ⟨fun _ => not_not.1 hr, fun _ => rfl⟩)
  change Ends (ite (len < 256 - target % 256) _ _) _ _
  by_cases h : len < 256 - target % 256
  · rw [if_pos h]
    exact (spiFlashWriteRaw_ends hs target srcAddr len ht hl (by omega) hc).seq fun ret c₁ h₁ => .pure (code h₁)
  · rw [if_neg h]
    simp only [pageSize]
    set first := 256 - target % 256 with hfirst
    have hlen : len = first + (256 * ((len - first) / 256) + (len - first) % 256) := by omega
    have hread : mem.read srcAddr len = mem.read srcAddr first ++ (mem.read (srcAddr + first) (256 * ((len - first) / 256)) ++
        mem.read (srcAddr + (first + 256 * ((len - first) / 256))) ((len - first) % 256)) := by
      conv_lhs => rw [hlen, Flash.read_add, Flash.read_add, Nat.add_assoc]
    refine (spiFlashWriteRaw_ends hs target srcAddr first ht (by omega) (by omega) (by omega)).seq ?_
    intro ret c₁ h₁
    rw [hread]
    split_ifs with hr
    · exact .pure ((h₁.stop hr _).code ⟨fun e => absurd e espErrFlashOpFail_ne, fun e => absurd e hr⟩)
    obtain rfl : ret = espOk := not_not.1 hr
    refine (programPages_ends hs (by omega) fuel 0 first _ c₁ (by omega) (Nat.zero_add _) (by omega) (by omega)
      (by omega)).seq ?_
    rintro ⟨ret, pgmLen⟩ c₂ ⟨h₂, he⟩
    have h₁₂ : Wrote rom c target (mem.read srcAddr first ++ mem.read (srcAddr + first) (256 * ((len - first) / 256)))
        ret c₂ := h₁.append (by rwa [Flash.length_read])
    simp only at he h₂ ⊢
    rw [← List.append_assoc]
    split_ifs with hr
    · exact .pure (h₁₂.stop hr _)
    obtain rfl : ret = espOk := not_not.1 hr
    rw [he rfl, u32_of_lt (by omega), Nat.div_mul_cancel (by omega : 4 ∣ first + 256 * ((len - first) / 256)),
      show len - (first + 256 * ((len - first) / 256)) = (len - first) % 256 by omega]
    refine (spiFlashWriteRaw_ends hs _ _ _ (by omega) (by omega) (by omega) (by omega)).seq ?_
    intro ret c₃ h₃
    exact .pure (code (h₁₂.append (by simpa [Nat.add_assoc] using h₃)))

end Program

/-! ### Requests to read -/

/-- How a request to read the bytes `bs` ends. -/
structure Got (rom : Rom χ) (c : χ) (bs : List UInt8) (r : EspErr × List UInt8) (c' : χ) : Prop where
  flash : rom.flash c' = rom.flash c
  ok : r.1 = espOk → r.2 = bs
  refused : r.1 ≠ espOk → ¬ rom.Reliable

section Read

variable {c : χ}

theorem spiFlashRead'_ends (hs : rom.Sound) {a n : ℕ} (ha : a % 4 = 0) (hn : n % 4 = 0) (hc : a + n ≤ rom.chipSize) :
    Ends (spiFlashRead' rom a n) c (Got rom c ((rom.flash c).read a n)) := by
  have h := hs.read a n c ha hn hc
  refine .seq (.call (Q := fun r c' => r = (rom.spiReadData a n c).1 ∧ c' = (rom.spiReadData a n c).2) ⟨rfl, rfl⟩) ?_
  rintro ⟨ret, bs⟩ c' ⟨hr, rfl⟩
  have hret : ret = (rom.spiReadData a n c).1.1 := congrArg Prod.fst hr
  have hbs : bs = (rom.spiReadData a n c).1.2 := congrArg Prod.snd hr
  refine .pure ⟨h.1, fun e => ?_, fun e hrel => ?_⟩
  · have e0 : ret = 0 := by
      by_contra hne
      exact espErrFlashOpFail_ne (by simpa [hne] using e)
    exact hbs.trans (h.2 (hret ▸ e0))
  · have e0 : ret = 0 := hret.trans (hrel.read a n c ha hn hc)
    exact e (if_pos e0)

theorem readChunks_ends (hs : rom.Sound) (a size : ℕ) (out : List UInt8) (c : χ)
    (ha : size ≠ 0 → a % 4 = 0) (hc : a + size ≤ rom.chipSize) :
    Ends (readChunks rom a size out) c (Got rom c (out ++ (rom.flash c).read a size)) := by
  have hlt := rom.chip_lt
  have hmod := rom.chip_mod
  induction size using Nat.strong_induction_on generalizing a out c with
  | _ size ih =>
    rw [readChunks]
    by_cases h0 : size = 0
    · rw [if_pos h0, h0]
      exact .pure ⟨rfl, fun _ => by simp [Flash.read], fun e => absurd rfl e⟩
    have ha := ha h0
    rw [if_neg h0]
    have hlen := chunk_eq size
    set len := chunk size
    have hw : flashAlign len = (len + 3) / 4 * 4 := flashAlign_of_le (by omega)
    simp only [hw]
    refine (spiFlashRead'_ends hs ha (by omega) (by omega)).seq ?_
    rintro ⟨ret, buf⟩ c₁ ⟨hf, hok, href⟩
    simp only at hok href ⊢
    split_ifs with hr
    · exact .pure ⟨hf, fun e => absurd e hr, href⟩
    rw [hok (not_not.1 hr), Flash.read_take _ _ _ _ (by omega), u32_of_lt (by omega)]
    refine (ih (size - len) (by omega) (a + len) _ c₁ (by omega) (by omega)).imp ?_
    intro r c₂ h₂
    refine ⟨h₂.flash.trans hf, fun e => ?_, h₂.refused⟩
    rw [h₂.ok e, hf, List.append_assoc, ← Flash.read_add, Nat.add_sub_of_le (by omega)]

/-- A read of the chip into a buffer that is not the null pointer. -/
theorem spiFlashRead_ends (hs : rom.Sound) {a dest size : ℕ} (hd : dest ≠ 0) (hc : a + size ≤ rom.chipSize) :
    Ends (spiFlashRead rom a dest size) c (Got rom c ((rom.flash c).read a size)) := by
  have hlt := rom.chip_lt
  have hmod := rom.chip_mod
  rw [spiFlashRead]
  by_cases h0 : size = 0
  · rw [if_pos h0, h0]
    exact .pure ⟨rfl, fun _ => by simp [Flash.read], fun e => absurd rfl e⟩
  rw [if_neg h0, if_neg hd]
  by_cases hn : notAlign a ∨ notAlign dest ∨ notAlign size
  · rw [if_pos hn]
    by_cases ha : notAlign a
    · have hb : flashAlignBefore a = a / 4 * 4 := flashAlignBefore_eq (by omega) ha
      rw [if_pos ha]
      rw [notAlign_iff] at ha
      simp only [hb, flashAlignBytes]
      have hw := wordBytes_eq (a - a / 4 * 4) size
      generalize wordBytes (a - a / 4 * 4) size = w at hw
      have hws : w ≤ size ∧ w ≤ 4 - (a - a / 4 * 4) ∧ (w < size → (a + w) % 4 = 0) := by omega
      refine (spiFlashRead'_ends hs (by omega) (by omega) (by omega)).seq ?_
      rintro ⟨ret, buf⟩ c₁ ⟨hf, hok, href⟩
      simp only at hok href ⊢
      split_ifs with hr
      · exact .pure ⟨hf, fun e => absurd e hr, href⟩
      have hpiece : (buf.drop (a - a / 4 * 4)).take w = (rom.flash c).read a w := by
        have hsplit : (rom.flash c).read (a / 4 * 4) 4 =
            (rom.flash c).read (a / 4 * 4) (a - a / 4 * 4) ++ (rom.flash c).read a (4 - (a - a / 4 * 4)) := by
          have e := (rom.flash c).read_add (a / 4 * 4) (a - a / 4 * 4) (4 - (a - a / 4 * 4))
          rwa [show a - a / 4 * 4 + (4 - (a - a / 4 * 4)) = 4 by omega, show a / 4 * 4 + (a - a / 4 * 4) = a by omega] at e
        rw [hok (not_not.1 hr), hsplit, List.drop_left' (by simp), Flash.read_take _ _ _ _ hws.2.1]
      rw [hpiece, u32_of_lt (by omega)]
      refine (readChunks_ends hs (a + w) (size - w) _ c₁ (fun hz => hws.2.2 (by omega)) (by omega)).imp ?_
      intro r c₂ h₂
      refine ⟨h₂.flash.trans hf, fun e => ?_, h₂.refused⟩
      rw [h₂.ok e, hf, ← Flash.read_add, Nat.add_sub_of_le hws.1]
    · rw [if_neg ha]
      exact readChunks_ends hs a size [] c (fun _ => not_not.1 ha) hc
  · simp only [not_or, notAlign_iff, not_not] at hn
    rw [if_neg (by simp only [notAlign_iff]; omega)]
    exact spiFlashRead'_ends hs hn.1 hn.2.2 hc

end Read

/-! ### Unaligned writes -/

section Write

variable {mem : Flash} {c : χ}

@[simp] theorem length_memcpy {buf : List UInt8} {off : ℕ} {bs : List UInt8} (h : off + bs.length ≤ buf.length) :
    (memcpy buf off bs).length = buf.length := by
  simp only [memcpy, List.length_append, List.length_take, List.length_drop]
  omega

/-- Copying over the middle of a buffer. -/
theorem memcpy_middle (as ms ds bs : List UInt8) (h : bs.length = ms.length) :
    memcpy (as ++ ms ++ ds) as.length bs = as ++ bs ++ ds := by
  have ht : (as ++ ms ++ ds).take as.length = as := by rw [List.append_assoc, List.take_left]
  have hd : (as ++ ms ++ ds).drop (as.length + bs.length) = ds := by rw [h, ← List.length_append, List.drop_left]
  rw [memcpy, ht, hd]

theorem read_buffer {buf : List UInt8} {n : ℕ} (h : n ≤ buf.length) :
    Flash.read (fun x => buf.getD x 0) 0 n = buf.take n := by
  apply List.ext_getElem (by simp [h])
  intro i hi _
  have hin : i < n := by simpa using hi
  rw [Flash.getElem_read, Nat.zero_add, List.getElem_take, List.getD_eq_getElem _ _ (by omega)]

/-- A word read into the buffer and patched holds the patch, padded with the bytes stored around it. -/
theorem take_patched_word (f : Flash) (a lo : ℕ) (buf bs : List UInt8) (h : lo + bs.length ≤ 4) :
    (memcpy (memcpy buf 0 (f.read a 4)) lo bs).take 4 =
      f.read a lo ++ bs ++ f.read (a + lo + bs.length) (4 - lo - bs.length) := by
  have hsplit : f.read a 4 = f.read a lo ++ f.read (a + lo) bs.length ++
      f.read (a + lo + bs.length) (4 - lo - bs.length) := by
    rw [← Flash.read_add, Nat.add_assoc a, ← Flash.read_add]
    congr 1
    omega
  have h₀ : memcpy buf 0 (f.read a 4) = f.read a lo ++ f.read (a + lo) bs.length ++
      (f.read (a + lo + bs.length) (4 - lo - bs.length) ++ buf.drop 4) := by
    rw [memcpy, List.take_zero, List.nil_append, Nat.zero_add, Flash.length_read, hsplit, List.append_assoc]
  have hm := memcpy_middle (f.read a lo) (f.read (a + lo) bs.length)
    (f.read (a + lo + bs.length) (4 - lo - bs.length) ++ buf.drop 4) bs (by simp)
  rw [Flash.length_read] at hm
  rw [h₀, hm, ← List.append_assoc, List.take_left' (by simp; omega)]

/-- Bytes copied over the words before the last one, and over the head of the last one as read from the flash. -/
theorem take_patched_tail (f : Flash) (a lB : ℕ) (buf bs : List UInt8) (h : lB ≤ bs.length) (h' : bs.length ≤ lB + 4)
    (hb : lB + 4 ≤ buf.length) :
    (memcpy (memcpy buf lB (f.read (a + lB) 4)) 0 bs).take (lB + 4) =
      bs ++ f.read (a + bs.length) (lB + 4 - bs.length) := by
  have hsplit : f.read (a + lB) 4 = f.read (a + lB) (bs.length - lB) ++ f.read (a + bs.length) (lB + 4 - bs.length) := by
    have e := f.read_add (a + lB) (bs.length - lB) (lB + 4 - bs.length)
    rwa [show bs.length - lB + (lB + 4 - bs.length) = 4 by omega,
      show a + lB + (bs.length - lB) = a + bs.length by omega] at e
  have h₀ : memcpy buf lB (f.read (a + lB) 4) = [] ++ (buf.take lB ++ f.read (a + lB) (bs.length - lB)) ++
      (f.read (a + bs.length) (lB + 4 - bs.length) ++ buf.drop (lB + 4)) := by
    rw [memcpy, Flash.length_read, hsplit]
    simp only [List.nil_append, List.append_assoc]
  have hm := memcpy_middle [] (buf.take lB ++ f.read (a + lB) (bs.length - lB))
    (f.read (a + bs.length) (lB + 4 - bs.length) ++ buf.drop (lB + 4)) bs (by simp; omega)
  rw [List.length_nil] at hm
  rw [h₀, hm, List.nil_append, ← List.append_assoc, List.take_left' (by simp; omega)]

/-- The words of the driver's buffer, programmed where its bytes are stored padded. -/
theorem spiFlashProgram_padded (hs : rom.Sound) {fuel a wlen : ℕ} {buf : List UInt8} (k n : ℕ) (bs : List UInt8) (hf : 255 < fuel)
    (ha : a % 4 = 0) (hw : wlen % 4 = 0) (hle : wlen ≤ 64) (hb : wlen ≤ buf.length) (hc : a + wlen ≤ rom.chipSize)
    (hbuf : buf.take wlen = (rom.flash c).read a k ++ bs ++ (rom.flash c).read (a + k + bs.length) n) :
    Ends (spiFlashProgram rom fuel (fun x => buf.getD x 0) a 0 wlen) c (Wrote rom c (a + k) bs) := by
  refine (spiFlashProgram_ends hs hf ha hw (by omega) hc).imp fun ret c' h => ?_
  rw [read_buffer hb, hbuf] at h
  exact h.of_padded

/-- The buffer of a round, ready for its `len` bytes. -/
structure Loaded (rom : Rom χ) (c : χ) (dest len wlen : ℕ) (r : EspErr × List UInt8) (c' : χ) : Prop where
  flash : rom.flash c' = rom.flash c
  length : r.1 = espOk → r.2.length = 64
  padded : r.1 = espOk → ∀ bs : List UInt8, bs.length = len →
    (memcpy r.2 0 bs).take wlen = bs ++ (rom.flash c).read (dest + len) (wlen - len)
  refused : r.1 ≠ espOk → ¬ rom.Reliable

theorem readLastWord_ends (hs : rom.Sound) {bufAddr dest len wlen : ℕ} {buf : List UInt8} (hba : bufAddr ≠ 0)
    (hb : buf.length = 64) (hlen : len ≤ 64) (hw : wlen = (len + 3) / 4 * 4) (hc : dest + wlen ≤ rom.chipSize) :
    Ends (readLastWord rom bufAddr dest len wlen buf) c (Loaded rom c dest len wlen) := by
  have hlt := rom.chip_lt
  rw [readLastWord]
  by_cases hne : wlen ≠ len
  · rw [if_pos hne]
    simp only [flashAlignBytes]
    rw [u32_of_lt (by omega)]
    refine (spiFlashRead_ends hs (by omega) (by omega)).seq ?_
    rintro ⟨ret, bs⟩ c₁ ⟨hf, hok, href⟩
    simp only at hok
    refine .pure ⟨hf, fun e => ?_, fun e bs' hbs => ?_, href⟩
    · have hl : bs.length = 4 := (congrArg List.length (hok e)).trans (Flash.length_read _ _ _)
      exact (length_memcpy (by simp only [hl]; omega)).trans hb
    · have ht := take_patched_tail (rom.flash c) dest (wlen - 4) buf bs' (by omega) (by omega) (by omega)
      simp only at e ⊢
      rwa [hok e, ← hbs, ← show wlen - 4 + 4 = wlen by omega]
  · rw [if_neg hne]
    have hwl : wlen = len := not_not.1 hne
    refine .pure ⟨rfl, fun _ => hb, fun _ bs' hbs => ?_, fun e => absurd rfl e⟩
    rw [memcpy, List.take_zero, List.nil_append, List.take_left' (by omega), hwl, Nat.sub_self]
    simp [Flash.read]

theorem writeChunks_ends (hs : rom.Sound) {fuel bufAddr : ℕ} (hf : 255 < fuel) (hba : bufAddr ≠ 0) (dest tmp size : ℕ)
    (buf : List UInt8) (c : χ) (hb : buf.length = 64) (hd : size ≠ 0 → dest % 4 = 0) (hc : dest + size ≤ rom.chipSize) :
    Ends (writeChunks rom fuel mem bufAddr dest tmp size buf) c (Wrote rom c dest (mem.read tmp size)) := by
  have hlt := rom.chip_lt
  have hmod := rom.chip_mod
  induction size using Nat.strong_induction_on generalizing dest tmp buf c with
  | _ size ih =>
    rw [writeChunks]
    by_cases h0 : size = 0
    · rw [if_pos h0, h0]
      exact .pure (.of_flash (Flash.program_nil _ _).symm)
    have hd := hd h0
    rw [if_neg h0]
    have hlen := chunk_eq size
    set len := chunk size
    have hw : flashAlign len = (len + 3) / 4 * 4 := flashAlign_of_le (by omega)
    simp only [hw]
    set wlen := (len + 3) / 4 * 4 with hwlen
    have hsplit : mem.read tmp size = mem.read tmp len ++ mem.read (tmp + len) (size - len) := by
      rw [← Flash.read_add, Nat.add_sub_of_le (by omega)]
    refine (readLastWord_ends hs hba hb (by omega) hwlen (by omega)).seq ?_
    rintro ⟨ret, buf'⟩ c₁ ⟨hfl, hb', hpad, href⟩
    simp only at hb' hpad href ⊢
    rw [hsplit]
    by_cases hr : ret = espOk
    · have hml : (memcpy buf' 0 (mem.read tmp len)).length = 64 := by rw [length_memcpy (by simp [hb' hr]; omega), hb' hr]
      have htake : (memcpy buf' 0 (mem.read tmp len)).take wlen = (rom.flash c₁).read dest 0 ++ mem.read tmp len ++
          (rom.flash c₁).read (dest + 0 + (mem.read tmp len).length) (wlen - len) := by
        rw [hpad hr _ (Flash.length_read _ _ _), hfl]
        simp [Flash.read]
      rw [if_neg (not_not.2 hr)]
      refine (spiFlashProgram_padded hs 0 (wlen - len) _ hf hd (by omega) (by omega) (by omega) (by omega) htake).seq ?_
      intro ret c₂ h₂
      have h₂ := h₂.from_flash hfl
      split_ifs with hr₂
      · exact .pure (h₂.stop hr₂ _)
      rw [u32_of_lt (by omega)]
      refine (ih (size - len) (by omega) (dest + len) (tmp + len) _ c₂ hml (by omega) (by omega)).imp ?_
      intro ret' c₃ h₃
      obtain rfl : ret = espOk := not_not.1 hr₂
      exact h₂.append (by rwa [Flash.length_read])
    · rw [if_pos hr]
      refine .pure ⟨?_, fun e => absurd e hr, fun _ => href hr⟩
      rw [hfl]
      exact .stopped _ _ _

end Write

end Esp8266Sdk.Spi
