import Esp8266Sdk.Nvs.CacheSpec

/-! What `findItem` answers on any flash contents. It compares the name, the type
and the chunk of an item, and never its CRC or its span, and the cached path
does not look at the entry table: an answer is intact exactly where the entries
that can answer are. -/

namespace Esp8266Sdk.Nvs

open Nor Prog

/-- The entry is written and its slot holds an item with a right CRC, all of whose
entries are in the page. -/
structure Intact (f : Flash) (p i : ℕ) : Prop where
  crc : (itemAt f p i).crc32 = calculateCrc32 (itemAt f p i)
  written : entryAt f p i = .written
  span_pos : 1 ≤ spanAt f p i
  span_le : i + spanAt f p i ≤ entriesPerPage

/-- The answer is an intact item of the partition, and what `copyOut` reads for
any buffer lies in the item's own slots. -/
structure IntactAnswer (f : Flash) (r : Found) (p i : ℕ) : Prop where
  page : p < 8 ∧ r.pageAddr = base p
  entry : i < 126 ∧ r.entryIdx = i
  item : r.item = itemAt f p i
  intact : Intact f p i
  copied : ∀ length : UInt32, min (totalCap r.item) length > 8 →
    slotAddr p i + 32 + (min (totalCap r.item) length - 8).toNat ≤ slotAddr p i + 32 * spanAt f p i

/-- Whatever `findItem` returns with `ESP_OK` is intact. -/
def IntactLookups (env : Env) (w : NvsWorld) : Prop :=
  ∀ nsIndex datatype key chunkIndex r w', (findItem env nsIndex datatype key chunkIndex).run w = (.ok r, w') →
    r.err = espOk → ∃ p i, IntactAnswer w.flash r p i

/-- The addresses in the cache are item slots of the partition. -/
def SlotAddresses (cache : Cache) : Prop :=
  ∀ k, ∀ hk : k < 64, cache[k].address = 0 ∨ ∃ p < 8, ∃ i < 126, cache[k].address = slotAddr p i

/-- Every cache slot that answers for the item it points at points at an intact one. -/
def IntactCache (cache : Cache) (f : Flash) : Prop :=
  ∀ k, ∀ hk : k < 64, ∀ p < 8, ∀ i < 126, cache[k].address = slotAddr p i → nameHash f p i = cache[k].hash →
    cache[k].hash.toNat % 64 = k → Intact f p i

/-- The first written entry of each name and chunk is intact, unless the cache answers in its place. -/
def IntactFirst (env : Env) (w : NvsWorld) : Prop :=
  ∀ nsIndex key chunkIndex p i, FirstMatch w.flash nsIndex key chunkIndex p i →
    cachedAt w.flash nsIndex (itemAt w.flash p i).datatype key chunkIndex (getFromCache env nsIndex key w.ram) = none →
    Intact w.flash p i

theorem Intact.answer {f : Flash} {p i : ℕ} (h : Intact f p i) (hp : p < 8) (hi : i < 126) (datatype : UInt8) :
    IntactAnswer f (answer f datatype p i) p i := by
  refine ⟨⟨hp, rfl⟩, ⟨hi, rfl⟩, rfl, h, fun length hlen => ?_⟩
  have hcap : (totalCap (itemAt f p i)).toNat = 8 + (spanAt f p i - 1) * 32 := movedLength_toNat h.span_pos
  have h8 : 8 < (min (totalCap (itemAt f p i)) length).toNat := UInt32.lt_iff_toNat_lt.1 hlen
  have hmin : (min (totalCap (itemAt f p i)) length).toNat ≤ (totalCap (itemAt f p i)).toNat := by
    show (if _ ≤ _ then _ else _ : UInt32).toNat ≤ _
    split_ifs with hle
    · exact le_rfl
    · exact (Nat.lt_of_not_le fun h => hle (UInt32.le_iff_toNat_le.2 h)).le
  have hsub : (min (totalCap (itemAt f p i)) length - 8).toNat = (min (totalCap (itemAt f p i)) length).toNat - 8 :=
    UInt32.toNat_sub_of_le _ _ (UInt32.le_iff_toNat_le.2 h8.le)
  have hpos := h.span_pos
  rw [Nvs.answer, hsub]
  omega

variable {env : Env} {w : NvsWorld}

/-- A lookup of any type accepts what a lookup of one type does. -/
theorem cachedAt_typed {f : Flash} {nsIndex datatype datatype' : UInt8} {key : List UInt8} {chunkIndex : UInt8} {a : ℕ}
    (ht : datatype = ItemType.any.code ∨ datatype' = datatype)
    (h : cachedAt f nsIndex datatype key chunkIndex a = none) : cachedAt f nsIndex datatype' key chunkIndex a = none := by
  rcases ht with rfl | rfl
  · simp only [cachedAt, ite_eq_right_iff, reduceCtorEq, imp_false] at h ⊢
    exact fun hm => h ⟨hm.1, hm.2.1, .inl rfl, hm.2.2.2⟩
  · exact h

theorem slotAddresses_empty : SlotAddresses .empty := by
  intro k hk
  rw [Cache.empty, Vector.getElem_replicate]
  exact .inl rfl

end Esp8266Sdk.Nvs
