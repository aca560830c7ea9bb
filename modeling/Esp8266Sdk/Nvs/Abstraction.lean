import Esp8266Sdk.Nvs.Model
import Esp8266Sdk.Nvs.PutSpec

/-! The flash refines the abstract store: a sound flash holds a log, and the
routines that erase and write change that log as the abstract store does. -/

namespace Esp8266Sdk.Nvs

open Nor Prog Kv

/-- The flash is sound and holds the store `s`. -/
structure Abs (f : Flash) (s : Store) : Prop where
  sound : Sound f s.page s.used
  log : s.log = logOf f

theorem Sound.abs {f : Flash} {a u : ℕ} (h : Sound f a u) : Abs f ⟨logOf f, a, u⟩ := ⟨h, rfl⟩

/-! ### Erasing -/

theorem Removes.sound {f g : Flash} {R : ℕ → ℕ → Prop} (e : Removes f g R) {a u : ℕ} (h : Sound f a u) : Sound g a u where
  ordered := e.ordered h.ordered
  packed := e.erases.packed h.packed
  distinct := e.erases.distinct h.packed h.distinct
  used_le := h.used_le
  used := fun j hj => by rw [e.erases.empty_iff h.packed h.ordered.lt hj, h.used j hj]

/-- Erasing blocks drops their records. -/
theorem Abs.removes {f g : Flash} {s : Store} (h : Abs f s) {R : ℕ → ℕ → Prop} [∀ p i, Decidable (R p i)]
    (e : Removes f g R) {P : Record → Prop} [DecidablePred P]
    (hP : ∀ p < 8, ∀ i, Head f p i → (R p i ↔ P (recordAt f p i))) : Abs g (s.drop P) where
  sound := e.sound h.sound
  log := by rw [Store.drop, h.log, e.erases.logOf h.sound.packed hP]

theorem name_recordAt {f : Flash} {p i : ℕ} {nsIndex : UInt8} {key : List UInt8} :
    (recordAt f p i).name = (nsIndex, key) ↔ (itemAt f p i).named nsIndex key := by
  rw [recordAt, Prod.mk.injEq, Item.named]

/-- After `eraseOldItem` of a key and a type. -/
theorem ErasedOld.abs {w w' : NvsWorld} {s : Store} {nsIndex datatype : UInt8} {key : List UInt8}
    (e : ErasedOld w w' nsIndex datatype key) (h : Abs w.flash s) (hd : datatype ≠ ItemType.any.code) :
    Abs w'.flash (s.drop fun e => e.name = (nsIndex, key) ∧ e.kind = datatype) := by
  refine h.removes e.removes fun p _ i hi => ?_
  rw [name_recordAt, Old, Hit, Item.typed, or_iff_right hd, and_iff_right hi]
  exact Iff.rfl

/-- After `eraseOldItem` of a key in all its types. -/
theorem ErasedOld.abs_any {w w' : NvsWorld} {s : Store} {nsIndex : UInt8} {key : List UInt8}
    (e : ErasedOld w w' nsIndex ItemType.any.code key) (h : Abs w.flash s) :
    Abs w'.flash (s.drop fun e => e.name = (nsIndex, key)) := by
  refine h.removes e.removes fun p _ i hi => ?_
  rw [name_recordAt, Old, Hit, Item.typed, and_iff_right hi, eq_self_iff_true, true_or, and_true]

theorem Abs.eraseAll {f g : Flash} {s : Store} (h : Abs f s) {nsIndex : UInt8} (e : Removes f g (InNamespace f nsIndex)) :
    Abs g (s.drop fun e => e.name.1 = nsIndex) :=
  h.removes e fun _ _ _ hi => and_iff_right hi

/-! ### Writing -/

/-- No block has the name and type under which a value of this key is stored. -/
def FreeName (f : Flash) (nsIndex datatype : UInt8) (key : List UInt8) : Prop :=
  ∀ p < 8, ∀ i < 126, Head f p i → ¬ ((itemAt f p i).named nsIndex (key.take 15) ∧ (itemAt f p i).datatype = datatype)

instance (f : Flash) (nsIndex datatype : UInt8) (key : List UInt8) : Decidable (FreeName f nsIndex datatype key) :=
  inferInstanceAs (Decidable (∀ _ < _, _))

theorem newItem_keyString (nsIndex datatype : UInt8) {key : List UInt8} (hkey : 0 ∉ key) (data : Option (List UInt8))
    (length : UInt32) (chunkIndex : UInt8) :
    (newItem nsIndex datatype key data length chunkIndex).keyString = key.take 15 := takeWhile_keyField hkey

section

variable {w : NvsWorld} {s : Store} {nsIndex datatype : UInt8} {key : List UInt8} {data : Option (List UInt8)}
  {length : UInt32}

/-- Storing a value appends its record. -/
theorem Put.abs {f g : Flash} {p t : ℕ} (e : PutValue f g p t nsIndex datatype key data length) (h : Abs f s)
    (hkey : 0 ∉ key) (hfree : FreeName f nsIndex datatype key) :
    Abs g ⟨s.log.put (newRecord nsIndex datatype key data length), p, t + (itemSpan length).toNat⟩ where
  sound := e.sound h.sound rfl rfl fun q hq i hi h1 h2 h3 =>
    hfree q hq i hi.1 hi ⟨⟨h1, h2.trans (newItem_keyString _ _ hkey _ _ _)⟩, h3⟩
  log := by
    rw [e.logOf h.sound.packed, newItem_keyString _ _ hkey, h.log]
    rfl

/-- `writeItem` on a flash that holds a store. -/
theorem wp_writeItem_abs (env : Env) (depth : ℕ) (h : Abs w.flash s) (hr : RoomOk w.flash length) (hfit : Fits data length)
    (hkey : 0 ∉ key) (hfree : FreeName w.flash nsIndex datatype key) :
    wp (fun _ _ => True)
      (fun err w' => (s.put depth (itemSpan length).toNat (newRecord nsIndex datatype key data length)).1 = .ok err ∧
        Abs w'.flash (s.put depth (itemSpan length).toNat (newRecord nsIndex datatype key data length)).2 ∧
        Wrote w w' s.page s.used nsIndex datatype key data length err)
      (fun e _ => (s.put depth (itemSpan length).toNat (newRecord nsIndex datatype key data length)).1 = .error e)
      (writeItem env depth nsIndex datatype key data length 0xff) w := by
  refine wp_mono (wp_writeItem_sound env depth h.sound hr hfit) (fun _ _ h => h) ?_ ?_
  · rintro err w' ⟨hd, hw⟩
    rw [Store.put, if_neg hd]
    refine ⟨?_, ?_, hw⟩
    · cases hw with
      | stored hplace hwords put ram =>
        obtain ⟨_, _, hs⟩ := put.stores
        have hpos := hs.pos
        have hfits := hs.fits
        rw [place] at hplace
        split_ifs at hplace with hn <;> cases hplace
        · rw [if_pos ⟨hpos, hn⟩, if_pos hwords]
        · rw [if_neg fun h => hn h.2, if_pos ⟨hpos, by omega⟩, if_pos (by omega)]
      | noRoom hspan prepared ram => rw [if_neg (by omega), if_neg hspan]
    · cases hw with
      | stored hplace hwords put ram =>
        obtain ⟨_, _, hs⟩ := put.stores
        have hpos := hs.pos
        have hfits := hs.fits
        have habs := put.abs h hkey hfree
        rw [place] at hplace
        split_ifs at hplace with hn <;> cases hplace
        · rw [if_pos ⟨hpos, hn⟩]
          exact habs
        · rw [if_neg fun h => hn h.2, if_pos ⟨hpos, by omega⟩]
          rwa [Nat.zero_add] at habs
      | noRoom hspan prepared ram =>
        rw [if_neg (by omega), if_neg hspan]
        refine ⟨⟨prepared.ordered, prepared.same.packed h.sound.packed,
          prepared.same.distinct h.sound.packed h.sound.distinct, Nat.zero_le _, prepared.used⟩, ?_⟩
        rw [prepared.same.logOf_same h.sound.packed, h.log]
  · intro e w' hw
    cases hw with
    | stack hdepth => rw [Store.put, if_pos hdepth]
    | index hplace hdepth hpos htn hwords put ram =>
      rw [place] at hplace
      rw [Store.put, if_neg hdepth]
      split_ifs at hplace with hn <;> cases hplace
      · rw [if_pos ⟨hpos, hn⟩, if_neg (by omega)]
      · rw [if_neg fun h => hn h.2, if_pos ⟨hpos, by omega⟩, if_neg (by omega)]

end

end Esp8266Sdk.Nvs
