import Esp8266Sdk.Nor.Flash

/-! Programming in pieces. A device programs a request as several smaller ones,
pads a piece with the bytes already stored around it, and may stop inside a
piece. A flash is between an old and a new one when it has lost some of the bits
that the new one lost; every interrupted program is of this kind, and pieces
of a program that is between make a whole that is. -/

namespace Esp8266Sdk.Nor

/-- Every bit set in `b` is set in `c`. -/
def Bits (b c : UInt8) : Prop := b &&& c = b

instance (b c : UInt8) : Decidable (Bits b c) := inferInstanceAs (Decidable (_ = _))

namespace Bits

variable {b c d : UInt8}

@[refl] theorem refl (b : UInt8) : Bits b b := UInt8.and_self

theorem trans (h : Bits b c) (h' : Bits c d) : Bits b d := by
  have hd : b &&& d = b &&& c &&& d := by rw [show b &&& c = b from h]
  calc b &&& d = b &&& (c &&& d) := by rw [hd, UInt8.and_assoc]
    _ = b := by rw [show c &&& d = c from h', show b &&& c = b from h]

theorem antisymm (h : Bits b c) (h' : Bits c b) : b = c := by
  rw [← show b &&& c = b from h, UInt8.and_comm, show c &&& b = c from h']

theorem and_left (b c : UInt8) : Bits (b &&& c) b := by
  rw [Bits, UInt8.and_comm b c, UInt8.and_assoc, UInt8.and_self]

end Bits

/-- The flash `g` lies between `f` and the flash `h` that programming makes of it. -/
structure Between (f g h : Flash) : Prop where
  old : ∀ x, Bits (g x) (f x)
  new : ∀ x, Bits (h x) (g x)

namespace Flash

/-! ### Pieces -/

theorem program_nil (f : Flash) (a : ℕ) : f.program a [] = f := program_ff f a (by simp)

/-- Programming in two pieces. -/
theorem program_append (f : Flash) (a : ℕ) (bs cs : List UInt8) :
    f.program a (bs ++ cs) = (f.program a bs).program (a + bs.length) cs := by
  funext x
  by_cases hl : x < a + bs.length
  · have ho : (f.program a bs).program (a + bs.length) cs x = f.program a bs x := program_outside (.inl hl)
    rw [ho]
    by_cases ha : a ≤ x
    · obtain ⟨i, rfl⟩ := Nat.exists_eq_add_of_le ha
      have hi : i < bs.length := by omega
      have hw : i < (bs ++ cs).length := by simp; omega
      rw [program_inside hw, program_inside hi, List.getD_append _ _ _ _ hi]
    · rw [program_outside (.inl (by omega)), program_outside (.inl (by omega))]
  · obtain ⟨i, rfl⟩ := Nat.exists_eq_add_of_le (Nat.le_of_not_lt hl)
    have ho : f.program a bs (a + bs.length + i) = f (a + bs.length + i) := program_outside (.inr (by omega))
    by_cases hi : i < cs.length
    · rw [program_inside hi, ho, Nat.add_assoc, program_inside (by simp; omega),
        List.getD_append_right _ _ _ _ (by omega), Nat.add_sub_cancel_left]
    · have ho' : (f.program a bs).program (a + bs.length) cs (a + bs.length + i) = f.program a bs (a + bs.length + i) :=
        program_outside (.inr (by omega))
      rw [ho', ho, program_outside (.inr (by simp; omega))]

/-- Programming the bytes a flash already has. -/
theorem program_read (f : Flash) (a n : ℕ) : f.program a (f.read a n) = f := by
  funext x
  rw [program_apply]
  split_ifs with h
  · obtain ⟨i, rfl⟩ := Nat.exists_eq_add_of_le h.1
    have hi : i < n := by simpa using h.2
    rw [Nat.add_sub_cancel_left, getD_read, if_pos hi, UInt8.and_self]
  · rfl

/-- Bytes padded with those stored before and behind them change what they change alone. -/
theorem program_padded (f : Flash) (a k n : ℕ) (bs : List UInt8) :
    f.program a (f.read a k ++ bs ++ f.read (a + k + bs.length) n) = f.program (a + k) bs := by
  have hr : f.read (a + k + bs.length) n = (f.program (a + k) bs).read (a + k + bs.length) n :=
    read_congr fun x hx _ => (program_outside (.inr hx)).symm
  have hl : a + (f.read a k ++ bs).length = a + k + bs.length := by simp; omega
  rw [program_append, hl, program_append, program_read, length_read, hr, program_read]

theorem bits_program (f : Flash) (a : ℕ) (bs : List UInt8) (x : ℕ) : Bits (f.program a bs x) (f x) := by
  rw [program_apply]
  split_ifs
  · exact Bits.and_left _ _
  · exact Bits.refl _

end Flash

namespace Between

variable {f g h : Flash}

theorem stopped (f : Flash) (a : ℕ) (bs : List UInt8) : Between f f (f.program a bs) :=
  ⟨fun _ => Bits.refl _, f.bits_program a bs⟩

theorem done (f : Flash) (a : ℕ) (bs : List UInt8) : Between f (f.program a bs) (f.program a bs) :=
  ⟨f.bits_program a bs, fun _ => Bits.refl _⟩

/-- A flash is unchanged where programming changes nothing. -/
theorem eq_of_eq (t : Between f g h) {x : ℕ} (e : h x = f x) : g x = f x :=
  (t.old x).antisymm (e ▸ t.new x)

theorem outside {a : ℕ} {bs : List UInt8} (t : Between f g (f.program a bs)) {x : ℕ}
    (hx : x < a ∨ a + bs.length ≤ x) : g x = f x := t.eq_of_eq (Flash.program_outside hx)

/-- A program that stopped in its first piece. -/
theorem first {a : ℕ} {bs : List UInt8} (t : Between f g (f.program a bs)) (cs : List UInt8) :
    Between f g (f.program a (bs ++ cs)) := by
  rw [Flash.program_append]
  exact ⟨t.old, fun x => (Flash.bits_program _ _ _ x).trans (t.new x)⟩

/-- A program that stopped behind its first piece. -/
theorem rest {a : ℕ} {bs cs : List UInt8}
    (t : Between (f.program a bs) g ((f.program a bs).program (a + bs.length) cs)) :
    Between f g (f.program a (bs ++ cs)) := by
  rw [Flash.program_append]
  exact ⟨fun x => (t.old x).trans (f.bits_program a bs x), t.new⟩

end Between

end Esp8266Sdk.Nor
