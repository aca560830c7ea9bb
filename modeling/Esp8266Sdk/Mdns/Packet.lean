import Mathlib

/-! Packets of `mdns.c`: fields appended in network order, and read back. A packet
is the list of the bytes written so far; its length is the C code's `index`. -/

namespace Esp8266Sdk.Mdns

/-- The characters of a C string, without the NUL that ends it. -/
abbrev CString := {s : List UInt8 // 0 ∉ s}

theorem not_mem_takeWhile (buf : List UInt8) : 0 ∉ buf.takeWhile (· != 0) :=
  fun h => by simpa using List.mem_takeWhile_imp h

/-- The string in a buffer ends at its first NUL. -/
def cstr (buf : List UInt8) : CString := ⟨buf.takeWhile (· != 0), not_mem_takeWhile buf⟩

@[simp] theorem cstr_val (s : CString) : cstr s.val = s := by
  apply Subtype.ext
  apply List.takeWhile_eq_self_iff.2
  intro c hc
  exact bne_iff_ne.2 fun h => s.2 (h ▸ hc)

def strlen (s : CString) : ℕ := s.val.length

/-- `MDNS_MAX_PACKET_SIZE` -/
def maxPacketSize : ℕ := 1460

/-- `_mdns_append_u8`. Appending returns the packet and the length of the added data, 0 on error. -/
def appendU8 (value : UInt8) (packet : List UInt8) : List UInt8 × ℕ :=
  if maxPacketSize ≤ packet.length then (packet, 0) else (packet ++ [value], 1)

/-- `_mdns_append_u16` -/
def appendU16 (value : UInt16) (packet : List UInt8) : List UInt8 × ℕ :=
  if maxPacketSize ≤ packet.length + 1 then (packet, 0) else
    let packet := (appendU8 (UInt8.ofNat (value.toNat / 2 ^ 8)) packet).1
    ((appendU8 (UInt8.ofNat value.toNat) packet).1, 2)

/-- `_mdns_append_u32` -/
def appendU32 (value : UInt32) (packet : List UInt8) : List UInt8 × ℕ :=
  if maxPacketSize ≤ packet.length + 3 then (packet, 0) else
    let packet := (appendU8 (UInt8.ofNat (value.toNat / 2 ^ 24)) packet).1
    let packet := (appendU8 (UInt8.ofNat (value.toNat / 2 ^ 16)) packet).1
    let packet := (appendU8 (UInt8.ofNat (value.toNat / 2 ^ 8)) packet).1
    ((appendU8 (UInt8.ofNat value.toNat) packet).1, 4)

/-- `_mdns_set_u16` -/
def setU16 (packet : List UInt8) (index : ℕ) (value : UInt16) : List UInt8 :=
  if maxPacketSize ≤ index + 1 then packet else
    (packet.set index (UInt8.ofNat (value.toNat / 2 ^ 8))).set (index + 1) (UInt8.ofNat value.toNat)

/-- `_mdns_append_string`. Its length and its result are of the type `uint8_t`. -/
def appendString (string : CString) (packet : List UInt8) : List UInt8 × ℕ :=
  let len := strlen string % 2 ^ 8
  if maxPacketSize ≤ packet.length + len + 1 then (packet, 0) else
    ((appendU8 (UInt8.ofNat len) packet).1 ++ string.val.take len, (len + 1) % 2 ^ 8)

/-- `_mdns_read_u16` -/
def readU16 (packet : List UInt8) (index : ℕ) : UInt16 :=
  UInt16.ofNat ((packet.getD index 0).toNat * 2 ^ 8 + (packet.getD (index + 1) 0).toNat)

/-- `_mdns_read_u32` -/
def readU32 (packet : List UInt8) (index : ℕ) : UInt32 :=
  UInt32.ofNat ((packet.getD index 0).toNat * 2 ^ 24 + (packet.getD (index + 1) 0).toNat * 2 ^ 16
    + (packet.getD (index + 2) 0).toNat * 2 ^ 8 + (packet.getD (index + 3) 0).toNat)

/-- The `MDNS_ANSWER_` constants of the records with a type field. -/
inductive Answer where
  | ptr | txt | srv | a | aaaa
  deriving DecidableEq

/-- The `MDNS_TYPE_` constant of an answer. -/
def Answer.type : Answer → UInt16
  | .ptr => 0x000C
  | .txt => 0x0010
  | .srv => 0x0021
  | .a => 0x0001
  | .aaaa => 0x001C

/-- `MDNS_CLASS_IN` and `MDNS_CLASS_IN_FLUSH_CACHE` -/
def classIn : UInt16 := 0x0001
def classInFlushCache : UInt16 := 0x8001

/-- `_mdns_append_type` -/
def appendType (type : Answer) (flush : Bool) (ttl : UInt32) (packet : List UInt8) : List UInt8 × ℕ :=
  if maxPacketSize ≤ packet.length + 10 then (packet, 0) else
    let clas := if flush then classInFlushCache else classIn
    let packet := (appendU16 type.type packet).1
    let packet := (appendU16 clas packet).1
    let packet := (appendU32 ttl packet).1
    ((appendU16 0 packet).1, 10)

section Bytes

/-- The bytes of a field in network order. -/
def be16 (v : UInt16) : List UInt8 := [UInt8.ofNat (v.toNat / 2 ^ 8), UInt8.ofNat v.toNat]

def be32 (v : UInt32) : List UInt8 :=
  [UInt8.ofNat (v.toNat / 2 ^ 24), UInt8.ofNat (v.toNat / 2 ^ 16), UInt8.ofNat (v.toNat / 2 ^ 8), UInt8.ofNat v.toNat]

@[simp] theorem length_be16 (v : UInt16) : (be16 v).length = 2 := rfl
@[simp] theorem length_be32 (v : UInt32) : (be32 v).length = 4 := rfl

variable {packet : List UInt8}

theorem appendU8_of_lt {value : UInt8} (h : packet.length < maxPacketSize) :
    appendU8 value packet = (packet ++ [value], 1) := if_neg (Nat.not_le.2 h)

theorem appendU16_of_lt {value : UInt16} (h : packet.length + 1 < maxPacketSize) :
    appendU16 value packet = (packet ++ be16 value, 2) := by
  have h1 : packet.length < maxPacketSize := by omega
  rw [appendU16, if_neg (Nat.not_le.2 h), appendU8_of_lt h1]
  simp only
  rw [appendU8_of_lt (by simpa using h), List.append_assoc]
  rfl

theorem appendU32_of_lt {value : UInt32} (h : packet.length + 3 < maxPacketSize) :
    appendU32 value packet = (packet ++ be32 value, 4) := by
  have h1 : packet.length < maxPacketSize := by omega
  rw [appendU32, if_neg (Nat.not_le.2 h)]
  simp (disch := (simp only [List.length_append, List.length_singleton]; omega)) only [appendU8_of_lt h1, appendU8_of_lt,
    List.append_assoc]
  rfl

/-- What `_mdns_append_type` writes: type, class, time to live and an empty length field. -/
def typeBytes (type : Answer) (flush : Bool) (ttl : UInt32) : List UInt8 :=
  be16 type.type ++ be16 (if flush then classInFlushCache else classIn) ++ be32 ttl

theorem appendType_of_lt {type : Answer} {flush : Bool} {ttl : UInt32} (h : packet.length + 10 < maxPacketSize) :
    appendType type flush ttl packet = (packet ++ typeBytes type flush ttl ++ be16 0, 10) := by
  have h1 : packet.length + 1 < maxPacketSize := by omega
  rw [appendType, if_neg (Nat.not_le.2 h)]
  simp (disch := (simp only [List.length_append, length_be16, length_be32]; omega)) only [appendU16_of_lt h1, appendU16_of_lt,
    appendU32_of_lt]
  simp only [typeBytes, List.append_assoc]

theorem readU16_be16 (pre post : List UInt8) (v : UInt16) : readU16 (pre ++ be16 v ++ post) pre.length = v := by
  have hv := v.toNat_lt
  have h0 : (pre ++ be16 v ++ post).getD pre.length 0 = UInt8.ofNat (v.toNat / 2 ^ 8) := by simp [be16]
  have h1 : (pre ++ be16 v ++ post).getD (pre.length + 1) 0 = UInt8.ofNat v.toNat := by simp [be16]
  rw [readU16, h0, h1, UInt8.toNat_ofNat', UInt8.toNat_ofNat']
  apply UInt16.toNat_inj.1
  rw [UInt16.toNat_ofNat']
  omega

theorem readU32_be32 (pre post : List UInt8) (v : UInt32) : readU32 (pre ++ be32 v ++ post) pre.length = v := by
  have hv := v.toNat_lt
  have h0 : (pre ++ be32 v ++ post).getD pre.length 0 = UInt8.ofNat (v.toNat / 2 ^ 24) := by simp [be32]
  have h1 : (pre ++ be32 v ++ post).getD (pre.length + 1) 0 = UInt8.ofNat (v.toNat / 2 ^ 16) := by simp [be32]
  have h2 : (pre ++ be32 v ++ post).getD (pre.length + 2) 0 = UInt8.ofNat (v.toNat / 2 ^ 8) := by simp [be32]
  have h3 : (pre ++ be32 v ++ post).getD (pre.length + 3) 0 = UInt8.ofNat v.toNat := by simp [be32]
  rw [readU32, h0, h1, h2, h3, UInt8.toNat_ofNat', UInt8.toNat_ofNat', UInt8.toNat_ofNat', UInt8.toNat_ofNat']
  apply UInt32.toNat_inj.1
  rw [UInt32.toNat_ofNat']
  omega

/-- Setting a field that was appended empty. -/
theorem setU16_be16 (pre post : List UInt8) (v w : UInt16) (h : pre.length + 1 < maxPacketSize) :
    setU16 (pre ++ be16 v ++ post) pre.length w = pre ++ be16 w ++ post := by
  rw [setU16, if_neg (Nat.not_le.2 h), List.append_assoc, List.append_assoc, List.set_append_right _ _ (Nat.le_refl _),
    List.set_append_right _ _ (Nat.le_succ _), Nat.sub_self, Nat.succ_sub (Nat.le_refl _), Nat.sub_self]
  rfl

/-- A string and its length byte. -/
def stringBytes (s : CString) : List UInt8 := UInt8.ofNat (strlen s) :: s.val

@[simp] theorem length_stringBytes (s : CString) : (stringBytes s).length = strlen s + 1 := rfl

/-- A string of up to 254 bytes is appended whole when the packet has room. The
length of one of 255 bytes comes back as 0, which callers take for an error. -/
theorem appendString_of_lt {s : CString} (hs : strlen s < 256) :
    appendString s packet =
      if packet.length + strlen s + 1 < maxPacketSize then (packet ++ stringBytes s, (strlen s + 1) % 2 ^ 8)
      else (packet, 0) := by
  have hl : strlen s % 2 ^ 8 = strlen s := Nat.mod_eq_of_lt hs
  rw [appendString, hl]
  by_cases h : packet.length + strlen s + 1 < maxPacketSize
  · have ht : s.val.take (strlen s) = s.val := List.take_length
    rw [if_pos h, if_neg (Nat.not_le.2 h), appendU8_of_lt (by omega), ht, List.append_assoc]
    rfl
  · rw [if_neg h, if_pos (Nat.not_lt.1 h)]

end Bytes

end Esp8266Sdk.Mdns
