import Esp8266Sdk.Nvs.Records
import Esp8266Sdk.Nvs.Api

/-! The abstract store: a log of records, without flash, entry tables or cache.
A record is found by its name; a set drops the record of its name and type and
appends the new one; erasing drops records. All that is kept of the layout is how
far the pages are filled, since that decides whether a set has room. -/

namespace Esp8266Sdk.Nvs

open Kv

structure Store where
  log : Records
  /-- The page filled at present. -/
  page : ℕ
  /-- The entries in use on it. -/
  used : ℕ

namespace Store

def empty : Store := ⟨[], 0, 0⟩

/-- Append a record that takes `n` entries. A block that would not fit the page
goes to the next one. Only the first 32 entries of a page have their states kept
in the eight table words that can be written back. -/
def put (s : Store) (depth n : ℕ) (e : Record) : Except Defect EspErr × Store :=
  if depth = 0 then (.error .stack, s)
  else if 1 ≤ n ∧ s.used + n ≤ 126 then
    (if s.used + n ≤ 32 then .ok espOk else .error .index, ⟨s.log.put e, s.page, s.used + n⟩)
  else if 1 ≤ n ∧ n ≤ 126 then (if n ≤ 32 then .ok espOk else .error .index, ⟨s.log.put e, s.page + 1, n⟩)
  else (.ok espErrNvsNoFreePages, ⟨s.log, s.page + 1, 0⟩)

def drop (s : Store) (P : Record → Prop) [DecidablePred P] : Store := ⟨s.log.drop P, s.page, s.used⟩

end Store

/-- The data area of the block of a value: the inline data, then the rest in whole slots. -/
def dataArea (data : Option (List UInt8)) (length : UInt32) : List UInt8 :=
  (dataField data length).toList ++
    (List.range (32 * ((itemSpan length).toNat - 1))).map fun x => ((payload data length).getD []).getD x 0xff

/-- The record of a value. A key is cut to 15 characters. -/
def newRecord (nsIndex datatype : UInt8) (key : List UInt8) (data : Option (List UInt8)) (length : UInt32) : Record :=
  ⟨(nsIndex, key.take 15), datatype, dataArea data length⟩

/-- What a getter answers from the record found under its name. -/
def Getter.read (g : Getter) : Option Record → Except Defect Reply
  | none => .ok (.code espErrNvsNotFound)
  | some e =>
    if e.kind ≠ g.itemType.code then .ok (.code espErrNvsTypeMismatch)
    else match g with
      | .scalar k => .ok ⟨espOk, some (e.value.take k.size), none, none⟩
      | .str none | .blob none => .ok ⟨espOk, none, some (.ofNat e.value.length), none⟩
      | .str (some length) =>
        let copyLen := min (UInt32.ofNat e.value.length) length
        match findTerminator (e.value.take copyLen.toNat) 0 with
          | some actualLen =>
            .ok ⟨espOk, some (e.value.take copyLen.toNat), some ((actualLen.map UInt32.ofNat).getD copyLen), none⟩
          | none => .error .index
      | .blob (some length) =>
        let copyLen := min (UInt32.ofNat e.value.length) length
        .ok ⟨espOk, some (e.value.take copyLen.toNat), some copyLen, none⟩

/-- The record `nvs_open` stores for a new name: every new namespace gets the index 10. -/
def registration (name : List UInt8) : Record := newRecord 0 ItemType.u8.code name (some [10]) 1

/-- The reply of `nvs_open` to the end of its `writeItem`. -/
def openReply (err : EspErr) : Reply := if err = espOk then ⟨espOk, none, none, some 10⟩ else .code 0x1101

/-- One public call on the abstract store. -/
def Store.step (depth : ℕ) (s : Store) : Call → Except Defect Reply × Store
  | .flashInit | .flashDeinit | .close _ | .commit _ => (.ok (.code espOk), s)
  | .flashErase => (.ok (.code espOk), .empty)
  | .open name =>
    if name.bytes = phyName then (.ok ⟨espOk, none, none, some 0x1234⟩, s)
    else match (s.log.lookup (0, name.bytes)).filter fun e => e.kind = ItemType.u8.code with
      | some e => (.ok ⟨espOk, none, none, some (e.value.getD 0 0).toUInt32⟩, s)
      | none =>
        let (r, s) := s.put depth 1 (registration name.bytes)
        (r.map openReply, s)
  | .get g handle key => (g.read (s.log.lookup (nsIndexOf handle, key.bytes)), s)
  | .set st handle key =>
    let (r, s) := (s.drop fun e => e.name = (nsIndexOf handle, key.bytes) ∧ e.kind = st.itemType.code).put depth
      (itemSpan st.length).toNat (newRecord (nsIndexOf handle) st.itemType.code key.bytes st.data st.length)
    (r.map .code, s)
  | .eraseKey handle key => (.ok (.code espOk), s.drop fun e => e.name = (nsIndexOf handle, key.bytes))
  | .eraseAll handle => (.ok (.code espOk), s.drop fun e => e.name.1 = nsIndexOf handle)

end Esp8266Sdk.Nvs
