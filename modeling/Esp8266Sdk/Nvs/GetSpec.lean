import Esp8266Sdk.Nvs.FindSpec

/-! The getters as functions of the flash and of the item found: a lookup, then
reads of the item's own page. None makes a flash step. -/

namespace Esp8266Sdk.Nvs

open Nor Prog

/-- The bytes `copyOut` reads off a flash. -/
def copyAt (f : Flash) (r : Found) (copyLen : UInt32) : List UInt8 :=
  r.item.data.toList.take (min 8 copyLen).toNat ++
    if copyLen > 8 then f.read (r.pageAddr + entryDataOffset + r.entryIdx * entrySize + 32) (copyLen - 8).toNat else []

/-- What a getter gives back once `findItem` answered `r`. -/
def Getter.reply (f : Flash) (r : Found) (g : Getter) : Except Defect Reply :=
  if r.err ≠ espOk then .ok (.code r.err)
  else match g with
    | .scalar k => .ok ⟨espOk, some (r.item.data.toList.take k.size), none, none⟩
    | .str none => .ok ⟨espOk, none, some (totalCap r.item), none⟩
    | .str (some length) =>
      let copyLen := min (totalCap r.item) length
      if copyLen.toNat < 2 ^ 31 then
        match findTerminator (copyAt f r copyLen) 0 with
          | some actualLen =>
            .ok ⟨espOk, some (copyAt f r copyLen), some ((actualLen.map UInt32.ofNat).getD copyLen), none⟩
          | none => .error .index
      else .error .range
    | .blob none => .ok ⟨espOk, none, some (totalCap r.item), none⟩
    | .blob (some length) =>
      let copyLen := min (totalCap r.item) length
      .ok ⟨espOk, some (copyAt f r copyLen), some copyLen, none⟩

variable {G : NvsWorld → Op → Prop} {E : Defect → NvsWorld → Prop} {w : NvsWorld}

theorem reads_copyOut (r : Found) (copyLen : UInt32) : Reads (copyOut r copyLen) fun f => copyAt f r copyLen := by
  intro G Q E w
  rw [copyOut]
  simp only [copyAt]
  split_ifs
  · exact Iff.rfl
  · exact Iff.rfl

/-- A getter looks its key up and answers from what it finds. -/
theorem wp_getter {Q : Reply → NvsWorld → Prop} (env : Env) (g : Getter) (handle : UInt32) (key : CString) :
    wp G Q E (g.prog env handle key) w ↔
      match g.reply w.flash (lookup env w (nsIndexOf handle) g.itemType.code key.bytes 0xff).1 with
        | .ok a => Q a { w with ram := (lookup env w (nsIndexOf handle) g.itemType.code key.bytes 0xff).2 }
        | .error e => E e { w with ram := (lookup env w (nsIndexOf handle) g.itemType.code key.bytes 0xff).2 } := by
  cases g with
  | scalar k =>
    simp only [Getter.prog, Scalar.get_eq, nvsGetScalar, wp_bind, wp_findItem, Getter.itemType, Getter.reply]
    by_cases he : (lookup env w (nsIndexOf handle) k.itemType.code key.bytes 0xff).1.err = espOk
    · simp only [he, if_true, ne_eq, not_true, if_false, wp_pure]
    · simp only [he, ne_eq, not_false_eq_true, if_true, if_false, wp_pure]
  | str capacity =>
    rw [show (Getter.str capacity).itemType = .sz from rfl]
    simp only [Getter.prog, nvsGetStr, wp_bind, wp_findItem, Getter.reply]
    by_cases he : (lookup env w (nsIndexOf handle) ItemType.sz.code key.bytes 0xff).1.err = espOk
    · simp only [he, ne_eq, not_true, if_false]
      cases capacity with
      | none => exact Iff.rfl
      | some length =>
        simp only [wp_bind]
        rw [reads_copyOut]
        by_cases hlt : (min (totalCap (lookup env w (nsIndexOf handle) ItemType.sz.code key.bytes 0xff).1.item)
            length).toNat < 2 ^ 31
        · rw [if_pos hlt, if_pos hlt, wp_bind, wp_checked]
          generalize findTerminator _ 0 = o
          cases o <;> simp
        · rw [if_neg hlt, if_neg hlt, wp_fail]
    · simp only [he, ne_eq, not_false_eq_true, if_true, wp_pure]
  | blob capacity =>
    rw [show (Getter.blob capacity).itemType = .blob from rfl]
    simp only [Getter.prog, nvsGetBlob, wp_bind, wp_findItem, Getter.reply]
    by_cases he : (lookup env w (nsIndexOf handle) ItemType.blob.code key.bytes 0xff).1.err = espOk
    · simp only [he, ne_eq, not_true, if_false]
      cases capacity with
      | none => exact Iff.rfl
      | some length =>
        simp only [wp_bind]
        rw [reads_copyOut]
        exact Iff.rfl
    · simp only [he, ne_eq, not_false_eq_true, if_true, wp_pure]

/-- How a getter ends. -/
theorem run_getter (env : Env) (g : Getter) (handle : UInt32) (key : CString) (w : NvsWorld) :
    ((g.prog env handle key).run w).1 =
      g.reply w.flash (lookup env w (nsIndexOf handle) g.itemType.code key.bytes 0xff).1 := by
  refine run_fst_eq ((wp_getter env g handle key).2 ?_)
  cases g.reply w.flash (lookup env w (nsIndexOf handle) g.itemType.code key.bytes 0xff).1 <;> rfl

end Esp8266Sdk.Nvs
