import Esp8266Sdk.Mdns.Packet

/-! TXT records of `mdns.c`: how a service's items are written into an answer, and
what a receiver makes of the data of a record. -/

namespace Esp8266Sdk.Mdns

section Source

/-- `'='` -/
def equals : UInt8 := 61

/-- `mdns_txt_linked_item_t` -/
structure TxtItem where
  key : CString
  value : CString
  deriving DecidableEq

theorem not_mem_text (item : TxtItem) : 0 ∉ item.key.val ++ equals :: item.value.val := by
  simp only [List.mem_append, List.mem_cons, not_or]
  exact ⟨item.key.2, by decide, item.value.2⟩

/-- `sprintf(tmp, "%s=%s", txt->key, txt->value)` -/
def TxtItem.text (item : TxtItem) : CString := ⟨item.key.val ++ equals :: item.value.val, not_mem_text item⟩

/-- `_mdns_allocate_txt`. Each new item goes to the front of the list. -/
def allocateTxt (txt : List TxtItem) : List TxtItem :=
  txt.foldl (fun newTxt item => item :: newTxt) []

/-- `MDNS_ANSWER_TXT_TTL` -/
def answerTxtTtl : UInt32 := 4500

/-- The loop over the items in `_mdns_append_txt_record`, with `data_len`; none is its `return 0`. -/
def appendItems : List TxtItem → List UInt8 → ℕ → List UInt8 × Option ℕ
  | [], packet, dataLen => (packet, some dataLen)
  | item :: txt, packet, dataLen =>
    let r := appendString item.text packet
    if r.2 = 0 then (r.1, none) else appendItems txt r.1 (dataLen + r.2)

/-- `_mdns_append_txt_record`, once the name of the record is written, whose length it adds. -/
def appendTxtRecord (txt : List TxtItem) (flush bye : Bool) (packet : List UInt8) : List UInt8 × ℕ :=
  let r := appendType .txt flush (if bye then 0 else answerTxtTtl) packet
  if r.2 = 0 then (r.1, 0) else
    let dataLenLocation := r.1.length - 2
    match appendItems txt r.1 0 with
    | (packet, none) => (packet, 0)
    | (packet, some dataLen) =>
      if dataLen = 0 then (setU16 (packet ++ [0]) dataLenLocation 1, 10 + 1)
      else (setU16 packet dataLenLocation (UInt16.ofNat dataLen), 10 + dataLen)

/-- The loop of `_mdns_txt_items_count_get`, over the data from `i` on; none is -1. -/
def countItems : List UInt8 → Option ℕ
  | [] => some 0
  | n :: rest =>
    if n = 0 then some 0
    else if rest.length < n.toNat then none
    else (countItems (rest.drop n.toNat)).map (· + 1)
  termination_by data => data.length
  decreasing_by simp only [List.length_drop, List.length_cons]; omega

/-- `_mdns_txt_items_count_get` -/
def txtItemsCountGet (data : List UInt8) : Option ℕ :=
  if data.length = 1 then some 0 else countItems data

/-- `_mdns_txt_item_name_get_len`; none is -1. -/
def txtItemNameGetLen (item : List UInt8) : Option ℕ :=
  if item.head? = some equals then none else some (item.idxOf equals)

/-- `mdns_txt_item_t`. The value is NULL when it is empty. -/
structure ResultItem where
  key : CString
  value : Option CString
  deriving DecidableEq

/-- The loop of `_mdns_result_txt_create` over the data from `i` on: the items it
stores in the array, and whether it reaches the end. -/
def createItems : List UInt8 → List ResultItem × Bool
  | [] => ([], true)
  | n :: rest =>
    if n = 0 then ([], true)
    else if rest.length < n.toNat then ([], false)
    else match txtItemNameGetLen (rest.take n.toNat) with
      | none => createItems (rest.drop n.toNat)
      | some nameLen =>
        let valueLen := n.toNat - nameLen - 1
        let rest' := rest.drop (nameLen + 1)
        let value := if 0 < valueLen then some (cstr (rest'.take valueLen)) else none
        let r := createItems (rest'.drop valueLen)
        (⟨cstr (rest.take nameLen), value⟩ :: r.1, r.2)
  termination_by data => data.length
  decreasing_by all_goals simp only [List.length_drop, List.length_cons]; omega

/-- `_mdns_result_txt_create` -/
def resultTxtCreate (data : List UInt8) : List ResultItem :=
  match txtItemsCountGet data with
  | none => []
  | some 0 => []
  | some (_ + 1) => if (createItems data).2 then (createItems data).1 else []

end Source

section Written

variable {packet : List UInt8} {txt : List TxtItem}

theorem allocateTxt_eq (txt : List TxtItem) : allocateTxt txt = txt.reverse := by
  rw [allocateTxt, List.foldl_flip_cons_eq_append', List.append_nil]

/-- The data of a TXT record. -/
def txtBytes (txt : List TxtItem) : List UInt8 := txt.flatMap fun item => stringBytes item.text

@[simp] theorem txtBytes_cons (item : TxtItem) (txt : List TxtItem) :
    txtBytes (item :: txt) = stringBytes item.text ++ txtBytes txt := rfl

theorem strlen_text (item : TxtItem) : strlen item.text = strlen item.key + strlen item.value + 1 := by
  change (item.key.val ++ equals :: item.value.val).length = _
  rw [List.length_append, List.length_cons]
  rfl

/-- Every item fits a length byte. -/
def Short (txt : List TxtItem) : Prop := ∀ item ∈ txt, strlen item.text < 256

/-- The condition under which the items are written behind `index` bytes: none of 255
bytes, and room for all of them. -/
def Writable (txt : List TxtItem) (index : ℕ) : Prop :=
  (∀ item ∈ txt, strlen item.text ≠ 255) ∧ (txt = [] ∨ index + (txtBytes txt).length < maxPacketSize)

theorem appendItems_eq (hs : Short txt) (hw : Writable txt packet.length) (dataLen : ℕ) :
    appendItems txt packet dataLen = (packet ++ txtBytes txt, some (dataLen + (txtBytes txt).length)) := by
  induction txt generalizing packet dataLen with
  | nil => simp [appendItems, txtBytes]
  | cons item txt ih =>
    have hi := hs item (List.mem_cons_self ..)
    have h255 := hw.1 item (List.mem_cons_self ..)
    have hroom := hw.2.resolve_left (List.cons_ne_nil _ _)
    rw [txtBytes_cons, List.length_append, length_stringBytes] at hroom
    have hr : appendString item.text packet = (packet ++ stringBytes item.text, strlen item.text + 1) := by
      rw [appendString_of_lt hi, if_pos (by omega), Nat.mod_eq_of_lt (by omega)]
    have hw' : Writable txt (packet ++ stringBytes item.text).length := by
      refine ⟨fun i hm => hw.1 i (List.mem_cons_of_mem _ hm), Or.inr ?_⟩
      rw [List.length_append, length_stringBytes]
      omega
    rw [appendItems, hr]
    simp only
    rw [if_neg (Nat.succ_ne_zero _), ih (fun i hm => hs i (List.mem_cons_of_mem _ hm)) hw', txtBytes_cons,
      List.append_assoc, List.length_append, length_stringBytes, Nat.add_assoc dataLen]

theorem writable_of_appendItems (hs : Short txt) {dataLen : ℕ} (h : (appendItems txt packet dataLen).2 ≠ none) :
    Writable txt packet.length := by
  induction txt generalizing packet dataLen with
  | nil => exact ⟨by simp, Or.inl rfl⟩
  | cons item txt ih =>
    have hi := hs item (List.mem_cons_self ..)
    rw [appendItems] at h
    split at h
    case isTrue => exact absurd rfl h
    case isFalse h0 =>
      rw [appendString_of_lt hi] at h h0
      split at h0
      case isFalse => exact absurd rfl h0
      case isTrue hroom =>
        rw [if_pos hroom] at h
        have h255 : strlen item.text ≠ 255 := fun e => h0 (by simp only [e]; rfl)
        have hw := ih (fun i hm => hs i (List.mem_cons_of_mem _ hm)) h
        refine ⟨List.forall_mem_cons.2 ⟨h255, hw.1⟩, Or.inr ?_⟩
        rw [txtBytes_cons, List.length_append, length_stringBytes]
        rcases hw.2 with rfl | hr
        · simpa [txtBytes, Nat.add_assoc] using hroom
        · rw [List.length_append, length_stringBytes] at hr
          omega

/-- The record: type, class, time to live, length of the data, data. A record without
items has one byte of data, 0. -/
def recordBytes (txt : List TxtItem) (flush bye : Bool) : List UInt8 :=
  let data := if txt = [] then [0] else txtBytes txt
  typeBytes .txt flush (if bye then 0 else answerTxtTtl) ++ be16 (UInt16.ofNat data.length) ++ data

theorem two_le_txtBytes (h : txt ≠ []) : 2 ≤ (txtBytes txt).length := by
  obtain ⟨item, txt, rfl⟩ := List.exists_cons_of_ne_nil h
  rw [txtBytes_cons, List.length_append, length_stringBytes, strlen_text]
  omega

theorem length_typeBytes (type : Answer) (flush : Bool) (ttl : UInt32) : (typeBytes type flush ttl).length = 8 := rfl

theorem appendTxtRecord_of_writable {flush bye : Bool} (hs : Short txt) (h : packet.length + 10 < maxPacketSize)
    (hw : Writable txt (packet.length + 10)) :
    appendTxtRecord txt flush bye packet =
      (packet ++ recordBytes txt flush bye, 10 + if txt = [] then 1 else (txtBytes txt).length) := by
  let head := packet ++ typeBytes .txt flush (if bye then 0 else answerTxtTtl)
  have hl : head.length = packet.length + 8 := by rw [List.length_append, length_typeBytes]
  have hl2 : (head ++ be16 0).length = packet.length + 10 := by rw [List.length_append, hl, length_be16]
  have hloc : (head ++ be16 0).length - 2 = head.length := by omega
  have hmax : head.length + 1 < maxPacketSize := by omega
  have hr : appendItems txt (head ++ be16 0) 0 = (head ++ be16 0 ++ txtBytes txt, some (0 + (txtBytes txt).length)) :=
    appendItems_eq hs (by rwa [hl2]) 0
  rw [Nat.zero_add] at hr
  rw [appendTxtRecord, appendType_of_lt h]
  simp only
  rw [if_neg (by decide), show packet ++ typeBytes .txt flush (if bye then 0 else answerTxtTtl) = head from rfl, hr, hloc]
  simp only
  by_cases he : txt = []
  · subst he
    have hz : (txtBytes []).length = 0 := rfl
    rw [if_pos hz, if_pos rfl, show head ++ be16 0 ++ txtBytes [] ++ [0] = head ++ be16 0 ++ [0] by simp [txtBytes],
      setU16_be16 _ _ _ _ hmax]
    simp only [head, recordBytes, List.append_assoc]
    rfl
  · have hz : (txtBytes txt).length ≠ 0 := by
      have h2 := two_le_txtBytes he
      omega
    rw [if_neg hz, if_neg he, setU16_be16 _ _ _ _ hmax]
    simp only [head, recordBytes, if_neg he, List.append_assoc]

/-- A record is written exactly when its fixed part and its items have room and no
item is 255 bytes long. -/
theorem appendTxtRecord_ne_zero {flush bye : Bool} (hs : Short txt) :
    (appendTxtRecord txt flush bye packet).2 ≠ 0 ↔
      packet.length + 10 < maxPacketSize ∧ Writable txt (packet.length + 10) := by
  constructor
  · intro h
    by_cases hp : packet.length + 10 < maxPacketSize
    · refine ⟨hp, ?_⟩
      let head := packet ++ typeBytes .txt flush (if bye then 0 else answerTxtTtl) ++ be16 0
      have hl : head.length = packet.length + 10 := by
        rw [List.length_append, List.length_append, length_typeBytes, length_be16]
      have hne : (appendItems txt head 0).2 ≠ none := by
        intro hn
        have hr : appendItems txt head 0 = ((appendItems txt head 0).1, none) := Prod.ext rfl hn
        rw [appendTxtRecord, appendType_of_lt hp] at h
        simp only at h
        rw [if_neg (by decide), show packet ++ typeBytes .txt flush (if bye then 0 else answerTxtTtl) ++ be16 0 = head from rfl,
          hr] at h
        exact absurd rfl h
      rw [← hl]
      exact writable_of_appendItems hs hne
    · rw [appendTxtRecord, appendType, if_pos (Nat.not_lt.1 hp)] at h
      exact absurd rfl h
  · rintro ⟨hp, hw⟩
    rw [appendTxtRecord_of_writable hs hp hw]
    simp only
    omega

end Written

end Esp8266Sdk.Mdns
