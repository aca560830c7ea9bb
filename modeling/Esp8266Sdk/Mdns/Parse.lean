import Esp8266Sdk.Mdns.Txt

/-! What a receiver makes of the data of a TXT record: length-prefixed strings, counted
in one pass and stored in a second one. The second pass steps over the `'='` of an item
also where there is none, and is in step with the first as long as there is one. -/

namespace Esp8266Sdk.Mdns

/-- Strings, each behind its length byte. -/
def frame (chunks : List (List UInt8)) : List UInt8 := chunks.flatMap fun c => UInt8.ofNat c.length :: c

@[simp] theorem frame_nil : frame [] = [] := rfl

@[simp] theorem frame_cons (c : List UInt8) (chunks : List (List UInt8)) :
    frame (c :: chunks) = UInt8.ofNat c.length :: (c ++ frame chunks) := rfl

/-- A string that a length byte can announce. The length 0 ends the data. -/
def Chunk (c : List UInt8) : Prop := c ≠ [] ∧ c.length < 256

theorem Chunk.ofNat_ne {c : List UInt8} (h : Chunk c) : UInt8.ofNat c.length ≠ 0 := by
  intro e
  have hl := congrArg UInt8.toNat e
  rw [UInt8.toNat_ofNat_of_lt' h.2] at hl
  exact h.1 (List.length_eq_zero_iff.1 hl)

/-- The data holds the strings, and ends behind them or goes on with a length of 0. -/
def Framed (data : List UInt8) (chunks : List (List UInt8)) : Prop :=
  (∀ c ∈ chunks, Chunk c) ∧ ∃ tail, (tail = [] ∨ tail.head? = some 0) ∧ data = frame chunks ++ tail

theorem framed_frame {chunks : List (List UInt8)} (h : ∀ c ∈ chunks, Chunk c) : Framed (frame chunks) chunks :=
  ⟨h, [], Or.inl rfl, (List.append_nil _).symm⟩

section Count

variable {c data tail : List UInt8} {chunks : List (List UInt8)}

theorem countItems_cons (h : Chunk c) : countItems (UInt8.ofNat c.length :: (c ++ tail)) = (countItems tail).map (· + 1) := by
  rw [countItems, if_neg h.ofNat_ne, UInt8.toNat_ofNat_of_lt' h.2, if_neg (by simp), List.drop_left]

theorem countItems_end (h : tail = [] ∨ tail.head? = some 0) : countItems tail = some 0 := by
  rcases h with rfl | h
  · rw [countItems]
  · obtain ⟨rest, rfl⟩ := List.head?_eq_some_iff.1 h
    rw [countItems, if_pos rfl]

theorem countItems_framed (h : Framed data chunks) : countItems data = some chunks.length := by
  obtain ⟨hc, tail, ht, rfl⟩ := h
  induction chunks with
  | nil => exact countItems_end ht
  | cons c chunks ih =>
    rw [frame_cons, List.cons_append, List.append_assoc, countItems_cons (hc c (List.mem_cons_self ..)),
      ih fun d hd => hc d (List.mem_cons_of_mem _ hd)]
    rfl

/-- Data that is counted holds as many strings. -/
theorem framed_of_countItems {k : ℕ} (h : countItems data = some k) : ∃ chunks, Framed data chunks ∧ chunks.length = k := by
  fun_induction countItems data generalizing k with
  | case1 => exact ⟨[], framed_frame (by simp), by simpa using h⟩
  | case2 rest => exact ⟨[], ⟨by simp, 0 :: rest, Or.inr rfl, rfl⟩, by simpa using h⟩
  | case3 n rest h0 hr => exact absurd h (by simp)
  | case4 n rest h0 hr ih =>
    obtain ⟨k, hk, rfl⟩ := Option.map_eq_some_iff.1 h
    obtain ⟨chunks, ⟨hc, tail, ht, hd⟩, rfl⟩ := ih hk
    have hlen : (rest.take n.toNat).length = n.toNat := List.length_take_of_le (Nat.not_lt.1 hr)
    have hn : UInt8.ofNat (rest.take n.toNat).length = n := by rw [hlen, UInt8.ofNat_toNat]
    have hchunk : Chunk (rest.take n.toNat) := by
      refine ⟨fun e => h0 ?_, hlen.trans_lt n.toNat_lt⟩
      rw [e] at hn
      exact hn.symm
    refine ⟨rest.take n.toNat :: chunks, ⟨List.forall_mem_cons.2 ⟨hchunk, hc⟩, tail, ht, ?_⟩, rfl⟩
    rw [frame_cons, hn, List.cons_append, List.append_assoc, ← hd, List.take_append_drop]

end Count

section Create

variable {c data tail : List UInt8} {chunks : List (List UInt8)}

/-- What an item is read as: nothing without a name, else the name and the value behind the `'='`. -/
def entry (c : List UInt8) : Option ResultItem :=
  (txtItemNameGetLen c).map fun nameLen =>
    ⟨cstr (c.take nameLen), if nameLen + 1 < c.length then some (cstr (c.drop (nameLen + 1))) else none⟩

/-- An item with an `'='` is stored, or left out when it has no name, and the next is read behind it. -/
theorem createItems_cons (h : Chunk c) (he : equals ∈ c) :
    createItems (UInt8.ofNat c.length :: (c ++ tail)) =
      ((entry c).toList ++ (createItems tail).1, (createItems tail).2) := by
  have hlt : c.idxOf equals < c.length := List.idxOf_lt_length_iff.2 he
  rw [createItems, if_neg h.ofNat_ne, UInt8.toNat_ofNat_of_lt' h.2, if_neg (by simp), List.take_left, entry]
  cases hn : txtItemNameGetLen c with
  | none => simp
  | some nameLen =>
    have hname : nameLen < c.length := by
      rw [txtItemNameGetLen] at hn
      split at hn
      · exact absurd hn (by simp)
      · rwa [← Option.some.inj hn]
    have hd : (c ++ tail).drop (nameLen + 1) = c.drop (nameLen + 1) ++ tail := List.drop_append_of_le_length hname
    have hl : (c.drop (nameLen + 1)).length = c.length - nameLen - 1 := by rw [List.length_drop, Nat.sub_add_eq]
    have hk : (c ++ tail).take nameLen = c.take nameLen := List.take_append_of_le_length hname.le
    have hv : (0 < c.length - nameLen - 1) = (nameLen + 1 < c.length) := propext (by omega)
    simp only [hd, hk, List.take_left' hl, List.drop_left' hl, hv, Option.map_some, Option.toList_some, List.singleton_append]

theorem createItems_end (h : tail = [] ∨ tail.head? = some 0) : createItems tail = ([], true) := by
  rcases h with rfl | h
  · rw [createItems]
  · obtain ⟨rest, rfl⟩ := List.head?_eq_some_iff.1 h
    rw [createItems, if_pos rfl]

theorem txtItemNameGetLen_of_not_mem (he : equals ∉ c) : txtItemNameGetLen c = some c.length := by
  have hh : c.head? ≠ some equals := fun e => he (List.mem_of_head? e)
  rw [txtItemNameGetLen, if_neg hh, List.idxOf_eq_length he]

/-- An item without an `'='` is stored, and the byte behind it skipped. -/
theorem createItems_skip (h : Chunk c) (he : equals ∉ c) :
    createItems (UInt8.ofNat c.length :: (c ++ tail)) =
      (⟨cstr c, none⟩ :: (createItems (tail.drop 1)).1, (createItems (tail.drop 1)).2) := by
  have hd : (c ++ tail).drop (c.length + 1) = tail.drop 1 := by
    rw [List.drop_append, List.drop_eq_nil_of_le (Nat.le_succ _), Nat.add_sub_cancel_left, List.nil_append]
  rw [createItems, if_neg h.ofNat_ne, UInt8.toNat_ofNat_of_lt' h.2, if_neg (by simp), List.take_left,
    txtItemNameGetLen_of_not_mem he]
  simp [hd]

/-- Both passes are in step while every item has an `'='`, save a last one that ends the data. -/
def InStep (data : List UInt8) (chunks : List (List UInt8)) : Prop :=
  (∀ c ∈ chunks.dropLast, equals ∈ c) ∧ ((∀ c ∈ chunks, equals ∈ c) ∨ data = frame chunks)

theorem entry_of_not_mem (he : equals ∉ c) : entry c = some ⟨cstr c, none⟩ := by
  rw [entry, txtItemNameGetLen_of_not_mem he, Option.map_some, List.take_length, if_neg (by omega)]

theorem createItems_valued (hc : ∀ c ∈ chunks, Chunk c) (he : ∀ c ∈ chunks, equals ∈ c) (tail : List UInt8) :
    createItems (frame chunks ++ tail) = (chunks.filterMap entry ++ (createItems tail).1, (createItems tail).2) := by
  induction chunks with
  | nil => rfl
  | cons c chunks ih =>
    have ih := ih (fun d hd => hc d (List.mem_cons_of_mem _ hd)) fun d hd => he d (List.mem_cons_of_mem _ hd)
    rw [frame_cons, List.cons_append, List.append_assoc, createItems_cons (hc c (List.mem_cons_self ..)) (he c (List.mem_cons_self ..)),
      ih, List.filterMap_cons]
    cases entry c <;> rfl

theorem createItems_inStep (h : Framed data chunks) (hi : InStep data chunks) :
    createItems data = (chunks.filterMap entry, true) := by
  obtain ⟨hc, tail, ht, hd⟩ := h
  obtain ⟨hinit, hall | hend⟩ := hi
  · rw [hd, createItems_valued hc hall, createItems_end ht, List.append_nil]
  · rcases List.eq_nil_or_concat' chunks with rfl | ⟨init, c, rfl⟩
    · rw [hend, frame_nil, createItems_end (Or.inl rfl)]
      rfl
    · rw [List.dropLast_concat] at hinit
      have hci : ∀ d ∈ init, Chunk d := fun d hd => hc d (List.mem_append_left _ hd)
      have hcc : Chunk c := hc c (List.mem_append_right _ (List.mem_singleton_self c))
      have hframe : frame (init ++ [c]) = frame init ++ (UInt8.ofNat c.length :: (c ++ [])) := by simp [frame]
      have hlast : createItems (UInt8.ofNat c.length :: (c ++ [])) = ([c].filterMap entry, true) := by
        by_cases he : equals ∈ c
        · rw [createItems_cons hcc he, createItems_end (Or.inl rfl), List.filterMap_cons]
          cases entry c <;> rfl
        · rw [createItems_skip hcc he, List.drop_nil, createItems_end (Or.inl rfl), List.filterMap_cons,
            entry_of_not_mem he]
          rfl
      rw [hend, hframe, createItems_valued hci hinit, hlast, List.filterMap_append]

/-- The data of a record whose first item has no `'='` and whose second holds a list of items. -/
def nested (c : List UInt8) (chunks : List (List UInt8)) : List UInt8 := frame [c, frame chunks]

theorem createItems_nested (h : Chunk c) (he : equals ∉ c) (hc : ∀ d ∈ chunks, Chunk d) (hi : InStep (frame chunks) chunks) :
    createItems (nested c chunks) = (⟨cstr c, none⟩ :: chunks.filterMap entry, true) := by
  rw [nested, frame_cons, createItems_skip h he, frame_cons, List.drop_one, List.tail_cons, frame_nil, List.append_nil,
    createItems_inStep (framed_frame hc) hi]

theorem txtItemsCountGet_nested (h : Chunk c) (hf : Chunk (frame chunks)) : txtItemsCountGet (nested c chunks) = some 2 := by
  have hn : Framed (nested c chunks) [c, frame chunks] := framed_frame (by simp [h, hf])
  have h1 : (nested c chunks).length ≠ 1 := by simp [nested]
  rw [txtItemsCountGet, if_neg h1, countItems_framed hn]
  rfl

end Create

/-- The items stored are no more than the items counted, for which the array is
allocated, and are those of the data, whenever every item has an `'='`, save a last
one that ends the data. Where an item without one stands first, the items inside the
next one are stored, however many they are, in an array of two. -/
theorem createItems_bounds :
    (∀ data k, data.length ≠ 1 → txtItemsCountGet data = some k → ∃ chunks, Framed data chunks ∧ chunks.length = k ∧
      (InStep data chunks → createItems data = (chunks.filterMap entry, true) ∧ (createItems data).1.length ≤ k)) ∧
    (∀ c chunks, Chunk c → equals ∉ c → (∀ d ∈ chunks, Chunk d) → Chunk (frame chunks) → InStep (frame chunks) chunks →
      txtItemsCountGet (nested c chunks) = some 2 ∧
      createItems (nested c chunks) = (⟨cstr c, none⟩ :: chunks.filterMap entry, true)) := by
  refine ⟨fun data k h1 hk => ?_, fun c chunks h he hc hf hi => ⟨txtItemsCountGet_nested h hf, createItems_nested h he hc hi⟩⟩
  rw [txtItemsCountGet, if_neg h1] at hk
  obtain ⟨chunks, hf, rfl⟩ := framed_of_countItems hk
  refine ⟨chunks, hf, rfl, fun hi => ?_⟩
  rw [createItems_inStep hf hi]
  exact ⟨rfl, List.length_filterMap_le _ _⟩

theorem createItems_bounds_four :
    txtItemsCountGet (nested [97] [[98, 61], [99, 61], [100, 61]]) = some 2 ∧
      (createItems (nested [97] [[98, 61], [99, 61], [100, 61]])).1.length = 4 := by
  have hc : ∀ d ∈ [[98, 61], [99, 61], [100, (61 : UInt8)]], Chunk d := by simp [Chunk]
  have he : ∀ d ∈ [[98, 61], [99, 61], [100, (61 : UInt8)]], equals ∈ d := by simp [equals]
  have h := createItems_bounds.2 [97] [[98, 61], [99, 61], [100, 61]] (by simp [Chunk]) (by decide) hc (by simp [Chunk])
    ⟨fun d hd => he d (List.mem_of_mem_dropLast hd), Or.inl he⟩
  refine ⟨h.1, ?_⟩
  rw [h.2]
  decide

section RoundTrip

variable {txt : List TxtItem}

/-- `mdns_parse_packet` on a TXT record behind its name: type, class, time to live and items. -/
structure TxtRecord where
  type : UInt16
  clas : UInt16
  ttl : UInt32
  items : List ResultItem
  deriving DecidableEq

/-- none when the data runs over the end of the packet -/
def readTxtRecord (content : List UInt8) : Option TxtRecord :=
  let type := readU16 content 0
  let clas := readU16 content 2 &&& 0x7FFF
  let ttl := readU32 content 4
  let dataLen := (readU16 content 8).toNat
  let data := content.drop 10
  if data.length < dataLen then none else some ⟨type, clas, ttl, resultTxtCreate (data.take dataLen)⟩

/-- An item with a name, which ends at the first `'='`. -/
def Named (txt : List TxtItem) : Prop := ∀ item ∈ txt, item.key.val ≠ [] ∧ equals ∉ item.key.val

/-- What a receiver reads for an item. -/
def TxtItem.result (item : TxtItem) : ResultItem := ⟨item.key, if item.value.val = [] then none else some item.value⟩

theorem txtBytes_eq_frame (txt : List TxtItem) : txtBytes txt = frame (txt.map fun item => item.text.val) := by
  rw [frame, List.flatMap_map]
  rfl

theorem chunk_text {item : TxtItem} (h : strlen item.text < 256) : Chunk item.text.val :=
  ⟨List.append_ne_nil_of_right_ne_nil _ (List.cons_ne_nil _ _), h⟩

theorem entry_text {item : TxtItem} (hne : item.key.val ≠ []) (hk : equals ∉ item.key.val) :
    entry item.text.val = some item.result := by
  have htext : item.text.val = item.key.val ++ equals :: item.value.val := rfl
  have hh : item.text.val.head? ≠ some equals := by
    rw [htext, List.head?_append_of_ne_nil _ hne]
    exact fun e => hk (List.mem_of_head? e)
  have hi : item.text.val.idxOf equals = item.key.val.length := by
    rw [htext, List.idxOf_append_of_notMem hk, List.idxOf_cons_self, Nat.add_zero]
  have hd : item.text.val.drop (item.key.val.length + 1) = item.value.val := by rw [htext]; simp
  have hl : (item.key.val.length + 1 < item.text.val.length) = (item.value.val ≠ []) := by
    rw [htext, List.length_append, List.length_cons, ← List.length_pos_iff]
    exact propext (by omega)
  have ht : item.text.val.take item.key.val.length = item.key.val := by rw [htext, List.take_left]
  rw [entry, txtItemNameGetLen, if_neg hh, hi, Option.map_some, ht, hd, cstr_val, cstr_val, TxtItem.result]
  simp only [hl, ite_not]

theorem resultTxtCreate_txtBytes (hs : Short txt) (hn : Named txt) : resultTxtCreate (txtBytes txt) = txt.map TxtItem.result := by
  by_cases he : txt = []
  · subst he
    simp [resultTxtCreate, txtItemsCountGet, txtBytes, countItems]
  · have hc : ∀ c ∈ txt.map fun item => item.text.val, Chunk c := List.forall_mem_map.2 fun item hm => chunk_text (hs item hm)
    have heq : ∀ c ∈ txt.map fun item => item.text.val, equals ∈ c :=
      List.forall_mem_map.2 fun item _ => List.mem_append_right _ (List.mem_cons_self ..)
    have hf := framed_frame hc
    have hcreate := createItems_inStep hf ⟨fun c h => heq c (List.mem_of_mem_dropLast h), Or.inl heq⟩
    have hcount := countItems_framed hf
    rw [← txtBytes_eq_frame] at hcreate hcount
    have hmap : (txt.map fun item => item.text.val).filterMap entry = txt.map TxtItem.result := by
      rw [List.filterMap_map, ← List.filterMap_eq_map]
      exact List.filterMap_congr fun item hm => entry_text (hn item hm).1 (hn item hm).2
    have h1 : (txtBytes txt).length ≠ 1 := by
      have h2 := two_le_txtBytes he
      omega
    obtain ⟨k, hk⟩ := Nat.exists_eq_succ_of_ne_zero (List.length_pos_iff.2 he).ne'
    rw [List.length_map, hk] at hcount
    rw [resultTxtCreate, txtItemsCountGet, if_neg h1, hcount, hcreate, hmap]
    rfl

theorem class_mask (flush : Bool) : (if flush then classInFlushCache else classIn) &&& 0x7FFF = classIn := by
  revert flush
  decide

theorem readTxtRecord_recordBytes (hs : Short txt) (hn : Named txt) (hl : (txtBytes txt).length < 2 ^ 16) (flush bye : Bool)
    (rest : List UInt8) :
    readTxtRecord (recordBytes txt flush bye ++ rest) =
      some ⟨Answer.txt.type, classIn, if bye then 0 else answerTxtTtl, txt.map TxtItem.result⟩ := by
  let data := if txt = [] then [0] else txtBytes txt
  have hdl : data.length < 2 ^ 16 := by
    simp only [data]
    split
    · decide
    · exact hl
  let clas := if flush then classInFlushCache else classIn
  let ttl := if bye then 0 else answerTxtTtl
  let n := UInt16.ofNat data.length
  have hn16 : n.toNat = data.length := by rw [UInt16.toNat_ofNat', Nat.mod_eq_of_lt hdl]
  have hrec : recordBytes txt flush bye ++ rest = be16 Answer.txt.type ++ be16 clas ++ be32 ttl ++ be16 n ++ (data ++ rest) := by
    simp only [recordBytes, typeBytes, clas, ttl, n, data, List.append_assoc]
  have htype : readU16 (recordBytes txt flush bye ++ rest) 0 = Answer.txt.type := by
    rw [hrec]
    simp only [List.append_assoc]
    exact readU16_be16 [] _ _
  have hclas : readU16 (recordBytes txt flush bye ++ rest) 2 = clas := by
    rw [hrec]
    simp only [List.append_assoc (be16 Answer.txt.type ++ be16 clas)]
    exact readU16_be16 (be16 Answer.txt.type) _ _
  have httl : readU32 (recordBytes txt flush bye ++ rest) 4 = ttl := by
    rw [hrec]
    simp only [List.append_assoc (be16 Answer.txt.type ++ be16 clas ++ be32 ttl)]
    exact readU32_be32 (be16 Answer.txt.type ++ be16 clas) _ _
  have hlen : readU16 (recordBytes txt flush bye ++ rest) 8 = n := by
    rw [hrec]
    exact readU16_be16 (be16 Answer.txt.type ++ be16 clas ++ be32 ttl) _ _
  have hdata : (recordBytes txt flush bye ++ rest).drop 10 = data ++ rest := by
    rw [hrec]
    rfl
  have hclass : clas &&& 0x7FFF = classIn := class_mask flush
  have hitems : resultTxtCreate data = txt.map TxtItem.result := by
    simp only [data]
    split
    case isTrue he =>
      subst he
      rfl
    case isFalse => exact resultTxtCreate_txtBytes hs hn
  rw [readTxtRecord, htype, hclas, httl, hlen, hdata, hclass, hn16]
  rw [if_neg (by simp), List.take_left, hitems]

theorem txtBytes_reverse_length (txt : List TxtItem) : (txtBytes txt.reverse).length = (txtBytes txt).length := by
  rw [txtBytes, txtBytes, List.length_flatMap, List.length_flatMap, List.map_reverse, List.sum_reverse]

/-- Items whose names are not empty and hold no `'='` reach a receiver as they were
given, in the reverse order, an empty value as NULL; whatever stands before and
behind the record. The record is refused exactly when there is no room or an item is
255 bytes long. -/
theorem txt_roundTrip (txt : List TxtItem) (flush bye : Bool) (packet : List UInt8) (hs : Short txt) (hn : Named txt) :
    ((appendTxtRecord (allocateTxt txt) flush bye packet).2 ≠ 0 ↔
      packet.length + 10 < maxPacketSize ∧ Writable txt (packet.length + 10)) ∧
    ((appendTxtRecord (allocateTxt txt) flush bye packet).2 ≠ 0 → ∃ record,
      (appendTxtRecord (allocateTxt txt) flush bye packet).1 = packet ++ record ∧ ∀ rest,
        readTxtRecord (record ++ rest) =
          some ⟨Answer.txt.type, classIn, if bye then 0 else answerTxtTtl, (txt.map TxtItem.result).reverse⟩) := by
  have hsr : Short txt.reverse := fun item hm => hs item (List.mem_reverse.1 hm)
  have hnr : Named txt.reverse := fun item hm => hn item (List.mem_reverse.1 hm)
  have hw : Writable txt.reverse (packet.length + 10) ↔ Writable txt (packet.length + 10) := by
    simp only [Writable, List.mem_reverse, List.reverse_eq_nil_iff, txtBytes_reverse_length]
  rw [allocateTxt_eq, appendTxtRecord_ne_zero hsr, hw]
  refine ⟨Iff.rfl, fun h => ?_⟩
  have hlen : (txtBytes txt.reverse).length < 2 ^ 16 := by
    rcases (hw.2 h.2).2 with he | hr
    · rw [he]
      decide
    · exact lt_of_le_of_lt (Nat.le_add_left _ _) (hr.trans (by decide))
  refine ⟨_, congrArg Prod.fst (appendTxtRecord_of_writable hsr h.1 (hw.2 h.2)), fun rest => ?_⟩
  rw [readTxtRecord_recordBytes hsr hnr hlen, List.map_reverse]

theorem txt_roundTrip_two : ∃ record,
    (appendTxtRecord (allocateTxt [⟨cstr [97], cstr [98]⟩, ⟨cstr [99], cstr []⟩]) true false [0]).1 = [0] ++ record ∧
      readTxtRecord (record ++ [0]) =
        some ⟨0x10, 1, 4500, [⟨cstr [99], none⟩, ⟨cstr [97], some (cstr [98])⟩]⟩ := by
  have hs : Short [⟨cstr [97], cstr [98]⟩, ⟨cstr [99], cstr []⟩] := by
    rw [Short, List.forall_mem_cons, List.forall_mem_singleton]
    decide
  have hn : Named [⟨cstr [97], cstr [98]⟩, ⟨cstr [99], cstr []⟩] := by
    rw [Named, List.forall_mem_cons, List.forall_mem_singleton]
    decide
  have hw : Writable [⟨cstr [97], cstr [98]⟩, ⟨cstr [99], cstr []⟩] (1 + 10) := by
    rw [Writable, List.forall_mem_cons, List.forall_mem_singleton]
    exact ⟨by decide, Or.inr (by decide)⟩
  have h := txt_roundTrip _ true false [0] hs hn
  obtain ⟨record, hr, hread⟩ := h.2 (h.1.2 ⟨by decide, hw⟩)
  exact ⟨record, hr, hread [0]⟩

end RoundTrip

end Esp8266Sdk.Mdns
