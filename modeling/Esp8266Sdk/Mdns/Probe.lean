import Esp8266Sdk.Mdns.Txt

/-! Simultaneous probes of `mdns.c`. Hosts that claim one name compare their records,
each on its own; every host renames itself that finds the other's record greater. -/

namespace Esp8266Sdk.Mdns

section Source

/-- `memcmp` of two areas of one length -/
def memcmp : List UInt8 → List UInt8 → ℤ
  | a :: as, b :: bs => if a < b then -1 else if b < a then 1 else memcmp as bs
  | _, _ => 0

/-- `MDNS_DEFAULT_DOMAIN`, "local" -/
def defaultDomain : CString := cstr [108, 111, 99, 97, 108]

/-- What a host announces in the SRV record of a service. -/
structure SrvHost where
  priority : UInt16
  weight : UInt16
  port : UInt16
  hostname : CString
  deriving DecidableEq

/-- `our_data` and `their_data` of `_mdns_check_srv_collision` -/
def srvData (priority weight port : UInt16) (host domain : CString) : List UInt8 :=
  let data := (appendU16 priority []).1
  let data := (appendU16 weight data).1
  let data := (appendU16 port data).1
  data ++ [UInt8.ofNat (strlen host)] ++ host.val ++ [UInt8.ofNat (strlen domain)] ++ domain.val ++ [0]

/-- `_mdns_check_srv_collision`: -1 when we win, 1 when they win, 0 for the same record. -/
def checkSrvCollision (us : SrvHost) (priority weight port : UInt16) (host domain : CString) : ℤ :=
  if us.hostname.val = [] then 0 else
    let ourLen := 14 + strlen us.hostname
    let theirLen := 9 + strlen host + strlen domain
    if ourLen < theirLen then 1
    else if theirLen < ourLen then -1
    else
      let ret := memcmp (srvData us.priority us.weight us.port us.hostname defaultDomain)
        (srvData priority weight port host domain)
      if 0 < ret then -1 else if ret < 0 then 1 else 0

/-- The length `_mdns_check_txt_collision` expects of its own data. It starts at 1 and
counts the first item once for every item. -/
def expectedLen : List TxtItem → ℕ
  | [] => 1
  | first :: txt => (first :: txt).foldl (fun dataLen _ => dataLen + (2 + strlen first.key + strlen first.value)) 1

/-- The loop of `_mdns_check_txt_collision` that fills `ours` -/
def appendOurs (txt : List TxtItem) : List UInt8 :=
  txt.foldl (fun ours item => (appendString item.text ours).1) []

/-- `_mdns_check_txt_collision`. What the loop leaves of the array `ours` is `stale`;
what it writes behind the array is not compared. -/
def checkTxtCollision (txt : List TxtItem) (data stale : List UInt8) : ℤ :=
  let len := data.length
  if len = 1 ∧ txt ≠ [] then -1
  else if 1 < len ∧ txt = [] then 1
  else if len = 1 ∧ txt = [] then 0
  else if expectedLen txt < len then 1
  else if len < expectedLen txt then -1
  else
    let ret := memcmp ((appendOurs txt ++ stale).take len) data
    if 0 < ret then -1 else if ret < 0 then 1 else 0

end Source

section Order

theorem memcmp_eq {as bs : List UInt8} (h : as.length = bs.length) :
    memcmp as bs = if as.map UInt8.toNat < bs.map UInt8.toNat then -1
      else if bs.map UInt8.toNat < as.map UInt8.toNat then 1 else 0 := by
  induction as generalizing bs with
  | nil =>
    obtain rfl := List.length_eq_zero_iff.1 h.symm
    simp [memcmp]
  | cons a as ih =>
    cases bs with
    | nil => exact absurd h (by simp)
    | cons b bs =>
      have ih := ih (Nat.succ.inj h)
      simp only [memcmp, List.map_cons, List.cons_lt_cons_iff, UInt8.lt_iff_toNat_lt]
      rcases Nat.lt_trichotomy a.toNat b.toNat with hl | he | hg
      · rw [if_pos hl, if_pos (Or.inl hl)]
      · simp only [he, Nat.lt_irrefl, if_false, false_or, true_and]
        exact ih
      · have hn : ¬ a.toNat < b.toNat := by omega
        have hne : a.toNat ≠ b.toNat := by omega
        rw [if_neg hn, if_pos hg, if_neg (by simp [hn, hne]), if_pos (Or.inl hg)]

/-- The data that is compared. -/
def SrvHost.data (a : SrvHost) : List UInt8 := srvData a.priority a.weight a.port a.hostname defaultDomain

theorem SrvHost.data_eq (a : SrvHost) :
    a.data = be16 a.priority ++ (be16 a.weight ++ (be16 a.port ++
      (UInt8.ofNat (strlen a.hostname) :: (a.hostname.val ++ [5, 108, 111, 99, 97, 108, 0])))) := by
  have hp : appendU16 a.priority [] = (be16 a.priority, 2) := appendU16_of_lt (by decide)
  have hw : appendU16 a.weight (be16 a.priority) = (be16 a.priority ++ be16 a.weight, 2) :=
    appendU16_of_lt (by rw [length_be16]; decide)
  have ho : appendU16 a.port (be16 a.priority ++ be16 a.weight) = (be16 a.priority ++ be16 a.weight ++ be16 a.port, 2) :=
    appendU16_of_lt (by rw [List.length_append, length_be16, length_be16]; decide)
  rw [SrvHost.data, srvData, hp]
  simp only [hw, ho, List.append_assoc]
  rfl

theorem SrvHost.length_data (a : SrvHost) : a.data.length = 14 + strlen a.hostname := by
  rw [data_eq]
  simp only [List.length_append, List.length_cons, length_be16, List.length_nil, strlen]
  omega

theorem be16_injective : Function.Injective be16 := by
  intro v w h
  have hv := readU16_be16 [] [] v
  rwa [h, readU16_be16, eq_comm] at hv

theorem SrvHost.data_injective : Function.Injective SrvHost.data := by
  intro a b h
  have hl : strlen a.hostname = strlen b.hostname := by
    have hl := congrArg List.length h
    rw [length_data, length_data] at hl
    omega
  rw [data_eq, data_eq] at h
  obtain ⟨hp, h⟩ := List.append_inj h rfl
  obtain ⟨hw, h⟩ := List.append_inj h rfl
  obtain ⟨ho, h⟩ := List.append_inj h rfl
  have hn := (List.append_inj (List.cons.inj h).2 hl).1
  cases a
  cases b
  rw [SrvHost.mk.injEq]
  exact ⟨be16_injective hp, be16_injective hw, be16_injective ho, Subtype.ext hn⟩

/-- Records are ordered by their length, then by their bytes. -/
def SrvHost.rank (a : SrvHost) : ℕ ×ₗ List ℕ := toLex (strlen a.hostname, a.data.map UInt8.toNat)

theorem SrvHost.rank_injective : Function.Injective SrvHost.rank := by
  intro a b h
  rw [rank, rank, toLex_inj, Prod.mk.injEq] at h
  have hb : Function.Injective UInt8.toNat := fun _ _ => UInt8.toNat_inj.1
  exact data_injective (List.map_injective_iff.2 hb h.2)

/-- What `a` makes of the record of `b`. -/
def verdict (a b : SrvHost) : ℤ := checkSrvCollision a b.priority b.weight b.port b.hostname defaultDomain

/-- A host with a name loses to the greater record and wins over the smaller one. -/
theorem verdict_eq {a : SrvHost} (ha : a.hostname.val ≠ []) (b : SrvHost) :
    verdict a b = if a.rank < b.rank then 1 else if b.rank < a.rank then -1 else 0 := by
  have h9 : 9 + strlen b.hostname + strlen defaultDomain = 14 + strlen b.hostname := by
    rw [show strlen defaultDomain = 5 from rfl]
    omega
  simp only [verdict, checkSrvCollision, if_neg ha, h9, SrvHost.rank, Prod.Lex.toLex_lt_toLex]
  rcases Nat.lt_trichotomy (strlen a.hostname) (strlen b.hostname) with hl | he | hg
  · rw [if_pos (by omega), if_pos (Or.inl hl)]
  · have hlen : a.data.length = b.data.length := by rw [SrvHost.length_data, SrvHost.length_data, he]
    have hm := memcmp_eq hlen
    simp only [he, Nat.lt_irrefl, if_false, false_or, true_and]
    change (if 0 < memcmp a.data b.data then (-1 : ℤ) else if memcmp a.data b.data < 0 then 1 else 0) = _
    rw [hm]
    rcases lt_trichotomy (a.data.map UInt8.toNat) (b.data.map UInt8.toNat) with h | h | h
    · simp [h]
    · simp [h]
    · simp [h, h.not_gt]
  · rw [if_neg (by omega), if_pos (by omega), if_neg (by simp only [not_or, not_and]; omega), if_pos (Or.inl hg)]

end Order

/-- Among hosts with different records that probe for one service, one host wins
over every other, and every other loses to it. -/
theorem srv_winner (hosts : Finset SrvHost) (hne : hosts.Nonempty) (hn : ∀ a ∈ hosts, a.hostname.val ≠ []) :
    ∃! w, w ∈ hosts ∧ ∀ a ∈ hosts, a ≠ w → verdict w a = -1 ∧ verdict a w = 1 := by
  obtain ⟨w, hw, hmax⟩ := hosts.exists_max_image SrvHost.rank hne
  have hlt : ∀ a ∈ hosts, a ≠ w → a.rank < w.rank := fun a ha h =>
    (hmax a ha).lt_of_ne fun e => h (SrvHost.rank_injective e)
  refine ⟨w, ⟨hw, fun a ha h => ?_⟩, ?_⟩
  · have hr := hlt a ha h
    rw [verdict_eq (hn w hw), verdict_eq (hn a ha), if_neg hr.not_gt, if_pos hr, if_pos hr]
    exact ⟨rfl, rfl⟩
  · rintro v ⟨hv, hall⟩
    by_contra h
    have h1 := (hall w hw (Ne.symm h)).1
    rw [verdict_eq (hn v hv), if_pos (hlt v hv h)] at h1
    exact absurd h1 (by decide)

theorem srv_winner_two :
    ∃! w, w ∈ ({⟨0, 0, 80, cstr [97]⟩, ⟨0, 0, 80, cstr [98]⟩} : Finset SrvHost) ∧
      ∀ a ∈ ({⟨0, 0, 80, cstr [97]⟩, ⟨0, 0, 80, cstr [98]⟩} : Finset SrvHost), a ≠ w → verdict w a = -1 ∧ verdict a w = 1 :=
  srv_winner _ ⟨_, Finset.mem_insert_self _ _⟩ (by decide)

section Txt

variable {txt a b : List TxtItem}

/-- All items are as long as the first; so is a single one. -/
def Uniform (txt : List TxtItem) : Prop := ∃ n, ∀ item ∈ txt, strlen item.text = n

theorem length_txtBytes {n : ℕ} (h : ∀ item ∈ txt, strlen item.text = n) : (txtBytes txt).length = txt.length * (n + 1) := by
  induction txt with
  | nil => simp [txtBytes]
  | cons item txt ih =>
    have hi := h item (List.mem_cons_self ..)
    rw [txtBytes_cons, List.length_append, length_stringBytes, hi, ih fun i hm => h i (List.mem_cons_of_mem _ hm),
      List.length_cons, Nat.succ_mul]
    omega

theorem foldl_add_const {α : Type*} (xs : List α) (k s : ℕ) : xs.foldl (fun t _ => t + k) s = s + xs.length * k := by
  induction xs generalizing s with
  | nil => simp
  | cons x xs ih =>
    rw [List.foldl_cons, ih, List.length_cons, Nat.succ_mul]
    omega

/-- The expected length is one too long. -/
theorem expectedLen_uniform (h : Uniform txt) : expectedLen txt = (txtBytes txt).length + 1 := by
  obtain ⟨n, hn⟩ := h
  cases txt with
  | nil => rfl
  | cons first txt =>
    have hf := hn first (List.mem_cons_self ..)
    rw [strlen_text] at hf
    have hk : 2 + strlen first.key + strlen first.value = n + 1 := by omega
    rw [length_txtBytes hn, expectedLen, foldl_add_const, hk]
    omega

/-- A host with items decides by length, unless the other's data has the expected length. -/
theorem checkTxtCollision_length (ha : txt ≠ []) {data : List UInt8} (hd : 2 ≤ data.length) (stale : List UInt8) :
    (expectedLen txt < data.length → checkTxtCollision txt data stale = 1) ∧
      (data.length < expectedLen txt → checkTxtCollision txt data stale = -1) := by
  have h1 : ¬ (data.length = 1 ∧ txt ≠ []) := fun h => absurd h.1 (by omega)
  have h2 : ¬ (1 < data.length ∧ txt = []) := fun h => ha h.2
  have h3 : ¬ (data.length = 1 ∧ txt = []) := fun h => ha h.2
  simp only [checkTxtCollision, if_neg h1, if_neg h2, if_neg h3]
  exact ⟨fun h => if_pos h, fun h => by rw [if_neg h.not_gt, if_pos h]⟩

/-- Of two hosts with TXT data of one length, each finds that it wins, also where the
data is the same; where one length exceeds the other by two or more, the host with the
longer data wins in both eyes. -/
theorem txt_verdicts (ha : a ≠ []) (hb : b ≠ []) (hua : Uniform a) (hub : Uniform b) (s t : List UInt8) :
    ((txtBytes a).length = (txtBytes b).length →
      checkTxtCollision a (txtBytes b) s = -1 ∧ checkTxtCollision b (txtBytes a) t = -1) ∧
    ((txtBytes a).length + 1 < (txtBytes b).length →
      checkTxtCollision a (txtBytes b) s = 1 ∧ checkTxtCollision b (txtBytes a) t = -1) := by
  have hea := expectedLen_uniform hua
  have heb := expectedLen_uniform hub
  have hab := checkTxtCollision_length ha (two_le_txtBytes hb) s
  have hba := checkTxtCollision_length hb (two_le_txtBytes ha) t
  exact ⟨fun h => ⟨hab.2 (by omega), hba.2 (by omega)⟩, fun h => ⟨hab.1 (by omega), hba.2 (by omega)⟩⟩

theorem txt_verdicts_same :
    checkTxtCollision [⟨cstr [97], cstr [98]⟩] (txtBytes [⟨cstr [97], cstr [98]⟩]) [] = -1 :=
  have hu : Uniform [⟨cstr [97], cstr [98]⟩] := ⟨3, List.forall_mem_singleton.2 rfl⟩
  ((txt_verdicts (List.cons_ne_nil _ _) (List.cons_ne_nil _ _) hu hu [] []).1 rfl).1

end Txt

end Esp8266Sdk.Mdns
