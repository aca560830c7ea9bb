import Esp8266Sdk.Nor.Interleave
import Esp8266Sdk.Nvs.Durability
import Esp8266Sdk.Nvs.Frame

/-! Sets of different keys by several tasks. The source takes no lock, so that
every flash access of one task may fall between two of another. Where the calls
do not overlap, all that was set is read back and nothing else changes; where
they do, values are lost. -/

namespace Esp8266Sdk.Nvs

open Nor Prog Kv

/-- A set that a task makes on its own stack. -/
structure SetTask where
  setter : Setter
  handle : UInt32
  key : CString
  depth : ℕ

namespace SetTask

def call (c : SetTask) : Call := .set c.setter c.handle c.key

def prog (env : Env) (c : SetTask) : NvsM Reply := c.call.prog env c.depth

/-- The namespace and the key that are set. -/
def name (c : SetTask) : UInt8 × List UInt8 := (nsIndexOf c.handle, c.key.bytes)

def record (c : SetTask) : Record :=
  newRecord (nsIndexOf c.handle) c.setter.itemType.code c.key.bytes c.setter.data c.setter.length

/-- The set is regular in this world, and no other type is stored under its key. -/
structure Begins (env : Env) (c : SetTask) (w : NvsWorld) : Prop where
  regular : Regular env w c.call
  oneType : OneType w.flash (nsIndexOf c.handle) c.setter.itemType.code c.key.bytes

theorem record_name {c : SetTask} (h : c.key.bytes.length ≤ 15) : c.record.name = c.name := by
  unfold record name newRecord
  rw [List.take_of_length_le h]

end SetTask

/-! ### Other keys -/

/-- Without continuation entries that read as its item, a key is read as it is stored. -/
theorem get_stored {f : Flash} {s : Store} (h : Abs f s) {env : Env} {g : Getter} {handle : UInt32} {key : CString}
    (hc : ClearName f (nsIndexOf handle) key.bytes) :
    ((g.prog env handle key).run (powerOn f)).1 = g.read (s.log.lookup (nsIndexOf handle, key.bytes)) := by
  have hs := h.sound
  have hfound : (scan f (nsIndexOf handle) g.itemType.code key.bytes 0xff).getD notFound =
      foundAt f g.itemType.code (firstHead f (nsIndexOf handle) key.bytes) := by
    rw [scan_eq_firstHead hs.ordered hs.packed hc]
    cases firstHead f (nsIndexOf handle) key.bytes <;> rfl
  rw [run_getter, lookup_powerOn, hfound, h.log]
  exact reply_foundAt hs.packed g _ _

theorem Store.lookup_putRecord (s : Store) (depth n : ℕ) {e : Record} {name : UInt8 × List UInt8} (h : e.name ≠ name) :
    (s.put depth n e).2.log.lookup name = s.log.lookup name := by
  unfold Store.put
  split_ifs <;> first | rfl | exact Log.lookup_put_other _ h

/-- A set leaves what is stored under other names. -/
theorem Store.lookup_set (s : Store) (depth : ℕ) {c : SetTask} (hkey : c.key.bytes.length ≤ 15)
    {name : UInt8 × List UInt8} (h : c.name ≠ name) :
    (s.step depth c.call).2.log.lookup name = s.log.lookup name := by
  have hname : c.record.name ≠ name := by rwa [c.record_name hkey]
  have hput := (s.drop fun e => e.name = c.name ∧ e.kind = c.setter.itemType.code).lookup_putRecord depth
    (itemSpan c.setter.length).toNat hname
  refine hput.trans (Log.lookup_drop_other fun e _ he => ?_)
  rw [he]
  exact fun hp => h hp.1.symm

/-! ### Sets one after another -/

section

variable {ι : Type} {env : Env} {c : ι → SetTask} {w w' : NvsWorld} {l : List (ι × Except Defect Reply)} {s s' : Store}

/-- The sets of the list that returned `ESP_OK`, one after another. -/
structure AllSet (c : ι → SetTask) (l : List (ι × Except Defect Reply)) (s : Store) (f : Flash) (s' : Store) : Prop where
  abs : Abs f s'
  other : ∀ name, (∀ i, (c i).name ≠ name) → s'.log.lookup name = s.log.lookup name
  visible : ∀ i r, (i, r) ∈ l → Visible f (nsIndexOf (c i).handle) (c i).key.bytes (c i).record
  stored : ∀ i r, (i, r) ∈ l → (itemSpan (c i).setter.length).toNat ≤ 32

/-- One more set. -/
theorem AllSet.snoc (h : AllSet c l s w.flash s') (hkey : ∀ i, (c i).key.bytes.length ≤ 15)
    (hdiff : ∀ i j, i ≠ j → (c i).name ≠ (c j).name) {i : ι} (hb : (c i).Begins env w) {r : Reply}
    (hr : ((c i).prog env).run w = (.ok r, w')) (hok : r.err = espOk) :
    AllSet c (l ++ [(i, .ok r)]) s w'.flash (s'.step (c i).depth (c i).call).2 := by
  have hs := h.abs.sound
  have hset := wp_ok (wp_set_regular env (c i).depth h.abs hb.regular) hr
  have hnew := set_visible hs (hkey i) hb.regular hb.oneType hr hok
  obtain ⟨-, hspan, -⟩ := set_stored hs hb.regular hr hok
  refine ⟨hset.2.1, fun name hname => ?_, fun j r' hj => ?_, fun j r' hj => ?_⟩
  · rw [s'.lookup_set _ (hkey i) (hname i), h.other name hname]
  · by_cases hji : j = i
    · rw [hji]
      exact hnew
    · have hj' : (j, r') ∈ l := by simpa [hji] using hj
      have hne : (c j).record.name ≠ (c i).name := by
        rw [SetTask.record_name (hkey j)]
        exact hdiff j i hji
      have hold := wp_set_visible env (c i).depth hs hb.regular (h.visible j r' hj') fun he => hne he.1
      exact (wp_ok hold hr).2
  · by_cases hji : j = i
    · rwa [hji]
    · exact h.stored j r' (by simpa [hji] using hj)

/-- Regular sets of different keys that run one after another and return `ESP_OK`. -/
theorem allSet_of_sequence (h : Tasks.Sequence (fun i => (c i).prog env) (fun i => (c i).Begins env) w l w')
    (hs : Abs w.flash s) (hkey : ∀ i, (c i).key.bytes.length ≤ 15) (hdiff : ∀ i j, i ≠ j → (c i).name ≠ (c j).name)
    (hok : ∀ i r, (i, r) ∈ l → ∃ r', r = .ok r' ∧ r'.err = espOk) : ∃ s', AllSet c l s w'.flash s' := by
  induction h with
  | nil => exact ⟨s, hs, fun _ _ => rfl, fun i r hi => absurd hi List.not_mem_nil, fun i r hi => absurd hi List.not_mem_nil⟩
  | @snoc l w₁ w₂ i r hl ha hr ih =>
    obtain ⟨s', h⟩ := ih fun i r hi => hok i r (List.mem_append_left _ hi)
    obtain ⟨r', rfl, hr'⟩ := hok i r (List.mem_append_right _ (List.mem_singleton.2 rfl))
    exact ⟨_, h.snoc hkey hdiff ha hr hr'⟩

end

/-! ### Tasks -/

/-- Tasks that each set a different key, no two of them on their way at once, each
set regular where it begins: when all have returned `ESP_OK`, every value is read
back after a reboot, and every other key reads as before. -/
theorem sets_kept {ι : Type} [DecidableEq ι] {env : Env} {w : NvsWorld} (hw : Reach env (Regular env) noCut w)
    {c : ι → SetTask} {bs : ι → List UInt8} (hkey : ∀ i, (c i).key.bytes.length ≤ 15)
    (hdiff : ∀ i j, i ≠ j → (c i).name ≠ (c j).name) (hv : ∀ i, (c i).setter.Carries (bs i))
    (hsize : ∀ i, (c i).call.valueSize ≤ 4000) {t : Tasks ι Cache Defect Reply}
    (h : Tasks.Run (Tasks.Serial fun i => (c i).Begins env) (Tasks.start (fun i => (c i).prog env) w) t)
    (hok : ∀ i, ∃ r, (t.task i).result = some (.ok r) ∧ r.err = espOk) :
    (∀ i, (((c i).setter.getter.prog env (c i).handle (c i).key).run (powerOn t.world.flash)).1 =
      .ok ((c i).setter.echo (bs i))) ∧
    ∀ (g : Getter) handle key, (∀ i, (c i).name ≠ (nsIndexOf handle, key.bytes)) →
      ClearName w.flash (nsIndexOf handle) key.bytes → ClearName t.world.flash (nsIndexOf handle) key.bytes →
      ((g.prog env handle key).run (powerOn t.world.flash)).1 = ((g.prog env handle key).run (powerOn w.flash)).1 := by
  obtain ⟨a, u, hs⟩ := hw.sound fun _ _ h => h
  have hno : ∀ i, ¬ (t.task i).Busy := by
    intro i hb
    obtain ⟨r, hr, -⟩ := hok i
    cases hi : t.task i with
    | busy q =>
      rw [hi] at hr
      cases hr
    | _ =>
      rw [hi] at hb
      exact hb
  obtain ⟨l, hseq, -, hmem⟩ := h.sequence hno
  obtain ⟨s', hset⟩ := allSet_of_sequence hseq hs.abs hkey hdiff fun i r hi => by
    obtain ⟨r', hr', he⟩ := hok i
    exact ⟨r', Option.some.inj (((hmem i r).1 hi).symm.trans hr'), he⟩
  refine ⟨fun i => ?_, fun g handle key hother hbefore hafter => ?_⟩
  · obtain ⟨r, hr, -⟩ := hok i
    have hi := (hmem i _).2 hr
    rw [get_visible hset.abs.sound.packed (hset.visible i _ hi)]
    exact read_newRecord (hv i) ((hv i).length_le (hsize i) (hset.stored i _ hi)) _ _
  · rw [get_stored hset.abs hafter, get_stored hs.abs hbefore, hset.other _ hother]

/-- Two tasks that set "a" to 7 and "b" to 8 in one namespace. -/
def twoSets (first : Bool) : SetTask := if first then ⟨.scalar .u8 7#8, 10, keyA, 1⟩ else ⟨.scalar .u8 8#8, 10, keyB, 1⟩

theorem sets_kept_factory : ∃ t, Tasks.Run (Tasks.Serial fun i => (twoSets i).Begins (.built []))
      (Tasks.start (fun i => (twoSets i).prog (.built [])) factory) t ∧
    (∀ i, (((twoSets i).setter.getter.prog (.built []) (twoSets i).handle (twoSets i).key).run (powerOn t.world.flash)).1 =
      .ok ((twoSets i).setter.echo (if i then [7] else [8]))) ∧
    (((Call.get (.scalar .u8) 10 ⟨[0x63], by decide⟩).prog (.built []) 1).run (powerOn t.world.flash)).1 =
      (((Call.get (.scalar .u8) 10 ⟨[0x63], by decide⟩).prog (.built []) 1).run factory).1 := by
  have hc₁ := refines_factory.faithful (.built []) (c := (twoSets true).call) (by decide)
  obtain ⟨w₁, hr₁⟩ : ∃ w₁, ((twoSets true).prog (.built [])).run factory = (.ok (.code espOk), w₁) :=
    ⟨_, run_eq ((refines_factory.run hc₁ 1).trans (by decide))⟩
  have h₁ := (wp_ok (call_refines (.built []) 1 refines_factory hc₁) hr₁).2
  have hc₂ := h₁.faithful (.built []) (c := (twoSets false).call) (by decide)
  obtain ⟨w₂, hr₂⟩ : ∃ w₂, ((twoSets false).prog (.built [])).run w₁ = (.ok (.code espOk), w₂) :=
    ⟨_, run_eq ((h₁.run hc₂ 1).trans (by decide))⟩
  have h₂ := (wp_ok (call_refines (.built []) 1 h₁ hc₂) hr₂).2
  have hb₁ : (twoSets true).Begins (.built []) factory := ⟨hc₁.regular, refines_factory.abs.oneType (by decide) (by decide)⟩
  have hb₂ : (twoSets false).Begins (.built []) w₁ := ⟨hc₂.regular, h₁.abs.oneType (by decide) (by decide)⟩
  have hrun₁ := Tasks.run_alone (A := fun i => (twoSets i).Begins (.built []))
    (t := Tasks.start (fun i => (twoSets i).prog (.built [])) factory) (i := true) rfl ⟨fun _ _ h => h, fun _ => hb₁⟩ hr₁
  have hended : ∀ j, j ≠ false → ¬ (Function.update (Tasks.start (fun i => (twoSets i).prog (.built [])) factory).task true
      (.done (.ok (.code espOk))) j).Busy := by
    intro j hj
    cases j with
    | true => exact id
    | false => exact absurd rfl hj
  have hrun := hrun₁.trans (Tasks.run_alone (i := false) rfl ⟨hended, fun _ => hb₂⟩ hr₂)
  have hv : ∀ i, (twoSets i).setter.Carries (if i then [7] else [8]) := by
    intro i
    cases i <;> exact ⟨rfl, rfl⟩
  have hkept := sets_kept reach_factory (by decide) (by decide) hv (by decide) hrun fun i => by
    cases i <;> exact ⟨_, rfl, rfl⟩
  exact ⟨_, hrun, hkept.1, hkept.2 (.scalar .u8) 10 ⟨[0x63], by decide⟩ (by decide)
    (refines_factory.abs.clearName (by decide) _ _) (h₂.abs.clearName (by decide) _ _)⟩

/-- The first task reads the entry table and is stopped; the second sets its key;
the first then writes into the same entry. Both return `ESP_OK`, and both values
are lost. -/
theorem sets_lost : ∃ t, Tasks.Run (fun _ _ => True) (Tasks.start (fun i => (twoSets i).prog (.built [])) factory) t ∧
    (∀ i, (t.task i).result = some (.ok (.code espOk))) ∧
    (((Call.get (.scalar .u8) 10 keyA).prog (.built []) 1).run (powerOn t.world.flash)).1 = .ok (.code espErrNvsNotFound) ∧
    (((Call.get (.scalar .u8) 10 keyB).prog (.built []) 1).run (powerOn t.world.flash)).1 = .ok (.code espErrNvsNotFound) := by
  have h : (Lts.exec Tasks.step (fun _ _ => True) (Tasks.start (fun i => (twoSets i).prog (.built [])) factory)
      (List.replicate 22 true ++ List.replicate 21 false ++ List.replicate 3 true)).any fun t =>
        (∀ i, (t.task i).result = some (.ok (.code espOk))) ∧
        (((Call.get (.scalar .u8) 10 keyA).prog (.built []) 1).run (powerOn t.world.flash)).1 = .ok (.code espErrNvsNotFound) ∧
        (((Call.get (.scalar .u8) 10 keyB).prog (.built []) 1).run (powerOn t.world.flash)).1 = .ok (.code espErrNvsNotFound) := by
    decide +kernel
  obtain ⟨t, ht, h⟩ := Lts.run_of_any h
  exact ⟨t, ht, of_decide_eq_true h⟩

end Esp8266Sdk.Nvs
