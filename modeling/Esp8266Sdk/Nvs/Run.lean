import Esp8266Sdk.Nvs.View

/-! Runs of the store: public calls one after another from an erased partition,
where allowed with a power cut after any flash step of a call. -/

namespace Esp8266Sdk.Nvs

open Nor

/-- The partition holds only erased bytes. -/
def Erased (f : Flash) : Prop := ∀ x, nvsPartitionOffset ≤ x → x < nvsPartitionOffset + nvsPartitionSize → f x = 0xff

/-- The world at power-on: the flash as it is and the RAM cache zeroed. -/
def powerOn (f : Flash) : NvsWorld := ⟨f, .empty⟩

/-- Worlds reached from an erased partition by returning calls that meet `ok`,
and by power cuts that meet `cutOk` (the depth of the stack, the world before
the call, the call and the number of its flash steps done). -/
inductive Reach (env : Env) (ok : NvsWorld → Call → Prop) (cutOk : ℕ → NvsWorld → Call → ℕ → Prop) : NvsWorld → Prop
  | boot {f : Flash} (h : Erased f) : Reach env ok cutOk (powerOn f)
  | call {w w' : NvsWorld} {c : Call} {depth : ℕ} {r : Reply} (hw : Reach env ok cutOk w) (hc : ok w c)
      (hr : (c.prog env depth).run w = (.ok r, w')) : Reach env ok cutOk w'
  | cut {w : NvsWorld} {c : Call} {depth k : ℕ} (hw : Reach env ok cutOk w) (hc : ok w c) (hk : cutOk depth w c k) :
      Reach env ok cutOk (powerOn ((c.prog env depth).cut w k))

/-- No power cut. -/
def noCut : ℕ → NvsWorld → Call → ℕ → Prop := fun _ _ _ _ => False

/-- A power cut anywhere. -/
def anyCut : ℕ → NvsWorld → Call → ℕ → Prop := fun _ _ _ _ => True

/-- An invariant of all reached worlds: it holds at power-on and calls and cuts keep it. -/
theorem Reach.invariant {env : Env} {ok : NvsWorld → Call → Prop} {cutOk : ℕ → NvsWorld → Call → ℕ → Prop}
    {I : NvsWorld → Prop} (hboot : ∀ f, Erased f → I (powerOn f))
    (hcall : ∀ w c depth r w', I w → ok w c → (c.prog env depth).run w = (.ok r, w') → I w')
    (hcut : ∀ w c depth k, I w → ok w c → cutOk depth w c k → I (powerOn ((c.prog env depth).cut w k)))
    {w : NvsWorld} (hw : Reach env ok cutOk w) : I w := by
  induction hw with
  | boot h => exact hboot _ h
  | call _ hc hr ih => exact hcall _ _ _ _ _ ih hc hr
  | cut _ hc hk ih => exact hcut _ _ _ _ ih hc hk

/-- A new device: the partition erased and the cache zeroed. -/
def factory : NvsWorld := powerOn fun _ => 0xff

theorem reach_factory {env : Env} {ok : NvsWorld → Call → Prop} {cutOk : ℕ → NvsWorld → Call → ℕ → Prop} :
    Reach env ok cutOk factory := .boot fun _ _ _ => rfl

/-- Two keys for examples: "a" and "b". -/
def keyA : CString := ⟨[0x61], by decide⟩
def keyB : CString := ⟨[0x62], by decide⟩

/-- The results of calls made one after another, each with its stack depth, up
to the first that does not return, and the world they leave. -/
def calls (env : Env) : List (ℕ × Call) → NvsWorld → List (Except Defect Reply) × NvsWorld
  | [], w => ([], w)
  | (depth, c) :: l, w => match (c.prog env depth).run w with
    | (.ok r, w') => (.ok r :: (calls env l w').1, (calls env l w').2)
    | (.error e, w') => ([.error e], w')

theorem Erased.blank {f : Flash} (h : Erased f) {p : ℕ} (hp : p < 8) : Blank f p := by
  intro x h1 h2
  refine h x ?_ ?_ <;> simp only [base, nvsPartitionOffset, nvsPartitionSize] at * <;> omega

end Esp8266Sdk.Nvs
