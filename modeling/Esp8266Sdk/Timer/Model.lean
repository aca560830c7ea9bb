import Esp8266Sdk.Lts.Run
import Mathlib.Logic.Function.Basic

/-! `src/timer.nim` over the timer daemon of FreeRTOS. The parties are the tasks
that make `esp_timer_*` calls, the tick and the daemon task, and a step is one
access of one party to what they share: the command queue, the tick count, an
`esp_timer_obj`. The timer lists belong to the daemon alone, so that taking a
timer off its list and calling its callback is one step. -/

namespace Esp8266Sdk.Timer

/-! ### Objects and commands -/

/-- `esp_timer_state_t` -/
inductive TimerState
  | init | once | cycle | stop | delete
  deriving DecidableEq

/-- What the heap holds at an address: nothing yet, an object, or one that was deallocated. -/
inductive Block
  | unused | live | freed
  deriving DecidableEq

/-- `esp_timer_obj`. Its `os_timer` is the FreeRTOS timer of the same number. -/
structure Obj where
  /-- `callback` is not nil -/
  callback : Bool
  state : TimerState
  block : Block
  deriving DecidableEq

/-- The commands of `xTimerGenericCommand` that the library sends, with their `xOptionalValue`.
The period of a change is not zero (`configASSERT` of `prvProcessReceivedCommands`). -/
inductive Command
  | reset (xCommandTime : UInt32)
  | stop
  | changePeriod (xNewPeriod : {p : UInt32 // p ≠ 0})
  | delete
  deriving DecidableEq

/-- `DaemonTaskMessage_t`, with the number of the send. -/
structure Message where
  no : ℕ
  timer : ℕ
  command : Command
  deriving DecidableEq

/-- The calls of the library on a handle. -/
inductive Call
  | startOnce (timeout_us : UInt64)
  | startPeriodic (period : UInt64)
  | stop
  | delete
  deriving DecidableEq

/-- `uint32(us div (1000000 div CONFIG_FREERTOS_HZ))` -/
def toTicks (us : UInt64) : UInt32 := (us / (1000000 / 100)).toUInt32

/-- The command that changes the period, unless the ticks are 0. -/
def changePeriod (us : UInt64) : Option Command :=
  if h : toTicks us = 0 then none else some (.changePeriod ⟨toTicks us, h⟩)

/-- The command that the call sends. -/
def Call.command : Call → Option Command
  | .startOnce us => changePeriod us
  | .startPeriodic us => changePeriod us
  | .stop => some .stop
  | .delete => some .delete

inductive Caller
  | task (k : ℕ)
  /-- the user callback, which runs in the daemon task -/
  | daemon
  deriving DecidableEq

/-- A call in progress. It has sent its command as number `sent` or has yet to send it. -/
structure Running where
  caller : Caller
  timer : ℕ
  call : Call
  sent : Option ℕ
  deriving DecidableEq

/-! ### The daemon task -/

/-- Where `esp_timer_callback` stands. -/
inductive Wrapper
  /-- in `timer.callback` -/
  | user
  /-- before `case timer.state` -/
  | tail
  /-- before `xTaskGetTickCount()`, an argument of `xTimerReset` -/
  | stamp
  | sendReset (xCommandTime : UInt32)
  | sendStop
  /-- before `timer.state = ESP_TIMER_STOP` -/
  | writeStop
  | sendDelete
  /-- before `dealloc(timer)` -/
  | dealloc
  deriving DecidableEq

/-- The call site of `pxCallbackFunction`. -/
inductive Site
  /-- `prvProcessExpiredTimer` -/
  | expired
  /-- `prvProcessReceivedCommands` -/
  | received
  /-- `prvSwitchTimerLists` under `prvProcessTimerOrBlockTask`, with the scheduler suspended -/
  | switchBlock
  /-- `prvSwitchTimerLists` under `prvProcessReceivedCommands` -/
  | switchReceived (xTimeNow : UInt32) (m : Message)
  deriving DecidableEq

/-- Where the daemon task stands. -/
inductive Daemon
  /-- at the head of the loop of `prvTimerTask` -/
  | top
  /-- before `xQueueReceive` -/
  | receive
  /-- a command was received, the time has yet to be sampled -/
  | received (m : Message)
  | switchBlock
  | switchReceived (xTimeNow : UInt32) (m : Message)
  | callback (site : Site) (timer : ℕ) (pc : Wrapper)
  deriving DecidableEq

/-- What a daemon goes on with after a callback. -/
def Site.back : Site → Daemon
  | .expired => .receive
  | .received => .receive
  | .switchBlock => .switchBlock
  | .switchReceived now m => .switchReceived now m

/-! ### History -/

/-- Uses of a timer that its deletion forbids. -/
inductive Fault
  /-- `esp_timer_callback` reads or writes an object that is not allocated -/
  | access
  /-- an object that is not allocated is deallocated -/
  | free
  /-- a command is queued after the delete command -/
  | command
  deriving DecidableEq

/-- What happened to a timer. No function of the program reads it. -/
structure History where
  /-- number of the last change of period that the daemon executed, 0 before the first -/
  source : ℕ := 0
  /-- the `source` of each expiry handed to `esp_timer_callback`, which calls the user callback first -/
  fired : List ℕ := []
  /-- the delete command was queued -/
  deleted : Bool := false
  faults : List Fault := []
  deriving DecidableEq

/-- Note the fault unless `ok`. -/
def History.note (h : History) (f : Fault) (ok : Bool) : History :=
  if ok then h else { h with faults := f :: h.faults }

/-- `esp_timer_callback` accesses the object. -/
def History.access (h : History) (o : Obj) : History := h.note .access (o.block = .live)

def History.free (h : History) (o : Obj) : History := h.note .free (o.block = .live)

def History.queue (h : History) (c : Command) : History :=
  { h.note .command !h.deleted with deleted := h.deleted || c = .delete }

/-- An expiry enters `esp_timer_callback`, which reads `timer.callback`. -/
def History.enter (h : History) (o : Obj) : History := { h.access o with fired := h.source :: h.fired }

/-! ### States -/

structure Sys where
  /-- `uxLength` of `xTimerQueue` -/
  uxLength : ℕ
  xTickCount : UInt32 := 0
  xLastTime : UInt32 := 0
  /-- `pxCurrentTimerList`: expiry times and timers, sorted -/
  current : List (UInt32 × ℕ) := []
  /-- `pxOverflowTimerList` -/
  overflow : List (UInt32 × ℕ) := []
  /-- `xTimerPeriodInTicks` -/
  period : ℕ → UInt32 := fun _ => 100
  /-- `xTimerQueue` -/
  queue : List Message := []
  /-- the number of the next send -/
  queued : ℕ := 1
  objs : ℕ → Obj := fun _ => ⟨false, .init, .unused⟩
  calls : List Running := []
  daemon : Daemon := .top
  hist : ℕ → History := fun _ => {}

namespace Sys

variable (s : Sys) (t : ℕ)

/-- The daemon is between `vTaskSuspendAll` and `xTaskResumeAll`: no task runs and no tick is counted. -/
def suspended : Bool :=
  match s.daemon with
  | .switchBlock => true
  | .callback .switchBlock _ _ => true
  | _ => false

def setObj (o : Obj) : Sys := { s with objs := Function.update s.objs t o }

def setHist (h : History) : Sys := { s with hist := Function.update s.hist t h }

/-- `dealloc(timer)` -/
def dealloc : Sys :=
  (s.setHist t ((s.hist t).free (s.objs t))).setObj t { s.objs t with block := .freed }

/-- `esp_timer_callback` accesses the object of `t`. -/
def access : Sys := s.setHist t ((s.hist t).access (s.objs t))

/-- `xTimerGenericCommand` with `portMAX_DELAY`: the send and whether it was done. A full queue blocks
the sender, but with the scheduler suspended it refuses. -/
def xTimerGenericCommand (c : Command) : Option (Bool × Sys) :=
  if s.queue.length < s.uxLength then
    some (true, { s.setHist t ((s.hist t).queue c) with
      queue := s.queue ++ [⟨s.queued, t, c⟩], queued := s.queued + 1 })
  else if s.suspended then some (false, s) else none

/-! ### The timer lists -/

/-- `vListInsert`: behind the items with a value up to that of `x`. -/
def vListInsert (x : UInt32 × ℕ) : List (UInt32 × ℕ) → List (UInt32 × ℕ)
  | [] => [x]
  | y :: l => if y.1 ≤ x.1 then y :: vListInsert x l else x :: y :: l

def uxListRemove : Sys :=
  { s with current := s.current.filter (·.2 ≠ t), overflow := s.overflow.filter (·.2 ≠ t) }

/-- The insertion and `xProcessTimerNow`. -/
def prvInsertTimerInActiveList (xNextExpiryTime xTimeNow xCommandTime : UInt32) : Bool × Sys :=
  if xNextExpiryTime ≤ xTimeNow then
    if s.period t ≤ xTimeNow - xCommandTime then (true, s)
    else (false, { s with overflow := vListInsert (xNextExpiryTime, t) s.overflow })
  else if xTimeNow < xCommandTime ∧ xCommandTime ≤ xNextExpiryTime then (true, s)
  else (false, { s with current := vListInsert (xNextExpiryTime, t) s.current })

/-! ### Steps of the daemon -/

/-- `pxTimer->pxCallbackFunction(pxTimer)`: `esp_timer_callback` reads `timer.callback` and calls it
unless it is nil. -/
def enter (site : Site) : Sys :=
  { s.setHist t ((s.hist t).enter (s.objs t)) with
    daemon := .callback site t (if (s.objs t).callback then .user else .tail) }

/-- The `switch` of `prvProcessReceivedCommands`. A new period is counted from `xTimeNow` and always
inserts the timer. -/
def execute (m : Message) (xTimeNow : UInt32) : Sys :=
  match m.command with
  | .reset time =>
    match s.prvInsertTimerInActiveList m.timer (time + s.period m.timer) xTimeNow time with
    | (true, s) => s.enter m.timer .received
    | (false, s) => { s with daemon := .receive }
  | .stop => { s with daemon := .receive }
  | .changePeriod p =>
    let s := { s.setHist m.timer { s.hist m.timer with source := m.no } with
      period := Function.update s.period m.timer p }
    { (s.prvInsertTimerInActiveList m.timer (xTimeNow + p) xTimeNow xTimeNow).2 with daemon := .receive }
  | .delete => { s with daemon := .receive }

/-- The exchange of the lists at the end of `prvSwitchTimerLists`. -/
def exchange : Sys := { s with current := s.overflow, overflow := s.current }

/-- A step inside `esp_timer_callback`. -/
def wrapper (site : Site) (pc : Wrapper) : Option Sys :=
  match pc with
  -- the user callback returns, with no call of its own in progress
  | .user => if s.calls.any (·.caller = .daemon) then none else some { s with daemon := .callback site t .tail }
  | .tail =>
    match (s.objs t).state with
    | .cycle => some { s.access t with daemon := .callback site t .stamp }
    | .once => some { s.access t with daemon := .callback site t .sendStop }
    | .delete => some { s.access t with daemon := .callback site t .sendDelete }
    | .init => some { s.access t with daemon := site.back }
    | .stop => some { s.access t with daemon := site.back }
  | .stamp => some { s.access t with daemon := .callback site t (.sendReset s.xTickCount) }
  | .sendReset time =>
    (s.xTimerGenericCommand t (.reset time)).map fun r => { r.2 with daemon := site.back }
  | .sendStop =>
    ((s.access t).xTimerGenericCommand t .stop).map fun r => { r.2 with daemon := .callback site t .writeStop }
  | .writeStop =>
    some { (s.access t).setObj t { s.objs t with state := .stop } with daemon := site.back }
  | .sendDelete =>
    ((s.access t).xTimerGenericCommand t .delete).map fun r => { r.2 with daemon := .callback site t .dealloc }
  | .dealloc => some { s.dealloc t with daemon := site.back }

/-- A step of `prvTimerTask`. A daemon that blocks at the head of its loop goes on when a command
arrives or its time is up. -/
def daemonStep : Option Sys :=
  match s.daemon with
  | .top =>
    if s.xTickCount < s.xLastTime then some { s with xLastTime := s.xTickCount, daemon := .switchBlock }
    else
      match s.current with
      | [] => some { s with xLastTime := s.xTickCount, daemon := .receive }
      | x :: _ =>
        if x.1 ≤ s.xTickCount then
          some (({ s with xLastTime := s.xTickCount }.uxListRemove x.2).enter x.2 .expired)
        else some { s with xLastTime := s.xTickCount, daemon := .receive }
  | .receive =>
    match s.queue with
    | [] => some { s with daemon := .top }
    | m :: q => some { s.uxListRemove m.timer with queue := q, daemon := .received m }
  | .received m =>
    if s.xTickCount < s.xLastTime then
      some { s with xLastTime := s.xTickCount, daemon := .switchReceived s.xTickCount m }
    else some ({ s with xLastTime := s.xTickCount }.execute m s.xTickCount)
  | .switchBlock =>
    match s.current with
    | [] => some { s.exchange with daemon := .receive }
    | x :: _ => some ((s.uxListRemove x.2).enter x.2 .switchBlock)
  | .switchReceived now m =>
    match s.current with
    | [] => some (s.exchange.execute m now)
    | x :: _ => some ((s.uxListRemove x.2).enter x.2 (.switchReceived now m))
  | .callback site t pc => s.wrapper t site pc

/-! ### Steps of the tasks -/

/-- `c` can make a call: a task that runs and has none in progress, or the user callback. -/
def canCall (c : Caller) : Bool :=
  s.calls.all (·.caller ≠ c) &&
    match c with
    | .task _ => !s.suspended
    | .daemon => match s.daemon with
      | .callback _ _ .user => true
      | _ => false

def without (r : Running) : Sys := { s with calls := s.calls.filter (· ≠ r) }

/-- What a call does after its command was queued. -/
def finish (r : Running) : Sys :=
  match r.call with
  | .startOnce _ => s.setObj r.timer { s.objs r.timer with state := .once }
  | .startPeriodic _ => s.setObj r.timer { s.objs r.timer with state := .cycle }
  | .stop => s.setObj r.timer { s.objs r.timer with state := .stop }
  | .delete => s.dealloc r.timer

/-- A step of the call `r`: it sends its command or it writes the object and returns 0. A call with no
ticks and one whose command is refused return -1. -/
def callStep (r : Running) : Option Sys :=
  match r.sent with
  | none =>
    match r.call.command with
    | none => some (s.without r)
    | some c => (s.xTimerGenericCommand r.timer c).map fun x =>
        if x.1 then { x.2.without r with calls := { r with sent := some s.queued } :: (x.2.without r).calls }
        else x.2.without r
  | some _ => some ((s.without r).finish r)

end Sys

inductive Act
  | tick
  /-- `esp_timer_create` at the address `timer`, with a callback or with nil -/
  | create (caller : Caller) (timer : ℕ) (callback : Bool)
  | call (caller : Caller) (timer : ℕ) (call : Call)
  | advance (r : Running)
  | daemon
  deriving DecidableEq

namespace Sys

/-- One step of a party. -/
def step (s : Sys) : Act → Option Sys
  | .tick => if s.suspended then none else some { s with xTickCount := s.xTickCount + 1 }
  | .create c t callback =>
    if s.canCall c ∧ (s.objs t).block = .unused then
      some { s.setObj t ⟨callback, .init, .live⟩ with period := Function.update s.period t 100 }
    else none
  | .call c t call =>
    if s.canCall c ∧ (s.objs t).block ≠ .unused then
      some { s with calls := ⟨c, t, call, none⟩ :: s.calls }
    else none
  | .advance r =>
    if r ∈ s.calls ∧ (r.caller = .daemon ∨ !s.suspended) then s.callStep r else none
  | .daemon => s.daemonStep

def Step (s : Sys) (a : Act) (s' : Sys) : Prop := s.step a = some s'

/-- The scheduler has started and no timer was created. -/
def boot (uxLength : ℕ) : Sys := { uxLength }

end Sys

end Esp8266Sdk.Timer
