import Esp8266Sdk.Timer.Model

/-! One timer seen alone. A step of the system is an event of the timer, or none
of its business, and the timers' views step as a transition system of their own,
in which the invariants are proved. -/

namespace Esp8266Sdk.Timer

/-- What a system holds of one timer. -/
@[ext] structure View where
  /-- in one of the daemon's lists -/
  active : Bool
  /-- the commands for the timer: the one the daemon is executing, then those in the queue -/
  pend : List Message
  /-- the daemon is executing a command for the timer -/
  taken : Bool
  /-- where `esp_timer_callback` stands, when the daemon is in it for the timer -/
  cb : Option Wrapper
  calls : List Running
  obj : Obj
  hist : History

/-- What a step of the system is to one timer. -/
inductive Event
  | other
  | create (callback : Bool)
  | call (r : Running)
  /-- a call sends its command as the message `m` -/
  | send (r : Running) (m : Message)
  /-- a call returns -1 -/
  | fail (r : Running)
  /-- a call writes the object and returns 0 -/
  | finish (r : Running)
  /-- the daemon receives a command -/
  | take
  | execute
  /-- the daemon executes a reset whose time is over and calls the callback -/
  | overdue
  | expire
  /-- the user callback returns -/
  | back
  /-- `esp_timer_callback` reads the state -/
  | read
  | stamp
  | wrapperSend (m : Message)
  /-- a send of `esp_timer_callback` is refused -/
  | refused
  /-- `esp_timer_callback` writes or deallocates the object -/
  | write

/-- The command that `esp_timer_callback` is about to send. -/
def Wrapper.command : Wrapper → Option Command
  | .sendReset time => some (.reset time)
  | .sendStop => some .stop
  | .sendDelete => some .delete
  | _ => none

/-- What `esp_timer_callback` goes on with after a send. -/
def Wrapper.next : Wrapper → Option Wrapper
  | .sendStop => some .writeStop
  | .sendDelete => some .dealloc
  | _ => none

/-- What `esp_timer_callback` does for a state. -/
def TimerState.wrapper : TimerState → Option Wrapper
  | .cycle => some .stamp
  | .once => some .sendStop
  | .delete => some .sendDelete
  | _ => none

/-- `esp_timer_callback` accesses the object as it sends: it reads `os_timer` (for a reset it has done so). -/
def History.wrapperSend (h : History) (o : Obj) : Wrapper → History
  | .sendReset _ => h
  | _ => h.access o

/-- The commands that put a timer in a list. -/
def Command.arms : Command → Bool
  | .reset _ => true
  | .changePeriod _ => true
  | _ => false

/-- The object after a call. -/
def Call.write : Call → Obj → Obj
  | .startOnce _, o => { o with state := .once }
  | .startPeriodic _, o => { o with state := .cycle }
  | .stop, o => { o with state := .stop }
  | .delete, o => { o with block := .freed }

def Call.note : Call → Obj → History → History
  | .delete, o, h => h.free o
  | _, _, h => h

/-- A change of period becomes the source of the expiries. -/
def History.execute (h : History) (m : Message) : History :=
  match m.command with
  | .changePeriod _ => { h with source := m.no }
  | _ => h

namespace History

variable (h : History) (o : Obj) (c : Command) (pc : Wrapper) (m : Message) (k : Call) (f : Fault) (b : Bool)

@[simp] theorem fired_note : (h.note f b).fired = h.fired := by unfold note; split <;> rfl
@[simp] theorem fired_access : (h.access o).fired = h.fired := h.fired_note ..
@[simp] theorem fired_free : (h.free o).fired = h.fired := h.fired_note ..
@[simp] theorem fired_queue : (h.queue c).fired = h.fired := h.fired_note ..
@[simp] theorem fired_wrapperSend : (h.wrapperSend o pc).fired = h.fired := by cases pc <;> first | rfl | exact h.fired_note ..
@[simp] theorem fired_execute : (h.execute m).fired = h.fired := by unfold execute; split <;> rfl
@[simp] theorem fired_callNote : (k.note o h).fired = h.fired := by cases k <;> first | rfl | exact h.fired_note ..
@[simp] theorem fired_enter : (h.enter o).fired = h.source :: h.fired := rfl

@[simp] theorem source_note : (h.note f b).source = h.source := by unfold note; split <;> rfl
@[simp] theorem source_access : (h.access o).source = h.source := h.source_note ..
@[simp] theorem source_free : (h.free o).source = h.source := h.source_note ..
@[simp] theorem source_queue : (h.queue c).source = h.source := h.source_note ..
@[simp] theorem source_wrapperSend : (h.wrapperSend o pc).source = h.source := by
  cases pc <;> first | rfl | exact h.source_note ..
@[simp] theorem source_callNote : (k.note o h).source = h.source := by cases k <;> first | rfl | exact h.source_note ..

end History

namespace View

/-- Enter `esp_timer_callback`. -/
def enter (v : View) : View :=
  { v with cb := some (if v.obj.callback then .user else .tail), hist := v.hist.enter v.obj }

def without (v : View) (r : Running) : List Running := v.calls.filter (· ≠ r)

/-- The steps of one timer. -/
inductive Step (v : View) : Event → View → Prop
  | other : Step v .other v
  | create {callback : Bool} (h : v.obj.block = .unused) :
      Step v (.create callback) { v with obj := ⟨callback, .init, .live⟩ }
  | call {r : Running} (h : v.obj.block ≠ .unused) (hr : r.sent = none) :
      Step v (.call r) { v with calls := r :: v.calls }
  | send {r : Running} {m : Message} (h : r ∈ v.calls) (hr : r.sent = none)
      (hm : r.call.command = some m.command) :
      Step v (.send r m) { v with
        calls := { r with sent := some m.no } :: v.without r
        pend := v.pend ++ [m]
        hist := v.hist.queue m.command }
  | fail {r : Running} (h : r ∈ v.calls) (hr : r.sent = none) : Step v (.fail r) { v with calls := v.without r }
  | finish {r : Running} (h : r ∈ v.calls) (hr : r.sent.isSome) :
      Step v (.finish r) { v with
        calls := v.without r
        obj := r.call.write v.obj
        hist := r.call.note v.obj v.hist }
  | take {m : Message} {rest : List Message} (h : v.pend = m :: rest) (ht : v.taken = false) (hc : v.cb = none) :
      Step v .take { v with active := false, taken := true }
  | execute {m : Message} {rest : List Message} (h : v.pend = m :: rest) (ht : v.taken = true) (hc : v.cb = none) :
      Step v .execute { v with
        active := v.active || m.command.arms
        pend := rest
        taken := false
        hist := v.hist.execute m }
  | overdue {m : Message} {rest : List Message} {time : UInt32} (h : v.pend = m :: rest) (ht : v.taken = true)
      (hc : v.cb = none) (hm : m.command = .reset time) :
      Step v .overdue { v with pend := rest, taken := false }.enter
  | expire (h : v.active = true) (hc : v.cb = none) : Step v .expire { v with active := false }.enter
  | back (h : v.cb = some .user) : Step v .back { v with cb := some .tail }
  | read (h : v.cb = some .tail) :
      Step v .read { v with cb := v.obj.state.wrapper, hist := v.hist.access v.obj }
  | stamp {time : UInt32} (h : v.cb = some .stamp) :
      Step v .stamp { v with cb := some (.sendReset time), hist := v.hist.access v.obj }
  | wrapperSend {pc : Wrapper} {m : Message} (h : v.cb = some pc) (hm : pc.command = some m.command) :
      Step v (.wrapperSend m) { v with
        cb := pc.next
        pend := v.pend ++ [m]
        hist := (v.hist.wrapperSend v.obj pc).queue m.command }
  | refused {pc : Wrapper} (h : v.cb = some pc) (hm : pc.command ≠ none) :
      Step v .refused { v with cb := pc.next, hist := v.hist.wrapperSend v.obj pc }
  | writeStop (h : v.cb = some .writeStop) :
      Step v .write { v with cb := none, obj := { v.obj with state := .stop }, hist := v.hist.access v.obj }
  | dealloc (h : v.cb = some .dealloc) :
      Step v .write { v with cb := none, obj := { v.obj with block := .freed }, hist := v.hist.free v.obj }

end View

/-! ### The views of a system -/

/-- The command that the daemon is executing. -/
def Daemon.executing : Daemon → Option Message
  | .received m => some m
  | .switchReceived _ m => some m
  | .callback (.switchReceived _ m) _ _ => some m
  | _ => none

/-- Where `esp_timer_callback` stands for `t`. -/
def Daemon.inCallback (t : ℕ) : Daemon → Option Wrapper
  | .callback _ u pc => if u = t then some pc else none
  | _ => none

/-- A call on `t` that meets `P` begins. -/
def Act.begins (t : ℕ) (P : Call → Bool) : Act → Bool
  | .call _ u c => u = t && P c
  | _ => false

namespace Sys

variable (s : Sys) (t : ℕ)

/-- The commands that are not executed, oldest first. -/
def pending : List Message := s.daemon.executing.toList ++ s.queue

def active : Bool := (s.current ++ s.overflow).any (·.2 = t)

def view : View where
  active := s.active t
  pend := s.pending.filter (·.timer = t)
  taken := s.daemon.executing.any (·.timer = t)
  cb := s.daemon.inCallback t
  calls := s.calls.filter (·.timer = t)
  obj := s.objs t
  hist := s.hist t

/-- The execution of `m` at `now`, to the timer of `m`. -/
def executeEvent (m : Message) (now : UInt32) : Event :=
  match m.command with
  | .reset time =>
    if (s.prvInsertTimerInActiveList m.timer (time + s.period m.timer) now time).1 then .overdue else .execute
  | _ => .execute

/-- The send of `c`. -/
def sendEvent (c : Command) (done : Message → Event) (failed : Event) : Event :=
  if s.queue.length < s.uxLength then done ⟨s.queued, t, c⟩ else failed

def wrapperEvent (pc : Wrapper) : Event :=
  match pc with
  | .user => .back
  | .tail => .read
  | .stamp => .stamp
  | .writeStop => .write
  | .dealloc => .write
  | .sendReset time => s.sendEvent t (.reset time) .wrapperSend .refused
  | .sendStop => s.sendEvent t .stop .wrapperSend .refused
  | .sendDelete => s.sendEvent t .delete .wrapperSend .refused

/-- The timer that a step of the daemon is about, and what it is to that timer. -/
def daemonEvent : Option (ℕ × Event) :=
  match s.daemon with
  | .top =>
    match s.current with
    | [] => none
    | x :: _ => if s.xTickCount < s.xLastTime ∨ s.xTickCount < x.1 then none else some (x.2, .expire)
  | .receive =>
    match s.queue with
    | [] => none
    | m :: _ => some (m.timer, .take)
  | .received m =>
    if s.xTickCount < s.xLastTime then none else some (m.timer, s.executeEvent m s.xTickCount)
  | .switchBlock =>
    match s.current with
    | [] => none
    | x :: _ => some (x.2, .expire)
  | .switchReceived now m =>
    match s.current with
    | [] => some (m.timer, s.executeEvent m now)
    | x :: _ => some (x.2, .expire)
  | .callback _ u pc => some (u, s.wrapperEvent u pc)

def callEvent (r : Running) : Event :=
  match r.sent with
  | none =>
    match r.call.command with
    | none => .fail r
    | some c => s.sendEvent r.timer c (.send r) (.fail r)
  | some _ => .finish r

/-- The timer that a step is about, and what it is to that timer. -/
def about : Act → Option (ℕ × Event)
  | .tick => none
  | .create _ u callback => some (u, .create callback)
  | .call c u call => some (u, .call ⟨c, u, call, none⟩)
  | .advance r => some (r.timer, s.callEvent r)
  | .daemon => s.daemonEvent

/-- What a step is to the timer `t`. -/
def event (a : Act) : Event :=
  match s.about a with
  | some (u, e) => if u = t then e else .other
  | none => .other

/-! ### Where the daemon stands -/

section

variable (t u : ℕ) (m : Message) (now : UInt32) (site : Site) (pc : Wrapper)

@[simp] theorem executing_top : Daemon.top.executing = none := rfl
@[simp] theorem executing_receive : Daemon.receive.executing = none := rfl
@[simp] theorem executing_received : (Daemon.received m).executing = some m := rfl
@[simp] theorem executing_switchBlock : Daemon.switchBlock.executing = none := rfl
@[simp] theorem executing_switchReceived : (Daemon.switchReceived now m).executing = some m := rfl
@[simp] theorem executing_callback : (Daemon.callback site u pc).executing = site.back.executing := by
  cases site <;> rfl

@[simp] theorem inCallback_top : Daemon.top.inCallback t = none := rfl
@[simp] theorem inCallback_receive : Daemon.receive.inCallback t = none := rfl
@[simp] theorem inCallback_received : (Daemon.received m).inCallback t = none := rfl
@[simp] theorem inCallback_switchBlock : Daemon.switchBlock.inCallback t = none := rfl
@[simp] theorem inCallback_switchReceived : (Daemon.switchReceived now m).inCallback t = none := rfl
@[simp] theorem inCallback_back : site.back.inCallback t = none := by cases site <;> rfl
@[simp] theorem inCallback_callback : (Daemon.callback site u pc).inCallback t = if u = t then some pc else none := rfl

end

/-! ### The lists -/

variable {s t} {u : ℕ}

theorem any_vListInsert (x : UInt32 × ℕ) (l : List (UInt32 × ℕ)) (p : UInt32 × ℕ → Bool) :
    (vListInsert x l).any p = (p x || l.any p) := by
  induction l with
  | nil => simp [vListInsert]
  | cons y l ih =>
    rw [vListInsert]
    split
    · simp only [List.any_cons, ih]
      exact Bool.or_left_comm ..
    · rfl

theorem active_uxListRemove_self (s : Sys) (t : ℕ) : (s.uxListRemove t).active t = false := by
  simp [active, uxListRemove]

theorem active_uxListRemove_of_ne (s : Sys) (h : t ≠ u) : (s.uxListRemove u).active t = s.active t := by
  have (l : List (UInt32 × ℕ)) : (l.filter (·.2 ≠ u)).any (·.2 = t) = l.any (·.2 = t) := by
    rw [List.any_filter]
    congr 1
    funext x
    by_cases hx : x.2 = t <;> simp [hx, h]
  simp only [active, uxListRemove, List.any_append, this]

@[simp] theorem active_exchange (s : Sys) (t : ℕ) : s.exchange.active t = s.active t := by
  simp [active, exchange, Bool.or_comm]

/-- The insertion changes the lists only. A timer that is not processed now is put in one. -/
theorem insert_eq (s : Sys) (u : ℕ) (next now time : UInt32) :
    ∃ c o, (s.prvInsertTimerInActiveList u next now time).2 = { s with current := c, overflow := o } ∧
      ∀ t, (c ++ o).any (·.2 = t) =
        (s.active t || (decide (u = t) && !(s.prvInsertTimerInActiveList u next now time).1)) := by
  simp only [prvInsertTimerInActiveList]
  split_ifs
  · exact ⟨_, _, rfl, by simp [active]⟩
  · refine ⟨_, _, rfl, fun t => ?_⟩
    simp only [active, List.any_append, any_vListInsert, Bool.not_false, Bool.and_true]
    grind
  · exact ⟨_, _, rfl, by simp [active]⟩
  · refine ⟨_, _, rfl, fun t => ?_⟩
    simp only [active, List.any_append, any_vListInsert, Bool.not_false, Bool.and_true]
    grind

/-- A change of period inserts the timer. -/
theorem insert_of_change (s : Sys) (t : ℕ) (now : UInt32) (h : s.period t ≠ 0) :
    (s.prvInsertTimerInActiveList t (now + s.period t) now now).1 = false := by
  have hself : now - now = 0 := by simp
  have h0 : ¬ s.period t ≤ now - now := by
    rw [hself, UInt32.le_iff_toNat_le]
    intro hle
    exact h (UInt32.toNat_inj.mp (by simpa using hle))
  have hlt : ¬ (now < now ∧ now ≤ now + s.period t) := fun hn => by simp at hn
  simp only [prvInsertTimerInActiveList, if_neg h0, if_neg hlt]
  split_ifs <;> rfl

end Sys

end Esp8266Sdk.Timer
