import Webtermo.Execution.Wapp.Step

-- The digital inputs: `ScanInputs`, its two threads and their loop in `ptAlarmDelay`
namespace Input

-- The two kinds of contacts, normally closed and normally open
inductive Contact
  | nc
  | no
  deriving DecidableEq

def Contact.active (din : UInt8) : Contact → Bool
  | nc => din = 0
  | no => 0 < din

-- Where the threads resume. They share `pt_Input1NO`, and every place belongs to one of them.
inductive PtInput1
  | start
  | yielded (c : Contact)
  | waitOn (c : Contact)
  | debounceOn (c : Contact)
  | waitOff (c : Contact)
  | debounceOff (c : Contact)
  deriving DecidableEq

-- `timex` counts the ticks since the boot, so that `Timex` is its lower 32 bits.
structure State where
  timex       : Nat
  dinput      : Fin 3 → DInput
  delayIn     : Fin 3 → UInt32
  ptInput1    : PtInput1
  input1Timer : Nat

-- The number of ticks that an input is debounced for
@[simp] def debounce : Nat := 100

-- `timer_expired`, which takes the difference of the ticks for an `int`
def State.expired (s : State) : Bool :=
  let elapsed := (s.timex - s.input1Timer) % 2 ^ 32
  elapsed < 2 ^ 31 ∧ debounce ≤ elapsed

def State.goto (s : State) (loc : PtInput1) : State :=
  { s with ptInput1 := loc }

def State.timerSet (s : State) : State :=
  { s with input1Timer := s.timex }

-- The alarm of the first input and its word in the NVRAM are always written together.
def State.setAlarm (s : State) (v : UInt8) : State :=
  { s with
    dinput  := Function.update s.dinput 0 { s.dinput 0 with alarm := v }
    delayIn := Function.update s.delayIn 0 v.toUInt32
  }

namespace Contact

variable (c : Contact) (din : UInt8) (s : State)

-- The thread from each of its waits on, with the values that it writes for the alarm
def debounceOff : State × List UInt8 :=
  if ¬s.expired then (s.goto <| .debounceOff c, [])
  else if ¬c.active din then ((s.setAlarm 0).goto .start, [0])
  else (s.goto .start, [])

def waitOff : State × List UInt8 :=
  if c.active din then (s.goto <| .waitOff c, []) else debounceOff c din s.timerSet

def debounceOn : State × List UInt8 :=
  if ¬s.expired then (s.goto <| .debounceOn c, [])
  else if c.active din then
    let (s₁, w) := waitOff c din <| s.setAlarm 1
    (s₁, 1 :: w)
  else (s.goto .start, [])

def waitOn : State × List UInt8 :=
  if c.active din then debounceOn c din s.timerSet else (s.goto <| .waitOn c, [])

-- In a place of the other thread, the body is left out and the thread ends.
def thread : State × List UInt8 :=
  if s.ptInput1 = .start then (s.goto <| .yielded c, [])
  else if s.ptInput1 = .yielded c ∨ s.ptInput1 = .waitOn c then waitOn c din s
  else if s.ptInput1 = .debounceOn c then debounceOn c din s
  else if s.ptInput1 = .waitOff c then waitOff c din s
  else if s.ptInput1 = .debounceOff c then debounceOff c din s
  else (s.goto .start, [])

end Contact

def ptInput1NC (din₁ : UInt8) (s : State) : State × List UInt8 :=
  Contact.thread .nc din₁ s

def ptInput1NO (din₁ : UInt8) (s : State) : State × List UInt8 :=
  Contact.thread .no din₁ s

-- A scan: the levels of the pins, the state before and after it, and what it writes for the alarm of
-- the first input
structure Obs where
  din    : Fin 3 → UInt8
  before : State
  after  : State
  writes : List UInt8

def scanInputs (s : State) (din : Fin 3 → UInt8) : State × List UInt8 :=
  let s := { s with dinput := fun i => { s.dinput i with state := din i } }
  if (s.dinput 0).enable = 1 ∧ (s.dinput 0).type = 2 then ptInput1NO (din 0) s
  else if (s.dinput 0).enable = 1 ∧ (s.dinput 0).type = 1 then ptInput1NC (din 0) s
  else (s, [])

-- The second loop of `ptAlarmDelay`
def ptAlarmDelay (s : State) : State :=
  { s with delayIn := fun i => (Wapp.delayTurn (s.delayIn i) (s.dinput i).delay).1 }

-- A save handler can set these fields of `dinput[i]`.
def saveInput (s : State) (i : Fin 3) (enable type : UInt8) (delay : UInt16) : State :=
  { s with dinput := Function.update s.dinput i { s.dinput i with enable, type, delay } }

inductive Event
  | elapse (ticks : Nat)
  | scan (din : Fin 3 → UInt8)
  | alarmDelay
  | post (i : Fin 3) (enable type : UInt8) (delay : UInt16)

def device : Machine State Event Obs where
  step s
    | .elapse ticks               => some ({ s with timex := s.timex + ticks }, [])
    | .scan din                   =>
      let (s₁, writes) := scanInputs s din
      some (s₁, [⟨din, s, s₁, writes⟩])
    | .alarmDelay                 => some (ptAlarmDelay s, [])
    | .post i enable type delay   => some (saveInput s i enable type delay, [])

end Input
