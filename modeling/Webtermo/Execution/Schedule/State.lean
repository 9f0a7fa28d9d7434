import Webtermo.Library.Run

-- What the main loop does at its times: the timers of lwIP, the log of the temperatures and the
-- HACCP log. Minutes are counted from the midnight of some day.

namespace Periodic

-- `TCPTimer` and `ARPTimer`
inductive Timer
  | tcp
  | arp
  deriving DecidableEq

-- `TCP_TMR_INTERVAL` and `ARP_TMR_INTERVAL`, in milliseconds
def Timer.interval : Timer → UInt32
  | tcp => 250
  | arp => 1000

structure State where
  localTime : UInt32
  timer     : Timer → UInt32

def State.init : State where
  localTime := 0
  timer     := fun _ => 0

inductive Event
  -- the interrupt of SysTick, once a millisecond
  | tick
  -- `LwIP_Periodic_Handle(LocalTime)`
  | pass

inductive Obs
  | tick
  -- whether the pass has called `tcp_tmr` and `etharp_tmr`
  | pass (called : Timer → Bool)

def incrementTimer (s : State) : State :=
  { s with localTime := s.localTime + 10 }

def State.due (s : State) (tm : Timer) : Bool :=
  tm.interval ≤ s.localTime - s.timer tm

def lwIPPeriodicHandle (s : State) : State :=
  { s with timer := fun tm => if s.due tm then s.localTime else s.timer tm }

def device : Machine State Event Obs where
  step s
    | .tick => some (incrementTimer s, [.tick])
    | .pass => some (lwIPPeriodicHandle s, [.pass s.due])

end Periodic

def minuteOfHour (m : Nat) : Nat :=
  m % 60

def hourOfDay (m : Nat) : Nat :=
  m / 60 % 24

namespace Scan

-- Whether `ptSaveTemp` has yielded and waits for `scanflag`
inductive Pt
  | start
  | waiting
  deriving DecidableEq

structure State where
  oldmin   : Nat
  scanflag : Bool
  pt       : Pt

-- `main` before its loop, at the minute that the clock shows
def State.init (m : Nat) (pt : Pt) : State where
  oldmin   := minuteOfHour m
  scanflag := false
  pt       := pt

-- The minutes at which `CheckScanTime` sets `scanflag`
def due (scansetup oldmin hr mn : Nat) : Bool :=
  match scansetup with
  | 5   => [1, 6, 11, 16, 21, 26, 31, 36, 41, 46, 51, 56].contains mn && oldmin != mn
  | 10  => [1, 11, 21, 31, 41, 51].contains mn && oldmin != mn
  -- There is no `break` at the end of this case.
  | 15  => ([1, 16, 31, 46].contains mn && oldmin != mn) || ([1, 31].contains mn && oldmin != mn)
  | 30  => [1, 31].contains mn && oldmin != mn
  | 60  => oldmin == 0 && mn == 1
  | 120 => [0, 2, 4, 6, 8, 10, 12, 14, 16, 18, 20, 22].contains hr && (oldmin == 0 && mn == 1)
  | 240 => [0, 4, 8, 12, 16, 20].contains hr && (oldmin == 0 && mn == 1)
  | 360 => [0, 6, 12, 18].contains hr && (oldmin == 0 && mn == 1)
  | _   => false

def checkScanTime (scansetup : Nat) (s : State) (m : Nat) : State where
  oldmin   := minuteOfHour m
  scanflag := s.scanflag || due scansetup s.oldmin (hourOfDay m) (minuteOfHour m)
  pt       := s.pt

-- The second component says whether `SaveTemp` has been called.
def ptSaveTemp (s : State) : State × Bool :=
  match s.pt with
  | .start   => ({ s with pt := .waiting }, false)
  | .waiting => if s.scanflag then ({ s with scanflag := false, pt := .start }, true) else (s, false)

-- A pass of the main loop at a minute, with the call that it has made
structure Pass where
  minute : Nat
  saved  : Bool
  deriving DecidableEq

def device (scansetup : Nat) : Machine State Nat Pass where
  step s m :=
    let (s, saved) := ptSaveTemp (checkScanTime scansetup s m)
    some (s, [⟨m, saved⟩])

end Scan

namespace Haccp

structure State where
  -- The main loop runs, and has not been left for the loop in which `Check4hour` waits for the reset.
  up          : Bool
  oldResetMin : Nat
  oldHaccpMin : Nat

def State.off : State where
  up          := false
  oldResetMin := 0
  oldHaccpMin := 0

def State.init (m : Nat) : State where
  up          := true
  oldResetMin := minuteOfHour m
  oldHaccpMin := minuteOfHour m

inductive Event
  -- a pass of the main loop, with the minutes that `Check4hour` and `CheckHaccpScan` read
  | pass (m n : Nat)
  -- `main` reads the clock after a reset.
  | boot (m : Nat)

inductive Obs
  | boot (m : Nat)
  | reset (m : Nat)
  | saveHaccp (m : Nat)
  deriving DecidableEq

def check4hour (s : State) (m : Nat) : State × List Obs :=
  if minuteOfHour m = 59 ∧ s.oldResetMin ≠ minuteOfHour m ∧
      hourOfDay m ∈ [1, 5, 9, 13, 17, 21] then
    ({ s with up := false }, [.reset m])
  else
    ({ s with oldResetMin := minuteOfHour m }, [])

def checkHaccpScan (s : State) (m : Nat) : State × List Obs :=
  ({ s with oldHaccpMin := minuteOfHour m },
    if minuteOfHour m = 0 ∧ s.oldHaccpMin ≠ minuteOfHour m ∧
        hourOfDay m ∈ [6, 10, 14, 18, 22] then
      [.saveHaccp m]
    else
      [])

def pass (s : State) (m n : Nat) : State × List Obs :=
  let (s, o) := check4hour s m
  if s.up then checkHaccpScan s n else (s, o)

def device : Machine State Event Obs where
  step s
    | .pass m n => if s.up then some (pass s m n) else none
    | .boot m   => if s.up then none else some (.init m, [.boot m])

end Haccp
