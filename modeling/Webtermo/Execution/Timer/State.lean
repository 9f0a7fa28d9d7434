import Webtermo.Library.Run

-- `timer.c`: the tick of the system and the timers that are measured with it
namespace Timers

structure Timer where
  start    : UInt32
  interval : UInt32
  deriving DecidableEq

structure State where
  timex     : UInt32
  localTime : UInt32
  sysTyck   : UInt32
  i2cTimer  : UInt32
  deriving DecidableEq

-- Both sides of the comparison are converted to `int`.
def timerExpired (s : State) (t : Timer) : Bool :=
  t.interval.toInt32 ≤ (s.timex - t.start).toInt32

def timerSet (s : State) (interval : UInt32) : Timer where
  interval := interval
  start    := s.timex

def incrementTimer (s : State) : State where
  timex     := s.timex + 1
  localTime := s.localTime + 10
  sysTyck   := s.sysTyck + 1
  i2cTimer  := if s.i2cTimer = 0 then 0 else s.i2cTimer + 1

-- The counters together with the timers of the program
structure System (ι : Type*) where
  counters : State
  timer    : ι → Timer

def System.expired (s : System ι) (i : ι) : Bool :=
  timerExpired s.counters (s.timer i)

inductive Event (ι : Type*)
  -- the interrupt of SysTick
  | tick
  | timerSet (i : ι) (interval : UInt32)
  -- The I2C driver starts and stops its own counter.
  | i2cTimer (v : UInt32)
  deriving DecidableEq

def device (ι : Type*) [DecidableEq ι] : Machine (System ι) (Event ι) Empty where
  step s
    | .tick                => some ({ s with counters := incrementTimer s.counters }, [])
    | .timerSet i interval =>
      some ({ s with timer := Function.update s.timer i (timerSet s.counters interval) }, [])
    | .i2cTimer v          => some ({ s with counters := { s.counters with i2cTimer := v } }, [])

end Timers
