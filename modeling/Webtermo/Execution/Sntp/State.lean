import Webtermo.Library.Paged
import Webtermo.Library.Calendar
import Webtermo.Objects.Define

open Define Calendar

namespace Sntp

-- What is used of `struct tm`
structure Tm where
  sec  : Nat
  min  : Nat
  hour : Nat
  mday : Nat
  mon  : Nat
  year : Nat
  wday : Nat

-- The UTC calendar of the C library, for the seconds since the beginning of 1970
def localtime (t : Nat) : Tm :=
  let d := Date.ofDays (t / 86400)
  {
    sec  := t % 60
    min  := t % 3600 / 60
    hour := t % 86400 / 3600
    mday := d.day
    mon  := d.month - 1
    year := d.year - 1900
    wday := d.weekday
  }

-- `RTC_t`
structure Rtc where
  year  : UInt16
  month : UInt8
  mday  : UInt8
  wday  : UInt8
  hour  : UInt8
  min   : UInt8
  sec   : UInt8
  dst   : UInt8

def isDST (t : Rtc) : Bool :=
  if t.month < 3 || 10 < t.month then
    false
  else if 25 ≤ (t.mday.toNat : Int) - t.wday.toNat && (t.wday ≠ 0 || 2 ≤ t.hour) then
    t.month ≠ 10
  else
    t.month ≠ 3

def daysInMonth : List UInt8 :=
  [31, 29, 31, 30, 31, 30, 31, 31, 30, 31, 30, 31]

def adjustDST (t : Rtc) : Rtc :=
  if isDST t then
    let hour := t.hour + 1
    if hour = 24 then
      let wday := t.wday + 1
      let last := daysInMonth.getD (t.month.toNat - 1) 0
      { t with
        month := if t.mday = last then t.month + 1 else t.month
        mday  := (if t.mday = last then 0 else t.mday) + 1
        wday  := if wday = 7 then 0 else wday
        hour  := 0
        dst   := 1
      }
    else
      { t with hour, dst := 1 }
  else
    { t with dst := 0 }

-- `RTC_DateTypeDef` and `RTC_TimeTypeDef`, in the binary format
structure RtcDate where
  year    : UInt8
  month   : UInt8
  date    : UInt8
  weekDay : UInt8
  deriving DecidableEq

structure RtcTime where
  hours   : UInt8
  minutes : UInt8
  seconds : UInt8
  deriving DecidableEq

def Rtc.ofTm (t : Tm) : Rtc where
  year  := t.year.toUInt16
  month := t.mon.toUInt8
  mday  := t.mday.toUInt8
  wday  := t.wday.toUInt8
  hour  := t.hour.toUInt8
  min   := t.min.toUInt8
  sec   := t.sec.toUInt8
  dst   := 0

-- The time that the zone shifts `ltime` to. A time before 1970 is not modelled.
def shifted (timezone : UInt8) (ltime : Nat) : Option Nat :=
  if 20 < timezone then
    let shiftTime : UInt16 := ((timezone.toNat - 20) * 3600).toUInt16
    if shiftTime.toNat ≤ ltime then some (ltime - shiftTime.toNat) else none
  else
    let shiftTime : UInt16 := (timezone.toNat * 3600).toUInt16
    some (ltime + shiftTime.toNat)

-- What `RTC_SetDate` and `RTC_SetTime` are given
def sntpSetSystemTime (m : Memory) (ltime : Nat) : Option (Memory × RtcDate × RtcTime) := do
  let ltime ← shifted (m eeTimeZone) ltime
  let tm  := localtime ltime
  let rtc := Rtc.ofTm { tm with mon := tm.mon + 1, year := tm.year + 1900 }
  let dst := m eeDstState = 1
  let m   := if dst then m.writePage 64 eeDstActive [if isDST rtc then 1 else 0] else m
  let rtc := if dst then adjustDST rtc else rtc
  some (m, ⟨(rtc.year - 2000).toUInt8, rtc.month, rtc.mday, rtc.wday⟩, ⟨rtc.hour, rtc.min, rtc.sec⟩)

-- The seconds from 1900 to 1970
def diffSec : UInt32 := 2208988800

-- The seconds of the timestamp, in the byte order of the host
def sntpProcess (m : Memory) (xmitSec : UInt32) : Option (Memory × RtcDate × RtcTime) :=
  sntpSetSystemTime m (xmitSec - diffSec).toNat

end Sntp
