import Webtermo.Library.Buffer

-- `struct sensor`. The calibration is kept as the bit pattern of its `float`.
structure Sensor where
  code         : Buffer 8
  lowLimit     : Int8
  highLimit    : Int8
  his          : UInt8
  enble        : UInt8
  state        : UInt8
  kanal        : UInt8
  errorCounter : UInt8
  delay        : UInt16
  kalibracija  : UInt32
  deriving DecidableEq

instance : Inhabited Sensor := ⟨⟨default, 0, 0, 0, 0, 0, 0, 0, 0, 0⟩⟩

-- `struct digitalinput`
structure DInput where
  enable : UInt8
  type   : UInt8
  state  : UInt8
  alarm  : UInt8
  delay  : UInt16
  deriving DecidableEq, Inhabited

-- `struct sntpstruct`
structure Sntp where
  sntpon : UInt8
  dston  : UInt8
  deriving DecidableEq, Inhabited

-- `struct whatsapp`. The flags `enable1` to `enable5` only ever hold 0 or 1.
structure Whatsapp where
  msg    : Buffer 128
  enable : Fin 5 → Bool

-- The kinds of alarm: `NO_ALARM`, `ALARM_HI`, `ALARM_LOW` and `ALARM_ERR`.
namespace Alarm

@[simp] def no  : UInt8 := 0
@[simp] def hi  : UInt8 := 1
@[simp] def low : UInt8 := 2
@[simp] def err : UInt8 := 3

end Alarm
