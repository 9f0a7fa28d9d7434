import Webtermo.Library.Slots
import Webtermo.Objects.Define

open Define

-- The map of the 24C128 by the start addresses of its fields. Five flags in a row are one field.
namespace Eeprom

def page := 64

def size := 0x4000

def sensorFields (block : Nat) : List Nat :=
  [eeSensorCode, eeLowAlarm, eeHighAlarm, eeHist, eeSensorActive, eeChannel, eeWapp1On, eeSms1,
    eeMeasureType, eeDelay, eeCalib, eeSensorName].map (block + ·)

def fields : List Nat :=
  [eeInit, eeIp, eeSubnet, eeGateway, eeDns, eeHttpPort, eeDhcpState, eeDdnsState, eeAlarmIp,
    eeAlarmPort, eeUsername, eePass, eeDdnsHost, eeObjectName, eeStatusTime, eeScanTime,
    eeStatusSend, eeBackupIp, eeBackupPort, eeBackupTime, eeBackupStat] ++
  (List.range 8).flatMap (fun k => sensorFields (0x100 * (k + 1))) ++
  [eeGsmIp, eeGsmPort, eeGsmUname, eeGsmPass] ++
  (List.range 5).flatMap (fun i => [eeGsm1Num + 0x20 * i, eeGsm1Name + 0x20 * i]) ++
  [eeDstState, eeTimeZone, eeSntpState, eeDstActive, eeSntp1, eeSntp2] ++
  (List.range 3).flatMap (fun i =>
    [eeInputName1 + 0x20 * i, eeInputAlarm1 + i, eeInputTip1 + i, eeInputDelay1 + 2 * i]) ++
  [eeInputWapp1, eeInputSms1] ++
  (List.range 5).flatMap (fun i =>
    [eeWapp1Num + 0x80 * i, eeWapp1Key + 0x80 * i, eeWapp1Name + 0x80 * i]) ++
  [eeMqttServer, eeMqttUname, eeMqttPass, eeMqttTopic, eeMqttEnable, eeMqttPort, eeMqttQos,
    eeMqttKeepalive, eeMqttPeriod]

-- The fields that hold a text
def textFields : List Nat :=
  [eeUsername, eePass, eeDdnsHost, eeObjectName] ++
  (List.range 8).map (fun k => 0x100 * (k + 1) + eeSensorName) ++
  [eeGsmUname, eeGsmPass] ++
  (List.range 5).flatMap (fun i => [eeGsm1Num + 0x20 * i, eeGsm1Name + 0x20 * i]) ++
  [eeSntp1, eeSntp2] ++
  (List.range 3).map (fun i => eeInputName1 + 0x20 * i) ++
  (List.range 5).flatMap (fun i =>
    [eeWapp1Num + 0x80 * i, eeWapp1Key + 0x80 * i, eeWapp1Name + 0x80 * i]) ++
  [eeMqttServer, eeMqttUname, eeMqttPass, eeMqttTopic]

-- `x` is a byte of the field at `a`.
abbrev In (a x : Nat) : Prop :=
  Slots.In fields size a x

-- The longest write to a field
abbrev room (a : Nat) : Nat :=
  Slots.room fields size page a

end Eeprom
