import Webtermo.Execution.Config.State

open Define

namespace Config

def xmlTag (name : String) : Bytes :=
  ascii ("<" ++ name ++ ">")

def on : Bytes := ascii "ON"

def saveNet : List Cmd := [
  .mark,
  .ip (xmlTag "IP") eeIp,
  .ip (xmlTag "SUB") eeSubnet,
  .ip (xmlTag "ROUT") eeGateway,
  .ip (xmlTag "DNS") eeDns,
  .int (xmlTag "HTTP") eeHttpPort,
  .naziv (xmlTag "NAZIV") eeObjectName,
  .int (xmlTag "ALARMPORT") eeAlarmPort,
  .ip (xmlTag "ALARMIP") eeAlarmIp
]

def saveSms : List Cmd := [
  .ip (xmlTag "IP") eeGsmIp,
  .int (xmlTag "PORT") eeGsmPort,
  .string (xmlTag "UNAME") eeGsmUname,
  .string (xmlTag "PASS") eeGsmPass,
  .string (xmlTag "GSM1") eeGsm1Num,
  .string (xmlTag "GSM2") (eeGsm1Num + 0x20),
  .string (xmlTag "GSM3") (eeGsm1Num + 0x40),
  .string (xmlTag "GSM4") (eeGsm1Num + 0x60),
  .string (xmlTag "GSM5") (eeGsm1Num + 0x80),
  .string (xmlTag "NAME1") eeGsm1Name,
  .string (xmlTag "NAME2") (eeGsm1Name + 0x20),
  .string (xmlTag "NAME3") (eeGsm1Name + 0x40),
  .string (xmlTag "NAME4") (eeGsm1Name + 0x60),
  .string (xmlTag "NAME5") (eeGsm1Name + 0x80)
]

def saveWApp : List Cmd := [
  .number (xmlTag "NUMBER1") eeWapp1Num,
  .string (xmlTag "KEY1") eeWapp1Key,
  .string (xmlTag "NAME1") eeWapp1Name,
  .number (xmlTag "NUMBER2") (eeWapp1Num + 0x80),
  .string (xmlTag "KEY2") (eeWapp1Key + 0x80),
  .string (xmlTag "NAME2") (eeWapp1Name + 0x80),
  .number (xmlTag "NUMBER3") (eeWapp1Num + 0x100),
  .string (xmlTag "KEY3") (eeWapp1Key + 0x100),
  .string (xmlTag "NAME3") (eeWapp1Name + 0x100),
  .number (xmlTag "NUMBER4") (eeWapp1Num + 0x180),
  .string (xmlTag "KEY4") (eeWapp1Key + 0x180),
  .string (xmlTag "NAME4") (eeWapp1Name + 0x180),
  .number (xmlTag "NUMBER5") (eeWapp1Num + 0x200),
  .string (xmlTag "KEY5") (eeWapp1Key + 0x200),
  .string (xmlTag "NAME5") (eeWapp1Name + 0x200)
]

def sensor (snum : Fin 8) : List Cmd :=
  let eeBlock := 0x100 * (snum.val + 1)
  [
    .text (xmlTag "NAME") (eeBlock + eeSensorName),
    .code (xmlTag "SERIALNUM") (eeBlock + eeSensorCode) snum,
    .temp (xmlTag "LOWLIMIT") (eeBlock + eeLowAlarm) (some <| .lowLimit snum),
    .temp (xmlTag "HIGHLIMIT") (eeBlock + eeHighAlarm) (some <| .highLimit snum),
    .temp (xmlTag "HIST") (eeBlock + eeHist) (some <| .his snum),
    .int16 (xmlTag "DELAY") (eeBlock + eeDelay) (.delay snum),
    .kalib (xmlTag "KALIB") (eeBlock + eeCalib) snum,
    .switch (xmlTag "ENABLE") (eeBlock + eeSensorActive) on 1 0 (some <| .enble snum),
    .switch (xmlTag "MTYPE") (eeBlock + eeMeasureType) (ascii "MKT") 1 0 none,
    .flag (xmlTag "WAPP1") .wapp 0,
    .flag (xmlTag "WAPP2") .wapp 1,
    .flag (xmlTag "WAPP3") .wapp 2,
    .flag (xmlTag "WAPP4") .wapp 3,
    .flag (xmlTag "WAPP5") .wapp 4,
    .temp (xmlTag "KANAL") (eeBlock + eeChannel) (some <| .kanal snum),
    .flag (xmlTag "SMS1") .sms 0,
    .flag (xmlTag "SMS2") .sms 1,
    .flag (xmlTag "SMS3") .sms 2,
    .flag (xmlTag "SMS4") .sms 3,
    .flag (xmlTag "SMS5") .sms 4,
    .flush .wapp (eeBlock + eeWapp1On),
    .flush .sms (eeBlock + eeSms1)
  ]

-- `scansetup` is set by both periods.
def saveSample : List Cmd := [
  .switch (xmlTag "CHECK") eeStatusSend on 1 0 none,
  .int16 (xmlTag "REPORT") eeStatusTime .scansetup,
  .int16 (xmlTag "LOGTIME") eeScanTime .scansetup
]

def pass : List Cmd := [
  .base64 (xmlTag "PASS") eePass,
  .base64 (xmlTag "UNAME") eeUsername
]

def saveSNTP : List Cmd := [
  .string (xmlTag "SNTP1") eeSntp1,
  .string (xmlTag "SNTP2") eeSntp2,
  .zona (xmlTag "ZONA") eeTimeZone,
  .switch (xmlTag "SENAB") eeSntpState on 1 0 (some .sntpon),
  .switch (xmlTag "DST") eeDstState on 1 0 (some .dston)
]

-- The third delay is put into `dinput[1]`.
def saveInput : List Cmd := [
  .string (xmlTag "NAME1") eeInputName1,
  .string (xmlTag "NAME2") (eeInputName1 + 0x20),
  .string (xmlTag "NAME3") (eeInputName1 + 0x40),
  .switch (xmlTag "ALARM1") eeInputAlarm1 on 1 0 (some <| .enable 0),
  .switch (xmlTag "ALARM2") (eeInputAlarm1 + 1) on 1 0 (some <| .enable 1),
  .switch (xmlTag "ALARM3") (eeInputAlarm1 + 2) on 1 0 (some <| .enable 2),
  .switch (xmlTag "TIP1") eeInputTip1 (ascii "NC") 1 2 (some <| .type 0),
  .switch (xmlTag "TIP2") (eeInputTip1 + 1) (ascii "NC") 1 2 (some <| .type 1),
  .switch (xmlTag "TIP3") (eeInputTip1 + 2) (ascii "NC") 1 2 (some <| .type 2),
  .flag (xmlTag "WAPP1") .wapp 0,
  .flag (xmlTag "WAPP2") .wapp 1,
  .flag (xmlTag "WAPP3") .wapp 2,
  .flag (xmlTag "WAPP4") .wapp 3,
  .flag (xmlTag "WAPP5") .wapp 4,
  .flag (xmlTag "SMS1") .sms 0,
  .flag (xmlTag "SMS2") .sms 1,
  .flag (xmlTag "SMS3") .sms 2,
  .flag (xmlTag "SMS4") .sms 3,
  .flag (xmlTag "SMS5") .sms 4,
  .flush .wapp eeInputWapp1,
  .flush .sms eeInputSms1,
  .int16 (xmlTag "DELAY1") eeInputDelay1 (.inputDelay 0),
  .int16 (xmlTag "DELAY2") (eeInputDelay1 + 2) (.inputDelay 1),
  .int16 (xmlTag "DELAY3") (eeInputDelay1 + 4) (.inputDelay 1)
]

def saveMQTT : List Cmd := [
  .switch (xmlTag "ENABLE") eeMqttEnable on 1 0 none,
  .text (xmlTag "SERVER") eeMqttServer,
  .int (xmlTag "PORT") eeMqttPort,
  .text (xmlTag "USERNAME") eeMqttUname,
  .text (xmlTag "PASS") eeMqttPass,
  .text (xmlTag "TOPIC") eeMqttTopic,
  .temp (xmlTag "KEEPALIVE") eeMqttKeepalive none,
  .temp (xmlTag "QOS") eeMqttQos none,
  .temp (xmlTag "PERIOD") eeMqttPeriod none
]

inductive Handler
  | saveNet | saveSms | saveWApp
  | sensor (k : Fin 8)
  | saveSample | pass | saveSNTP | saveInput | saveMQTT
  deriving DecidableEq

def Handler.cmds : Handler → List Cmd
  | saveNet    => Config.saveNet
  | saveSms    => Config.saveSms
  | saveWApp   => Config.saveWApp
  | sensor k   => Config.sensor k
  | saveSample => Config.saveSample
  | pass       => Config.pass
  | saveSNTP   => Config.saveSNTP
  | saveInput  => Config.saveInput
  | saveMQTT   => Config.saveMQTT

def handlers : List Handler :=
  [Handler.saveNet, .saveSms, .saveWApp, .saveSample, .pass, .saveSNTP, .saveInput, .saveMQTT] ++
    (List.finRange 8).map .sensor

theorem mem_handlers (h : Handler) : h ∈ handlers := by
  cases h <;> simp [handlers]

end Config
