import Mathlib

-- The EEPROM map and the constants of `define.h` that the modelled code uses.
namespace Define

def eeInit         := 0x00
def eeIp           := 0x04
def eeSubnet       := 0x08
def eeGateway      := 0x0C
def eeDns          := 0x10
def eeHttpPort     := 0x14
def eeDhcpState    := 0x16
def eeDdnsState    := 0x17
def eeAlarmIp      := 0x18
def eeAlarmPort    := 0x1C
def eeUsername     := 0x20
def eePass         := 0x30
def eeDdnsHost     := 0x40
def eeObjectName   := 0x60
def eeStatusTime   := 0x87
def eeScanTime     := 0x89
def eeStatusSend   := 0x91
def eeBackupIp     := 0x92
def eeBackupPort   := 0x96
def eeBackupTime   := 0x98
def eeBackupStat   := 0x9A

-- Offsets into the block of a sensor. Sensor `k` has the block at `(k + 1) * 0x100`.
def eeSensorCode   := 0x00
def eeLowAlarm     := 0x08
def eeHighAlarm    := 0x09
def eeHist         := 0x0B
def eeSensorActive := 0x0C
def eeChannel      := 0x0D
def eeWapp1On      := 0x10
def eeSms1         := 0x20
def eeMeasureType  := 0x25
def eeDelay        := 0x26
def eeCalib        := 0x30
def eeSensorName   := 0x40

def eeSntpStart    := 0xE00
def eeDstState     := eeSntpStart + 0x00
def eeTimeZone     := eeSntpStart + 0x01
def eeSntpState    := eeSntpStart + 0x02
def eeDstActive    := eeSntpStart + 0x03
def eeSntp1        := eeSntpStart + 0x20
def eeSntp2        := eeSntpStart + 0x40

-- The numbers and names of the five recipients of an SMS follow each other.
def eeGsmStart     := 0xC00
def eeGsmIp        := eeGsmStart + 0x000
def eeGsmPort      := eeGsmStart + 0x004
def eeGsmUname     := eeGsmStart + 0x040
def eeGsmPass      := eeGsmStart + 0x050
def eeGsm1Num      := eeGsmStart + 0x060
def eeGsm1Name     := eeGsmStart + 0x100

def eeWappStart    := 0x1100
def eeWapp1Num     := eeWappStart + 0x000
def eeWapp1Key     := eeWappStart + 0x020
def eeWapp1Name    := eeWappStart + 0x040

def eeInputStart   := 0x1000
def eeInputName1   := eeInputStart + 0x00
def eeInputAlarm1  := eeInputStart + 0x60
def eeInputTip1    := eeInputStart + 0x63
def eeInputWapp1   := eeInputStart + 0x66
def eeInputSms1    := eeInputStart + 0x6B
def eeInputDelay1  := eeInputStart + 0x70

def eeMqttStart     := 0x1400
def eeMqttServer    := eeMqttStart + 0x00
def eeMqttUname     := eeMqttStart + 0x80
def eeMqttPass      := eeMqttStart + 0xA0
def eeMqttTopic     := eeMqttStart + 0xC0
def eeMqttEnable    := eeMqttStart + 0x100
def eeMqttPort      := eeMqttStart + 0x101
def eeMqttQos       := eeMqttStart + 0x103
def eeMqttKeepalive := eeMqttStart + 0x104
def eeMqttPeriod    := eeMqttStart + 0x105

-- The backup SRAM. The mean, the count and the delay of the other sensors and inputs follow those of the
-- first one.
def nvLoggerInit    := 0x04
def nvSumSen1       := 0x08
def nvCountSen1     := 0x0C
def nvMktInit       := 0x48
def nvMktCountSen1  := 0x4C
def nvMktSen1       := 0x70
def nvDelaySen1     := 0x400
def nvDelayIn1      := 0x420

end Define
