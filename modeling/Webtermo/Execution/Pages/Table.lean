import Webtermo.Execution.Pages.State

open Define
open Config (sensorBlock eeRead16)

namespace Pages

inductive Page
  | disk0 | mreza | time | sntp | logfile
  | sensor (k : Fin 8)
  | home | code | online | sms | credit | startcredit | smsstatus | sample | haccp | ok | ulazi
  | input | wapp | mqtt | onlineinput
  deriving DecidableEq, Fintype

-- A tag with a number at its end
def numbered (tag : String) (k : Fin n) : Bytes :=
  ascii tag ++ dec (k.val + 1)

-- A number of the clock with what follows it
def field (c : Clock → UInt8) (sep : String) : (Env → Answers → UInt16) × Bytes :=
  (fun s _ => (c s.clock).toUInt16, ascii sep)

def year (sep : String) : (Env → Answers → UInt16) × Bytes :=
  (fun s _ => s.clock.godina.toUInt16 + 2000, ascii sep)

namespace Value

def const (text : String) : Value :=
  oneOf [ascii text] fun _ _ => 0

def choice (f : Env → Bool) (yes no : String) : Value :=
  oneOf [ascii yes, ascii no] fun s _ => if f s then 0 else 1

def flag (addr : Nat) : Value :=
  choice (fun s => s.eeprom addr ≠ 0) "ON" "OFF"

def byte (f : Env → UInt8) : Value :=
  number fun s _ => (f s).toUInt32

def word (addr : Nat) : Value :=
  number fun s _ => (eeRead16 s.eeprom addr).toUInt32

def stat (k : Fin 8) : Value :=
  oneOf [ascii "OK", ascii "ERROR", ascii "DISABLE"] fun s _ =>
    if (s.senzor k).enble ≠ 0 then if s.state k = 1 then 0 else 1 else 2

def alarm (k : Fin 8) : Value :=
  oneOf [ascii "ALHIGH", ascii "ALLOW", ascii "NONE"] fun s _ =>
    if (s.senzor k).state = Alarm.hi then 0 else if (s.senzor k).state = Alarm.low then 1 else 2

-- `LONGtoIP`
def ip (addr : Nat) : Value :=
  fields [(fun s _ => (s.eeprom addr).toUInt16, ascii "."),
    (fun s _ => (s.eeprom (addr + 1)).toUInt16, ascii "."),
    (fun s _ => (s.eeprom (addr + 2)).toUInt16, ascii "."),
    (fun s _ => (s.eeprom (addr + 3)).toUInt16, [])]

def delay (f : Env → UInt16 × UInt32) : Value :=
  fields [(fun s _ => (Pages.delay (f s).1 (f s).2).1, ascii ":"),
    (fun s _ => (Pages.delay (f s).1 (f s).2).2.1, ascii ":"),
    (fun s _ => (Pages.delay (f s).1 (f s).2).2.2, [])]

-- `filedatetostr` and `filetimetostr`
def fileDate (t : Lfs.FileTime) : Value :=
  fields [(fun _ _ => t.date.toUInt16, ascii "."), (fun _ _ => t.month.toUInt16, ascii "."),
    (fun _ _ => t.year, [])]

def fileTime (t : Lfs.FileTime) : Value :=
  fields [(fun _ _ => t.hour.toUInt16, ascii ":"), (fun _ _ => t.min.toUInt16, ascii ":"),
    (fun _ _ => t.sec.toUInt16, [])]

-- `temp_to_ascii`
def celsius (t : Env → ℚ) : Value :=
  ftoa (fun s _ => some <| t s) 2

end Value

-- The parts that several pages have in common
namespace Part

def dinfo : List Part :=
  [.openTag (ascii "DINFO"),
    .printed (ascii "FREE") .lstr <| .number fun s _ => s.freesect / 1024,
    .printed (ascii "SIZE") .lstr <| .number fun s _ => s.totsect / 1024,
    .closeTag (ascii "DINFO")]

def senzor : List Part :=
  [.openTag (ascii "SENZOR")] ++
  (List.finRange 8).flatMap (fun k => [
    .stored (numbered "SEN" k) .tbuf (sensorBlock k + eeSensorName) 16,
    .value (numbered "LOW" k) <| .temp fun s _ => (s.senzor k).lowLimit,
    .value (numbered "HIGH" k) <| .temp fun s _ => (s.senzor k).highLimit]) ++
  [.closeTag (ascii "SENZOR")]

-- The flags of the five recipients
def flags (wapp sms : Nat) : List Part :=
  [.eeRead .rBuf (fun _ _ => sms) 5, .eeRead .rBuf (fun _ _ => wapp) 5] ++
  (List.finRange 5).map (fun i => .value (numbered "WAPP" i) <| .flag (wapp + i)) ++
  (List.finRange 5).map (fun i => .value (numbered "SMS" i) <| .flag (sms + i))

end Part

-- An entry of `XMLDisk`, and one of `XMLLogfile` and `XMLHaccp`, which list the names with one letter
def Info.disk (e : Info) : List Part :=
  if e.reg then
    [.openTag (ascii "LF"), .name (ascii "NM") e.name,
      .printed (ascii "SZ") .lstr <| .number fun _ _ => e.size,
      .printed (ascii "DT") .lstr <| .fileDate e.filetime,
      .printed (ascii "TM") .lstr <| .fileTime e.filetime,
      .closeTag (ascii "LF")]
  else
    []

def Info.log (letter : UInt8) (e : Info) : List Part :=
  if e.reg ∧ e.name.head? = some letter then
    [.openTag (ascii "LF"), .name (ascii "LOG") e.name, .closeTag (ascii "LF")]
  else
    []

namespace Page

-- The tag that a page is opened and closed with
def root : Page → Bytes
  | disk0          => ascii "DISK0"
  | mreza          => ascii "IPMODULA"
  | time           => ascii "TIME"
  | sntp           => ascii "SNTP"
  | logfile        => ascii "LOGFILE"
  | sensor _       => ascii "SENSOR"
  | home           => ascii "STATUSI"
  | code           => ascii "DSCODE"
  | online         => ascii "ONLINE"
  | sms            => ascii "SMS"
  | credit         => ascii "CREDIT"
  | startcredit    => ascii "STARTCREDIT"
  | smsstatus      => ascii "SMS"
  | sample         => ascii "SAMPLE"
  | haccp          => ascii "LOGFILE"
  | ok             => ascii "STATE"
  | ulazi          => ascii "ULAZI"
  | input          => ascii "INPUT"
  | wapp           => ascii "WHATSAPP"
  | mqtt           => ascii "MQTT"
  | onlineinput    => ascii "ONLINE"

-- The parts between these tags, without the entries of a directory
def body : Page → List Part
  | disk0       => Part.dinfo
  | mreza       => [
    .printed (ascii "IP") .tmpBuf <| .ip eeIp,
    .printed (ascii "MAC") .tmpBuf .mac,
    .printed (ascii "SUB") .tmpBuf <| .ip eeSubnet,
    .printed (ascii "ROUT") .tmpBuf <| .ip eeGateway,
    .printed (ascii "DNS") .tmpBuf <| .ip eeDns,
    .printed (ascii "HTTP") .tmpBuf <| .word eeHttpPort,
    .stored (ascii "NAZIV") .twiBuf eeObjectName 32,
    .printed (ascii "ALARMIP") .tmpBuf <| .ip eeAlarmIp,
    .printed (ascii "ALARMPORT") .tmpBuf <| .word eeAlarmPort]
  | time        => [
    .printed (ascii "HOUR") .tmpBuf <| .fields [field Clock.sat ""],
    .printed (ascii "MIN") .tmpBuf <| .fields [field Clock.minuta ""],
    .printed (ascii "SEC") .tmpBuf <| .fields [field Clock.sekunda ""],
    .printed (ascii "DATE") .tmpBuf <| .fields [field Clock.datum ""],
    .printed (ascii "MONTH") .tmpBuf <| .fields [field Clock.mjesec ""],
    .printed (ascii "YEAR") .tmpBuf <| .fields [year ""],
    .printed (ascii "DAY") .tmpBuf <| .fields [field Clock.dan ""]]
  | sntp        => [
    .value (ascii "DST") <| .flag eeDstState,
    .value (ascii "SENAB") <| .flag eeSntpState,
    .value (ascii "DSTSTATE") <| .byte fun s => s.eeprom eeDstActive,
    .stored (ascii "SNTP1") .tbuf eeSntp1 32,
    .stored (ascii "SNTP2") .tbuf eeSntp2 32,
    .value (ascii "ZONA") <| .byte fun s => s.eeprom eeTimeZone]
  | logfile     => Part.senzor ++ Part.dinfo
  | sensor k    => [
    .value (ascii "LOWLIMIT") <| .temp fun s _ => (s.senzor k).lowLimit,
    .value (ascii "HIGHLIMIT") <| .temp fun s _ => (s.senzor k).highLimit,
    .value (ascii "HIST") <| .temp fun s _ => (s.senzor k).his.toInt8,
    .printed (ascii "KALIB") .lstr <| .ftoa (fun s _ => floatVal (s.senzor k).kalibracija) 1,
    .value (ascii "ENABLE") <| .choice (fun s => (s.senzor k).enble = 1) "ON" "OFF",
    .clear .lstr 30,
    .printed (ascii "SERIALNUM") .lstr <| .code fun s _ => (s.senzor k).code,
    .stored (ascii "NAME") .lstr (sensorBlock k + eeSensorName) 32,
    .value (ascii "KANAL") <| .temp fun s _ => (s.senzor k).kanal.toInt8,
    .value (ascii "MTYPE") <|
      .choice (fun s => s.eeprom (sensorBlock k + eeMeasureType) = 1) "MKT" "AVERAGE",
    .value (ascii "DELAY") <| .word (sensorBlock k + eeDelay)] ++
    Part.flags (sensorBlock k + eeWapp1On) (sensorBlock k + eeSms1)
  | home        => [
    .printed (ascii "FREE") .lstr <| .number fun _ ans => ans.free / 1000,
    .printed (ascii "SIZE") .lstr <| .number fun _ ans => ans.total / 1000,
    .stored (ascii "NAME") .rBuf eeObjectName 32,
    .printed (ascii "DATUM") .lstr <| .fields [field Clock.datum ".", field Clock.mjesec ".",
      year "  |  ", field Clock.sat ":", field Clock.minuta ":", field Clock.sekunda ""],
    .value (ascii "VERZIJA") <| .const "VER-3.0 01082023"] ++
    (List.finRange 8).flatMap fun k => [
      .stored (numbered "NAME" k) .rBuf (sensorBlock k + eeSensorName) 64,
      .value (numbered "STAT" k) <| .stat k,
      .printed (numbered "TEMP" k) .tmpBuf <| .celsius fun s => s.temp k]
  | code        => [
    .clear .lstr 30,
    .printed (ascii "CODE") .lstr <| .code fun _ ans => ans.code]
  | online      => [
    .printed (ascii "DATE") .lstr <|
      .fields [field Clock.datum "/", field Clock.mjesec "/", year ""],
    .eeRead .lstr (fun _ ans => (0x100 * (ans.cnt.toNat + 1) + eeSensorName) % 2 ^ 16) 16,
    .printed (ascii "TIME") .lstr <|
      .fields [field Clock.sat ":", field Clock.minuta ":", field Clock.sekunda ""]] ++
    (List.finRange 8).flatMap fun k => [
      .value (numbered "STAT" k) <| .stat k,
      .stored (numbered "NAME" k) .lstr (sensorBlock k + eeSensorName) 16,
      .printed (numbered "TEMP" k) .tmpBuf <| .celsius fun s => s.temp k,
      .printed (numbered "T" k ++ ascii "LOW") .tmpBuf <|
        .celsius fun s => (s.senzor k).lowLimit.toInt,
      .printed (numbered "T" k ++ ascii "HIGH") .tmpBuf <|
        .celsius fun s => (s.senzor k).highLimit.toInt,
      .value (numbered "ALARM" k) <| .alarm k,
      .printed (numbered "DELAY" k) .tmpBuf <|
        .delay fun s => ((s.senzor k).delay, s.delaySen k)]
  | sms         => [
    .printed (ascii "IP") .tmpBuf <| .ip eeGsmIp,
    .value (ascii "PORT") <| .word eeGsmPort,
    .stored (ascii "UNAME") .tbuf eeGsmUname 16,
    .stored (ascii "PASS") .tbuf eeGsmPass 16] ++
    (List.finRange 5).map (fun i => .stored (numbered "GSM" i) .tbuf (eeGsm1Num + 0x20 * i) 32) ++
    (List.finRange 5).map (fun i => .stored (numbered "NAME" i) .tbuf (eeGsm1Name + 0x20 * i) 32)
  | credit      => [.credit (ascii "STATE")]
  | startcredit => [.value (ascii "STATE") <| .const "STARTED"]
  | smsstatus   => [.credit (ascii "CREDIT"), .status (ascii "STATE")]
  | sample      => [
    .value (ascii "CHECK") <| .flag eeStatusSend,
    .value (ascii "REPORT") <| .word eeStatusTime,
    .value (ascii "LOGTIME") <| .word eeScanTime]
  | haccp       => Part.senzor
  | ok          => [.value (ascii "OK") <| .const "ok"]
  | ulazi       => (List.finRange 3).map fun i =>
    .value (numbered "IN" i) <| .choice (fun s => s.pins i) "CLOSE" "OPEN"
  | input       =>
    (List.finRange 3).map (fun i =>
      .stored (numbered "NAME" i) .lstr (eeInputName1 + 0x20 * i) 32) ++
    [.eeRead .rBuf (fun _ _ => eeInputAlarm1) 6] ++
    (List.finRange 3).map (fun i => .value (numbered "ALARM" i) <|
      .choice (fun s => s.eeprom (eeInputAlarm1 + i) = 1) "ON" "OFF") ++
    (List.finRange 3).map (fun i => .value (numbered "TIP" i) <|
      .choice (fun s => s.eeprom (eeInputAlarm1 + 3 + i) = 1) "NC" "NO") ++
    Part.flags eeInputWapp1 eeInputSms1 ++
    (List.finRange 3).map (fun i => .value (numbered "DELAY" i) <| .word (eeInputDelay1 + 2 * i))
  | wapp        => (List.finRange 5).flatMap fun i => [
    .stored (numbered "NUMBER" i) .lstr (eeWapp1Num + 0x80 * i) 32,
    .stored (numbered "KEY" i) .lstr (eeWapp1Key + 0x80 * i) 32,
    .stored (numbered "NAME" i) .lstr (eeWapp1Name + 0x80 * i) 64]
  | mqtt        => [
    .value (ascii "ENABLE") <| .flag eeMqttEnable,
    .stored (ascii "SERVER") .twiBuf eeMqttServer 64,
    .printed (ascii "PORT") .tmpBuf <| .word eeMqttPort,
    .stored (ascii "USERNAME") .twiBuf eeMqttUname 32,
    .stored (ascii "PASS") .twiBuf eeMqttPass 32,
    .stored (ascii "TOPIC") .twiBuf eeMqttTopic 64,
    .printed (ascii "KEEPALIVE") .tmpBuf <| .byte fun s => s.eeprom eeMqttKeepalive,
    .printed (ascii "QOS") .tmpBuf <| .byte fun s => s.eeprom eeMqttQos,
    .printed (ascii "PERIOD") .tmpBuf <| .byte fun s => s.eeprom eeMqttPeriod]
  | onlineinput =>
    (List.finRange 3).map (fun i =>
      .stored (numbered "IN" i ++ ascii "NAME") .lstr (eeInputName1 + 0x20 * i) 32) ++
    (List.finRange 3).map (fun i => .value (numbered "STAT" i) <|
      .choice (fun s => (s.dinput i).state = 0) "OPEN" "CLOSE") ++
    (List.finRange 3).map (fun i => .value (numbered "ALARM" i) <|
      .choice (fun s => (s.dinput i).alarm = 0) "NONE" "ALARM") ++
    (List.finRange 3).map (fun i => .printed (numbered "DELAY" i) .tmpBuf <|
      .delay fun s => ((s.dinput i).delay, s.delayIn i))

-- Whether a page lists the directory, and the parts for an entry
def lists : Page → Bool
  | disk0 | logfile | haccp => true
  | _                       => false

def entry (e : Info) : Page → List Part
  | disk0   => e.disk
  | logfile => e.log 84
  | haccp   => e.log 72
  | _       => []

def parts (p : Page) (ans : Answers) : List Part :=
  p.body ++ if p.lists then ans.listing.entries.flatMap (p.entry ·) else []

-- What is done besides. The writes to `infobip_credit` fit.
def enter (env : Env) (ans : Answers) : Page → Env
  | time | home | online | smsstatus => { env with clock := ans.clock }
  | disk0 | logfile                  => { env with totsect := ans.total, freesect := ans.free }
  | sms                              =>
    { env with credit := (env.credit.write 0 [0]).getD env.credit }
  | startcredit                      => { env with
    creditActive := true
    credit       := (env.credit.strcpy (ascii "WAIT")).getD env.credit }
  | _                                => env

end Page

-- `CreateXMLHeader`
def header : Bytes :=
  ascii "<?xml version=\"1.0\" encoding=\"ISO-8859-1\" ?>"

-- What a pointer to characters points to. Apart from NULL, these are the data of `fs_file` that
-- `fs_open` sets, and a buffer that a caller may provide.
inductive Pointer
  | null
  | xml
  | file
  | provided
  -- the register of a parameter that is not passed
  | undefined
  deriving DecidableEq

-- What a generator returns, where it copies the document to, and the calls that it has made
structure Served where
  len    : UInt16
  copied : Option Pointer
  calls  : List Xml.Piece

namespace Page

def setsXLen : Page → Bool
  | disk0 | sensor _ | input | wapp => false
  | _                               => true

-- `XMLInput` and `XMLWapp` are called without their second parameter.
def copies (xmlBuf : Pointer) : Page → Option Pointer
  | disk0        => none
  | input | wapp => some .undefined
  | _            => some xmlBuf

def generate (s : State) (ans : Answers) (xmlBuf : Pointer) (p : Page) :
    Option (State × Served) := do
  let s := { s with toEnv := p.enter s.toEnv ans, xmlBuf := ← CString.strcpy header }
  let (s, qs) ← addParts s ans (.openTag p.root :: p.parts ans)
  if p.lists ∧ ans.listing.res < 0 then
    some (s, ⟨UInt16.ofInt ans.listing.res, none, qs⟩)
  else
    let (s, rs) ← (Part.closeTag p.root).add s ans
    let n := s.xmlBuf.bytes.length
    some ({ s with xLen := if p.setsXLen then n else s.xLen },
      ⟨n.toUInt16, p.copies xmlBuf, qs ++ rs⟩)

end Page

-- The names that `fs_open` compares with, in their order
def table : List (Bytes × Page) :=
  [(ascii "/disk0.xml", .disk0), (ascii "/mreza.xml", .mreza), (ascii "/time.xml", .time),
    (ascii "/sntp.xml", .sntp), (ascii "/logfile.xml", .logfile)] ++
  (List.finRange 8).map (fun k => (numbered "/sensor" k ++ ascii ".xml", .sensor k)) ++
  [(ascii "/home.xml", .home), (ascii "/code.xml", .code), (ascii "/online.xml", .online),
    (ascii "/sms.xml", .sms), (ascii "/credit.xml", .credit),
    (ascii "/startcredit.xml", .startcredit), (ascii "/smsstatus.xml", .smsstatus),
    (ascii "/sample.xml", .sample), (ascii "/haccp.xml", .haccp), (ascii "/ok.xml", .ok),
    (ascii "/ulazi.xml", .ulazi), (ascii "/input.xml", .input), (ascii "/wapp.xml", .wapp),
    (ascii "/mqtt.xml", .mqtt), (ascii "/onlineinput.xml", .onlineinput)]

-- `fs_file`
structure File where
  data : Pointer
  len  : Int

-- The part of `fs_open` for these names, with the place that the document is copied to
def fsOpen (s : State) (ans : Answers) (file : File) (name : Bytes) :
    Option (State × File × Option Pointer) := do
  let p      ← table.lookup name
  let (s, r) ← p.generate s ans file.data
  some (s, { data := .xml, len := r.len.toNat }, r.copied)

end Pages
