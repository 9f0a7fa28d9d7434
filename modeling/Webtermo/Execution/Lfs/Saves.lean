import Webtermo.Execution.Lfs.State
import Webtermo.Library.Run
import Webtermo.Library.Script
import Webtermo.Objects.Structures

-- The files on the flash, and the functions of `logger.c` that add to the log files
namespace Lfs

open Script (Outcome)

structure File where
  content : Bytes
  stamp   : Option Stamp
  deriving DecidableEq

-- An open `lfs_file_t`. The file gets `data` when the handle is synchronized or closed.
structure OpenFile where
  path  : Bytes
  data  : Bytes
  pos   : Nat
  dirty : Bool
  erred : Bool

structure Disk where
  files   : Bytes → Option File
  lfsfile : Option OpenFile

-- `LFS_ERR_NOMEM`
def errNomem : Int := -12

-- A new file is on the disk from its open on, even if there is no memory for its cache then.
def Disk.fileOpen (d : Disk) (path : Bytes) (flags : Flags) (r : Int) : Outcome Disk :=
  match d.lfsfile, d.files path with
  | some _, _      => .asserts
  | none, some f =>
    .done <| if r < 0 then d else { d with lfsfile := some ⟨path, f.content, 0, false, false⟩ }
  | none, none   =>
    let made := Function.update d.files path (some ⟨[], none⟩)
    if flags ≠ .rdwrCreat then if r < 0 then .done d else .impossible
    else if r = errNomem then .done { d with files := made }
    else if r < 0 then .done d
    else .done ⟨made, some ⟨path, [], 0, false, false⟩⟩

def OpenFile.seek (o : OpenFile) (off : Int) (whence : Whence) (r : Int) : OpenFile :=
  if r < 0 then o
  else { o with pos := match whence with
    | .seekSet => off.toNat
    | .seekEnd => (o.data.length + off).toNat }

def OpenFile.write (o : OpenFile) (buffer : Bytes) (r : Int) : OpenFile :=
  if r < 0 then { o with erred := true }
  else { o with
    data  := o.data.take o.pos ++ buffer ++ o.data.drop (o.pos + buffer.length)
    pos   := o.pos + buffer.length
    dirty := true
    erred := false
  }

-- After an error nothing more is done for the handle.
def Disk.fileSync (d : Disk) (o : OpenFile) (r : Int) : Disk :=
  if o.erred then d
  else if r < 0 then { d with lfsfile := some { o with erred := true } }
  else if o.dirty then {
    files   := Function.update d.files o.path <| (d.files o.path).map ({ · with content := o.data })
    lfsfile := some { o with dirty := false }
  }
  else d

def Disk.setattr (d : Disk) (path : Bytes) (stamp : Stamp) (r : Int) : Disk :=
  if r < 0 then d
  else { d with files := Function.update d.files path <| (d.files path).map ({ · with stamp }) }

-- littlefs asserts that the handle is open.
def Disk.withFile (d : Disk) (f : OpenFile → Disk) : Outcome Disk :=
  match d.lfsfile with
  | none   => .asserts
  | some o => .done (f o)

-- The functions below have no other handle than `lfsfile`.
def Disk.perform (d : Disk) : Call × Int → Outcome Disk
  | (.fileOpen _ path flags, r)  => d.fileOpen path flags r
  | (.fileClose _, r)            => d.withFile fun o => { d.fileSync o r with lfsfile := none }
  | (.fileSeek _ off whence, r)  => d.withFile fun o => { d with lfsfile := o.seek off whence r }
  | (.fileWrite _ buffer, r)     => d.withFile fun o => { d with lfsfile := o.write buffer r }
  | (.fileSync _, r)             => d.withFile fun o => d.fileSync o r
  | (.setattr path stamp, r)     => .done <| d.setattr path stamp r
  | (.fileRead .., _)            => d.withFile fun _ => d
  | (.dirOpen _, _) | (.dirRewind _, _) | (.dirRead _, _) | (.dirClose _, _) | (.getattr _, _)
  | (.stat _, _) | (.fsSize, _)  => .done d

-- What `getDate` gives of the year and the month
structure Month where
  godina  : Nat
  mjesec  : Nat
  century : godina < 100
  year    : 1 ≤ mjesec ∧ mjesec ≤ 12
  deriving DecidableEq

inductive Log
  | temp
  | haccp
  | alarm
  deriving DecidableEq

-- The name of a log file, and the header that it is created with
def createName (letter : Char) (columns : String) (m : Month) : Bytes × Bytes :=
  let mjesec : List Nat :=
    if m.mjesec < 10 then ['0'.toNat, m.mjesec + 0x30] else ['1'.toNat, m.mjesec + 0x26]
  ((letter.toNat :: mjesec).map (·.toUInt8) ++ ascii (toString m.godina) ++ ascii ".CSV",
    ascii "MJESEC;" ++ ascii (toString m.mjesec) ++ ascii ";GODINA;" ++
      ascii (toString (m.godina + 2000)) ++ ascii columns)

def sensorColumns : String :=
  ";;\r\nDATUM;VRIJEME;SENZOR1;SENZOR2;SENZOR3;SENZOR4;SENZOR5;SENZOR6;SENZOR7;SENZOR8\r\n"

def createDatName   := createName 'T' sensorColumns
def createHaccpName := createName 'H' sensorColumns
def createAlarmName := createName 'A' ";\r\nDATUM;VRIJEME;SENZOR;TEMPERATURA;TIP\r\n"

def Log.create : Log → Month → Bytes × Bytes
  | temp  => createDatName
  | haccp => createHaccpName
  | alarm => createAlarmName

-- The log file of a month
structure Key where
  log   : Log
  month : Month
  deriving DecidableEq

def Key.fname (k : Key) : Bytes :=
  (k.log.create k.month).1

def Key.header (k : Key) : Bytes :=
  (k.log.create k.month).2

-- `SaveTemp` and `SaveHaccp` with the texts of the sensors that are enabled, and `SaveAlarm`
inductive Save
  | temp (ttoa : Fin 8 → Bytes)
  | haccp (ttoa : Fin 8 → Bytes)
  | alarm (name ttoa : Bytes) (type : UInt8)

def Save.log : Save → Log
  | temp _    => .temp
  | haccp _   => .haccp
  | alarm _ _ _ => .alarm

structure Saving where
  save    : Save
  month   : Month
  datum   : Nat
  sat     : Nat
  minuta  : Nat
  sekunda : Nat

def Saving.key (v : Saving) : Key :=
  ⟨v.save.log, v.month⟩

def Saving.dsave (v : Saving) : Bytes :=
  ascii (toString v.datum) ++ ascii ";" ++ ascii (toString v.sat) ++ ascii ":" ++
    ascii (toString v.minuta) ++ ascii ":" ++ ascii (toString v.sekunda) ++ ascii ";" ++
    (match v.save with
    | .temp ttoa | .haccp ttoa => (List.ofFn fun k => ttoa k ++ ascii ";").flatten
    | .alarm name ttoa type    => name ++ ascii ";" ++ ttoa ++ ascii ";" ++
      (if type = Alarm.hi then ascii "VISOKA TEMPERATURA;"
      else if type = Alarm.low then ascii "NISKA TEMPERATURA;"
      else [])) ++
    ascii "\r\n"

structure Results where
  create : CreateResults
  append : AppendResults

def Saving.calls (v : Saving) (r : Results) : Calls :=
  lfsCreate r.create v.key.fname v.key.header ++ lfsAppend r.append v.key.fname v.dsave

structure State where
  disk   : Disk
  -- the function that is running, with the calls that it has yet to make
  saving : Option (Saving × Results)
  todo   : Calls
  -- An assertion of littlefs has failed.
  halted : Bool

def State.init (files : Bytes → Option File) : State where
  disk   := ⟨files, none⟩
  saving := none
  todo   := []
  halted := false

inductive Event
  | save (v : Saving) (r : Results)
  -- the next call, or the return after the last one
  | next

inductive Obs
  -- the files before and after a call of littlefs
  | called (before after : Bytes → Option File)
  | returned (v : Saving) (r : Results)

def device : Machine State Event Obs where
  step s
    | .save v r =>
      if s.saving.isNone then some ({ s with saving := (v, r), todo := v.calls r }, []) else none
    | .next     =>
      match s.halted, s.saving, s.todo with
      | true, _, _               => none
      | false, none, _           => none
      | false, some (v, r), []   => some ({ s with saving := none }, [.returned v r])
      | false, some _, c :: todo =>
        match s.disk.perform c with
        | .impossible => none
        | .asserts    => some ({ s with halted := true }, [])
        | .done disk  => some ({ s with disk, todo }, [.called s.disk.files disk.files])

end Lfs
