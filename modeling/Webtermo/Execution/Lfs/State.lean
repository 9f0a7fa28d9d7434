import Webtermo.Library.Buffer
import Webtermo.Library.Handles

-- The functions that use littlefs, as the calls that they make of it. Each takes what littlefs
-- answers to the calls in it; an answer to a call that is not made has no meaning.
namespace Lfs

-- The handles that the functions give to littlefs, and those of others
inductive Handle
  | lfsfile
  | httpFile
  -- on the stack of `XMLDisk` or `XMLLogfile`
  | wtdir
  | tmpdir
  | other (n : Nat)
  deriving DecidableEq

-- `LFS_O_RDONLY`, `LFS_O_WRONLY` and `LFS_O_RDWR | LFS_O_CREAT`
inductive Flags
  | rdonly
  | wronly
  | rdwrCreat
  deriving DecidableEq

-- `LFS_SEEK_SET` and `LFS_SEEK_END`
inductive Whence
  | seekSet
  | seekEnd
  deriving DecidableEq

-- `struct _filetime`
structure FileTime where
  year  : UInt16
  month : UInt8
  date  : UInt8
  hour  : UInt8
  min   : UInt8
  sec   : UInt8
  deriving DecidableEq

-- What is stored as `ATTR_TIMESTAMP`
inductive Stamp
  -- the local `fattime` of `lfs_create`, which has no value of its own
  | fattime (w : UInt32)
  | filetime (t : FileTime)
  deriving DecidableEq

inductive Call
  | fileOpen (file : Handle) (path : Bytes) (flags : Flags)
  | fileClose (file : Handle)
  | fileSeek (file : Handle) (off : Int) (whence : Whence)
  | fileWrite (file : Handle) (buffer : Bytes)
  | fileRead (file : Handle) (size : UInt32)
  | fileSync (file : Handle)
  | dirOpen (dir : Handle)
  | dirRewind (dir : Handle)
  | dirRead (dir : Handle)
  | dirClose (dir : Handle)
  | setattr (path : Bytes) (stamp : Stamp)
  | getattr (path : Bytes)
  | stat (path : Bytes)
  | fsSize
  deriving DecidableEq

abbrev Calls := List (Call × Int)

-- An open that fails acquires nothing.
def act : Call × Int → Option (Handles.Act Handle)
  | (.fileOpen h _ _, r) | (.dirOpen h, r) => if r < 0 then none else some (.acquire h)
  | (.fileSeek h _ _, _) | (.fileWrite h _, _) | (.fileRead h _, _) | (.fileSync h, _)
  | (.dirRewind h, _) | (.dirRead h, _) => some (.use h)
  | (.fileClose h, _) | (.dirClose h, _) => some (.release h)
  | (.setattr .., _) | (.getattr _, _) | (.stat _, _) | (.fsSize, _) => none

-- The calls that a function has made, and whether it has returned
structure Run where
  calls    : Calls
  returned : Bool

def Run.acts (r : Run) : List (Handles.Act Handle) :=
  r.calls.filterMap act

structure CreateResults where
  openRdonly : Int
  openCreat  : Int
  write      : Int
  fattime    : UInt32
  setattr    : Int
  sync       : Int
  close      : Int

def lfsCreate (r : CreateResults) (fname ibuf : Bytes) : Calls :=
  (.fileOpen .lfsfile fname .rdonly, r.openRdonly) ::
    if r.openRdonly < 0 then
      [(.fileOpen .lfsfile fname .rdwrCreat, r.openCreat), (.fileWrite .lfsfile ibuf, r.write),
        (.setattr fname (.fattime r.fattime), r.setattr), (.fileSync .lfsfile, r.sync),
        (.fileClose .lfsfile, r.close)]
    else
      [(.fileClose .lfsfile, r.close)]

structure AppendResults where
  openWronly : Int
  seek       : Int
  write      : Int
  sync       : Int
  -- what `get_filetime` gets from the RTC
  filetime   : FileTime
  setattr    : Int
  close      : Int

def lfsAppend (r : AppendResults) (fname ibuf : Bytes) : Calls :=
  (.fileOpen .lfsfile fname .wronly, r.openWronly) ::
    if r.openWronly < 0 then
      [(.fileClose .lfsfile, r.close)]
    else
      [(.fileSeek .lfsfile 0 .seekEnd, r.seek), (.fileWrite .lfsfile ibuf, r.write),
        (.fileSync .lfsfile, r.sync), (.setattr fname (.filetime r.filetime), r.setattr),
        (.fileClose .lfsfile, r.close)]

structure ReadResults where
  openRdonly : Int
  seek       : Int
  read       : Int
  sync       : Int
  close      : Int

def lfsRead (r : ReadResults) (fname : Bytes) (startpos : Int) (length : UInt32) : Calls :=
  (.fileOpen .lfsfile fname .rdonly, r.openRdonly) ::
    if r.openRdonly < 0 then
      [(.fileClose .lfsfile, r.close)]
    else
      [(.fileSeek .lfsfile startpos .seekSet, r.seek), (.fileRead .lfsfile length, r.read),
        (.fileSync .lfsfile, r.sync), (.fileClose .lfsfile, r.close)]

-- What `lfs_dir_read` returns, the entry that it fills in, and what `lfs_getattr` returns for it
structure Entry where
  res     : Int
  reg     : Bool
  name    : Bytes
  getattr : Int

structure DirResults where
  fsSize  : Int
  dirOpen : Int
  rewind  : Int
  -- littlefs has an answer for every turn of a loop.
  reads   : Nat → Entry
  close   : Int

-- The loop over the entries, and the close that follows it, for as many turns. `XMLDisk` asks for the
-- time stamp of a regular file.
def readDir (dir : Handle) (stamps : Bool) (close : Int) (reads : Nat → Entry) : Nat → Run
  | 0     => ⟨[], false⟩
  | n + 1 =>
    let e := reads 0
    if e.res < 0 then
      ⟨[(.dirRead dir, e.res)], true⟩
    else if e.res = 0 then
      ⟨[(.dirRead dir, e.res), (.dirClose dir, close)], true⟩
    else
      let rest := readDir dir stamps close (fun k => reads (k + 1)) n
      let attr := if stamps ∧ e.reg then [(.getattr e.name, e.getattr)] else []
      ⟨(.dirRead dir, e.res) :: attr ++ rest.calls, rest.returned⟩

def xmlDisk (r : DirResults) (n : Nat) : Run :=
  let run := readDir .wtdir true r.close r.reads n
  { run with calls := (.fsSize, r.fsSize) :: (.dirOpen .wtdir, r.dirOpen) ::
      (.dirRewind .wtdir, r.rewind) :: run.calls }

def xmlLogfile (r : DirResults) (n : Nat) : Run :=
  let run := readDir .wtdir false r.close r.reads n
  { run with calls := (.dirOpen .wtdir, r.dirOpen) :: (.fsSize, r.fsSize) :: run.calls }

def xmlHaccp (r : DirResults) (n : Nat) : Run :=
  let run := readDir .tmpdir false r.close r.reads n
  { run with calls := (.dirOpen .tmpdir, r.dirOpen) :: run.calls }

-- The pages that `fs_open` generates without opening anything in littlefs
def generated : List String :=
  ["/mreza.xml", "/time.xml", "/sntp.xml", "/sensor1.xml", "/sensor2.xml", "/sensor3.xml",
    "/sensor4.xml", "/sensor5.xml", "/sensor6.xml", "/sensor7.xml", "/sensor8.xml", "/home.xml",
    "/code.xml", "/online.xml", "/sms.xml", "/credit.xml", "/startcredit.xml", "/smsstatus.xml",
    "/sample.xml", "/ok.xml", "/ulazi.xml", "/input.xml", "/wapp.xml", "/mqtt.xml",
    "/onlineinput.xml"]

structure OpenResults extends DirResults where
  opencfg       : Int
  stat          : Int
  closeHttpFile : Int

-- A name that is none of a page is looked for among the files, and then in the flash.
def fsOpenCustom (r : OpenResults) (name : Bytes) : Calls :=
  (.fileOpen .httpFile name.tail .rdonly, r.opencfg) ::
    if r.opencfg < 0 then
      []
    else
      [(.stat name, r.stat), (.fileClose .httpFile, r.closeHttpFile)]

def fsOpen (r : OpenResults) (name : Bytes) (n : Nat) : Run :=
  if name = ascii "/disk0.xml" then xmlDisk r.toDirResults n
  else if name = ascii "/logfile.xml" then xmlLogfile r.toDirResults n
  else if name = ascii "/haccp.xml" then xmlHaccp r.toDirResults n
  else if generated.any (name = ascii ·) then ⟨[], true⟩
  else ⟨fsOpenCustom r name, true⟩

inductive Func
  | lfsCreate (r : CreateResults) (fname ibuf : Bytes)
  | lfsAppend (r : AppendResults) (fname ibuf : Bytes)
  | lfsRead (r : ReadResults) (fname : Bytes) (startpos : Int) (length : UInt32)
  | fsOpen (r : OpenResults) (name : Bytes)
  | xmlDisk (r : DirResults)
  | xmlLogfile (r : DirResults)
  | xmlHaccp (r : DirResults)

-- A function after as many turns of its loop
def Func.run (n : Nat) : Func → Run
  | lfsCreate r fname ibuf          => ⟨Lfs.lfsCreate r fname ibuf, true⟩
  | lfsAppend r fname ibuf          => ⟨Lfs.lfsAppend r fname ibuf, true⟩
  | lfsRead r fname startpos length => ⟨Lfs.lfsRead r fname startpos length, true⟩
  | fsOpen r name                   => Lfs.fsOpen r name n
  | xmlDisk r                       => Lfs.xmlDisk r n
  | xmlLogfile r                    => Lfs.xmlLogfile r n
  | xmlHaccp r                      => Lfs.xmlHaccp r n

end Lfs
