import Webtermo.Execution.Pages.Table
import Webtermo.Execution.I2c.State

-- What the pages that list the files and `/code.xml` leave in littlefs and in the variables of their drivers
namespace Pages

-- `wtlfs.mlist`, the list of the files and directories that are open, `filetime`, the bytes of `tmpdir` and of
-- `tmpinfo`, `I2CTimer` and `I2C_error`
structure Files where
  mlist    : List Lfs.Handle
  filetime : Lfs.FileTime
  tmpdir   : Buffer 52
  tmpinfo  : Buffer 264
  i2cTimer : Nat
  i2cError : Bool

-- What `lfs_dir_open` returns, what littlefs leaves in `tmpdir` and in `tmpinfo`, and what the calls of
-- `DS18B20Code` meet on the bus
structure DirAnswers where
  dirOpen : Int
  tmpdir  : Buffer 52
  tmpinfo : Buffer 264
  bus     : Fin 10 → I2c.Env

-- The calls of `DS18B20Code`
def ds18b20Code : List I2c.Call :=
  .owReset 1 :: .owWriteByte 1 0x33 :: List.replicate 8 (.owReadByte 1)

-- `DS18B20Code` does not look at what its calls return.
def Files.call (fs : Files) (x : I2c.Env × I2c.Call) : Files :=
  let s := (Early.result (x.2.program x.1) (.init fs.i2cTimer fs.i2cError 0)).2
  { fs with i2cTimer := s.i2cTimer, i2cError := s.i2cError }

namespace Page

-- The directory that a page lists with
def dir : Page → Option Lfs.Handle
  | disk0 | logfile => some .wtdir
  | haccp           => some .tmpdir
  | _               => none

-- What `lfs_getattr` has read last for a regular file
def lastStamp (filetime : Lfs.FileTime) (entries : List Info) : Lfs.FileTime :=
  ((entries.filter (·.reg)).getLast?.map (·.filetime)).getD filetime

def assign (fs : Files) (ans : Answers) (d : DirAnswers) : Page → Files
  | disk0 => { fs with filetime := lastStamp fs.filetime ans.listing.entries }
  | haccp => { fs with tmpdir := d.tmpdir, tmpinfo := d.tmpinfo }
  | code  => ((List.ofFn d.bus).zip ds18b20Code).foldl Files.call fs
  | _     => fs

-- `lfs_dir_open` asserts that the directory is not open. A page goes on when it fails, and it returns without
-- `lfs_dir_close` when `lfs_dir_read` fails.
def list (fs : Files) (ans : Answers) (d : DirAnswers) (p : Page) : Option Files :=
  match p.dir with
  | none     => some <| p.assign fs ans d
  | some dir =>
    if dir ∈ fs.mlist then none
    else
      let opened := if d.dirOpen < 0 then fs.mlist else dir :: fs.mlist
      let mlist  := if ans.listing.res < 0 then opened else opened.erase dir
      some { p.assign fs ans d with mlist }

end Page

-- The answers as those that the calls of littlefs get
def Listing.reads (l : Listing) (n : Nat) : Lfs.Entry :=
  match l.entries[n]? with
  | some e => ⟨1, e.reg, e.name, 0⟩
  | none   => ⟨l.res, false, [], 0⟩

def Answers.results (ans : Answers) (d : DirAnswers) : Lfs.DirResults where
  fsSize  := ans.usedBlocks.toNat
  dirOpen := d.dirOpen
  rewind  := 0
  reads   := ans.listing.reads
  close   := 0

-- The calls that a page makes
def Page.run (r : Lfs.DirResults) (n : Nat) : Page → Lfs.Run
  | disk0   => Lfs.xmlDisk r n
  | logfile => Lfs.xmlLogfile r n
  | haccp   => Lfs.xmlHaccp r n
  | _       => ⟨[], true⟩

end Pages
