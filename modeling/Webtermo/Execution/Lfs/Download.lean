import Webtermo.Execution.Lfs.Saves
import Webtermo.Library.CString

-- `fs_open`, `fs_read` and `fs_read_custom` of `fs.c` for a log file, while other functions change it
namespace Lfs

open Script (Outcome)

-- What follows a name that is taken back by a `..` behind it
def takenBack : Nat → List Bytes → Option (List Bytes)
  | _,     []      => none
  | depth, n :: ns =>
    if n = ascii ".." then if depth = 1 then some ns else takenBack (depth - 1) ns
    else takenBack (depth + 1) ns

-- The names in a path that `lfs_dir_find` looks for
def lookedFor : Nat → List Bytes → List Bytes
  | 0,     _       => []
  | _,     []      => []
  | k + 1, n :: ns =>
    if n = ascii "." ∨ n = ascii ".." then lookedFor k ns
    else
      match takenBack 1 ns with
      | some ns => lookedFor k ns
      | none    => n :: lookedFor k ns

-- A path without what littlefs skips in it
def resolve (path : Bytes) : Bytes :=
  let ns := (path.splitOn 47).filter (· ≠ [])
  (ascii "/").intercalate <| lookedFor ns.length ns

-- `lfs_remove`
def Disk.remove (d : Disk) (path : Bytes) (r : Int) : Outcome Disk :=
  if r < 0 then .done d
  else if (d.files path).isSome then .done { d with files := Function.update d.files path none }
  else .impossible

-- The bytes that `lfs_file_read` finds from the position on
def OpenFile.ahead (o : OpenFile) (size : UInt32) : Bytes :=
  (o.data.drop o.pos).take size.toNat

-- A call of littlefs, and the buffer that `lfs_file_read` reads into. When it fails it may have written
-- anything to the buffer.
def Disk.performRead (junk : Nat → UInt8) (d : Disk × Bytes) (c : Call × Int) :
    Outcome (Disk × Bytes) :=
  match d.1.perform c with
  | .impossible => .impossible
  | .asserts    => .asserts
  | .done d₁    =>
    match c with
    | (.fileRead _ size, r) =>
      let data := (d.1.lfsfile.map (·.ahead size)).getD []
      if r < 0 then .done (d₁, (List.range d.2.length).map junk)
      else if r = data.length then .done (d₁, data ++ d.2.drop data.length)
      else .impossible
    | _                     => .done (d₁, d.2)

namespace Download

-- `fs_file`. The data are those of a file in the flash, or an empty text.
structure FsFile where
  data         : Bytes
  len          : Nat
  index        : Nat
  fname        : CString 32
  isCustomFile : Bool
  deriving DecidableEq

structure State where
  disk   : Disk
  -- `fsinfo.size`
  size   : Nat
  file   : Option FsFile
  -- An assertion of littlefs has failed.
  halted : Bool

-- What littlefs answers in `fs_open`. The file is closed again there.
structure OpenResults where
  opencfg : Int
  stat    : Int
  close   : Int

inductive Event
  | fsOpen (name : Bytes) (r : OpenResults)
  -- with what is in the buffer
  | fsRead (buffer : Bytes) (count : buffer.length < 2 ^ 31) (r : ReadResults) (junk : Nat → UInt8)
  | lfsAppend (r : AppendResults) (fname ibuf : Bytes)
  | lfsCreate (r : CreateResults) (fname ibuf : Bytes)
  -- `DelFile0`
  | lfsRemove (r : Int) (fname : Bytes)

inductive Obs
  -- with what there is to read
  | opened (content : Bytes)
  | delivered (count : Nat) (bytes : Bytes)
  | eof
  -- An assertion has failed while the file was read.
  | stopped
  deriving DecidableEq

-- The last part of `fs_open`, for a name that is none of a page, with the files in the flash
def fsOpen (flash : Bytes → Option Bytes) (s : State) (name : Bytes) (r : OpenResults) :
    Option (State × List Obs) := do
  let fname ← CString.strcpy name
  if r.opencfg < 0 then
    match flash name with
    | some d =>
      some ({ s with file := some ⟨d, d.length, d.length, fname, false⟩ }, [Obs.opened []])
    | none   => some ({ s with file := none }, [])
  else
    let f    ← s.disk.files <| resolve name.tail
    let size ← if r.stat < 0 then some s.size
      else (s.disk.files <| resolve name).map (·.content.length)
    some ({ s with size, file := some ⟨[], size, 0, fname, true⟩ }, [Obs.opened f.content])

-- What `fs_read` does for a file
def fsRead (s : State) (file : FsFile) (buffer : Bytes) (r : ReadResults) (junk : Nat → UInt8) :
    Option (State × List Obs) :=
  if file.index = file.len then some (s, [.eof])
  else if file.isCustomFile then
    if file.index < file.len then
      let read := min (file.len - file.index) buffer.length
      match Script.run (Disk.performRead junk) (s.disk, buffer)
        (lfsRead r (resolve file.fname.bytes) file.index read.toUInt32) with
      | .impossible           => none
      | .asserts              => some ({ s with halted := true }, [.stopped])
      | .done (disk, buffer₁) =>
        some ({ s with disk, file := some { file with index := file.index + read } },
          [.delivered buffer.length (buffer₁.take read)])
    else some (s, [.eof])
  else
    let read := min (file.len - file.index) buffer.length
    let data := (file.data.drop file.index).take read
    if data.length = read then
      some ({ s with file := some { file with index := file.index + read } },
        [.delivered buffer.length data])
    else none

def change (s : State) : Outcome Disk → Option (State × List Obs)
  | .impossible => none
  | .asserts    => some ({ s with halted := true }, [])
  | .done disk  => some ({ s with disk }, [])

def server (flash : Bytes → Option Bytes) : Machine State Event Obs where
  step s e :=
    if s.halted then none else
      match e with
      | .fsOpen name r          => fsOpen flash s name r
      | .fsRead buffer _ r junk => s.file.bind fun file => fsRead s file buffer r junk
      | .lfsAppend r fname ibuf =>
        change s <| Script.run Disk.perform s.disk <| lfsAppend r (resolve fname) ibuf
      | .lfsCreate r fname ibuf =>
        change s <| Script.run Disk.perform s.disk <| lfsCreate r (resolve fname) ibuf
      | .lfsRemove r fname      => change s <| s.disk.remove (resolve fname) r

def State.init (files : Bytes → Option File) : State where
  disk   := ⟨files, none⟩
  size   := 0
  file   := none
  halted := false

end Download

end Lfs
