import Webtermo.Execution.Auth.State

-- What `http_find_file`, `http_get_404_file`, `fs_open` and `httpd_post_begin` do to memory for a URI
namespace Path

open Auth (Uri root login html tables fsdata)

-- The arrays that the URI is copied to
inductive Arr
  | authenUri
  | postFunkcija
  | ekstenzija
  | fname
  | fileName
  deriving DecidableEq

-- Why a function does not come to its end as it should
inductive Stop
  -- The name is read behind its NUL.
  | reads
  | writes (a : Arr)
  -- A constant is written to.
  | constant
  -- The search for a dot goes on forever.
  | endless
  deriving DecidableEq

structure State where
  authenUri    : Buffer 100
  postFunkcija : Buffer 64
  fname        : Buffer 32
  fileName     : Buffer 32

-- What happens to be in `ekstenzija`, what `checkAuth` returns, and the names that
-- `lfs_file_opencfg` finds
structure Answers where
  ekstenzija : Buffer 10
  checkAuth  : Buffer 100 → Bool
  lfs        : Bytes → Bool

def check (a : Arr) : Option (Buffer cap) → Except Stop (Buffer cap)
  | some b => .ok b
  | none   => .error (.writes a)

-- `*(name + k)`
def charAt (name : Bytes) (k : UInt8) : Except Stop UInt8 :=
  match name[k.toNat]? with
  | some c => .ok c
  | none   => if k.toNat = name.length then .ok 0 else .error .reads

-- The search for the dot. Nothing but `k` changes in it, which has had all its values after 256 turns.
def skipToDot (name : Bytes) : Nat → UInt8 → Except Stop UInt8
  | 0,     _ => .error .endless
  | n + 1, k => do
    let c ← charAt name k
    if c = 46 then return k
    skipToDot name n (k + 1)

-- The copy of what follows. It cannot take as many turns, because `ekstenzija` has 10 bytes.
def copyEkstenzija (name : Bytes) : Nat → UInt8 → UInt8 → Buffer 10 → Except Stop (Buffer 10)
  | 0,     _, _, _ => .error .endless
  | n + 1, k, j, b => do
    let c ← charAt name k
    if c = 0 ∨ c = 40 ∨ c = 63 then check .ekstenzija <| b.write j.toNat [0]
    else copyEkstenzija name n (k + 1) (j + 1) (← check .ekstenzija <| b.write j.toNat [c])

-- The first part of `fs_open`, with the name that it leaves where `name` points to
def authenticate (ans : Answers) (s : State) (name : Bytes) (constant : Bool) :
    Except Stop Bytes := do
  if name = login then return name
  let k          ← skipToDot name 256 0
  let ekstenzija ← copyEkstenzija name 256 (k + 1) 0 ans.ekstenzija
  if ekstenzija.text 0 = some html ∧ ¬ans.checkAuth s.authenUri then
    if constant then throw .constant
    return login
  return name

-- The name of the file that is opened, if there is one
def fsOpen (ans : Answers) (s : State) (name : Bytes) (constant : Bool) :
    Except Stop (State × Option Bytes) := do
  let name ← authenticate ans s name constant
  if name ∈ tables then return (s, some name)
  let fname    ← check .fname <| s.fname.strcpy name
  let fileName ← check .fileName <| s.fileName.strcpy name
  return ({ s with fname, fileName }, if ans.lfs name.tail ∨ name ∈ fsdata then some name else none)

-- The first of these names that is found
def httpGet404File (ans : Answers) (s : State) : Except Stop (State × Option Bytes) := do
  match ← fsOpen ans s (ascii "/404.html") true with
  | (s, some file) => return (s, some file)
  | (s, none)      =>
    match ← fsOpen ans s (ascii "/404.htm") true with
    | (s, some file) => return (s, some file)
    | (s, none)      => fsOpen ans s (ascii "/404.shtml") true

-- The end of `http_find_file`, with the base of the URI
def findBase (ans : Answers) (s : State) (name : Bytes) : Except Stop (State × Option Bytes) := do
  match ← fsOpen ans s name false with
  | (s, some file) => return (s, some file)
  | (s, none)      => httpGet404File ans s

-- A URI that is `/` becomes `/login.html` where it is, so the default names are never tried.
def httpFindFile (ans : Answers) (s : State) (uri : Bytes) : Except Stop (State × Option Bytes) :=
  if uri = root then findBase ans s login
  else do
    let authenUri ← check .authenUri <| s.authenUri.strcpy uri
    findBase ans { s with authenUri } <| uri.takeWhile (· ≠ 63)

def httpdPostBegin (s : State) (uri : Bytes) : Except Stop State := do
  let postFunkcija ← check .postFunkcija <| s.postFunkcija.strcpy uri
  return { s with postFunkcija }

inductive Request
  | get (uri : Uri)
  | post (uri : Uri)

def Request.handle (ans : Answers) (s : State) : Request → Except Stop State
  | get uri  => Prod.fst <$> httpFindFile ans s uri.text
  | post uri => httpdPostBegin s uri.text

end Path
