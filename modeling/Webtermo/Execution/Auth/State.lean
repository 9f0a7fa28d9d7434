import Webtermo.Library.Run
import Webtermo.Objects.System

namespace Auth

def amp : UInt8 := 38

def colon : UInt8 := 58

-- Whether `strcmp` finds its arguments equal
def strcmpEq (a b : Bytes) : Option Bool := do
  let a ← cstr a
  let b ← cstr b
  some (a = b)

structure State where
  authenUri : Buffer 100
  username  : Buffer 25
  password  : Buffer 25

-- A C string
structure Uri where
  text        : Bytes
  nul_not_mem : 0 ∉ text

-- A request, with the bytes that then happen to lie behind `authen_uri` and on the stack
structure Request where
  uri    : Uri
  behind : Buffer 156
  tbuf   : Buffer 80

-- The comparisons of `checkAuth`. Text that leaves `ubuf` has no defined outcome.
def checkAuth.compare (tbuf : Bytes) (decodelen : Nat) (username password : Buffer 25) :
    Option Bool := do
  -- the user name ends at the first colon, wherever in `tbuf` that is
  let ubuf := tbuf.takeWhile (· ≠ colon)
  if 40 ≤ ubuf.length then none
  else if ← strcmpEq (ubuf ++ [0]) username.bytes then
    let ubuf := (tbuf.take decodelen).drop (ubuf.length + 1)
    if 40 ≤ ubuf.length then none
    else strcmpEq (ubuf ++ [0]) password.bytes
  else
    some false

-- `pbuf` is the memory from `authen_uri` on.
def checkAuth (pbuf : Bytes) (tbuf : Buffer 80) (username password : Buffer 25) : Option Bool :=
  let point1 := bufsearch pbuf 128 [amp]
  let point2 := bufsearch (pbuf.drop (point1 + 1).toNat) 128 [amp]
  let point2 := point2 + point1 + 1
  if point1 = 0 ∨ point2 < 0 then
    some false
  else
    let decoded := base64Decode ((pbuf.drop point1.toNat).take (point2 - point1).toNat) 80
    checkAuth.compare (decoded ++ tbuf.bytes.drop decoded.length) decoded.length username password

def State.checkAuth (s : State) (r : Request) : Option Bool :=
  Auth.checkAuth (s.authenUri.bytes ++ r.behind.bytes) r.tbuf s.username s.password

def login : Bytes := ascii "/login.html"

def html : Bytes := ascii "html"

-- The files that `fs_open` makes up
def tables : List Bytes :=
  ["disk0", "mreza", "time", "sntp", "logfile", "sensor1", "sensor2", "sensor3", "sensor4",
    "sensor5", "sensor6", "sensor7", "sensor8", "home", "code", "online", "sms", "credit",
    "startcredit", "smsstatus", "sample", "haccp", "ok", "ulazi", "input", "wapp", "mqtt",
    "onlineinput"].map fun name => ascii ("/" ++ name ++ ".xml")

-- The files of `fsdata.c`
def fsdata : List Bytes :=
  ["boot.htm", "code.html", "crta3.png", "demos.js", "disk0.htm", "dygraph.js", "graf.html",
    "haccp.html", "home.html", "icon_down.png", "icon_showpassword.png", "index.html",
    "input.html", "internet.html", "jebiga.html", "jquery.js", "jqxbase.css", "jqxdata.js",
    "jqxdraw.js", "jqxdropdownlist.js", "jqxexport_all.js", "jqxgauge.js", "jqxgridfilter.js",
    "jqxgrid_all.js", "jqxgrid_sort.js", "jqxlistbox.js", "jqxpasswordinput.js",
    "jqxrangeselector.js", "jqxredmond.css", "jqxscrollbar.js", "jqxtooltip.js", "jqxtree.js",
    "jqx_all.js", "jspdf.js", "login.html", "logot.gif", "mqtt.html", "odjava.htm",
    "online.html", "onlineinput.html", "pass.html", "pass.js", "sample.html", "senzor.html",
    "sms.html", "still.css", "table.html", "ui_bg_f5f8f9.png", "ui_bg_fcfdfd.png",
    "ui_bg_glass_75.png", "ui_bg_glass_85.png", "ui_bg_gloss_wave.png",
    "ui_bg_inset_hard_100_fcfdfd.png", "ui_icons_217bc0.png", "ui_icons_6da8d5.png",
    "ui_icons_f9bd01.png", "vrijeme.html", "whatsapp.html"].map fun name => ascii ("/" ++ name)

-- The text behind the first dot of a name, as far as `char ekstenzija[10]` holds it. For a name without
-- a dot the code reads on behind the name.
def ekstenzija (name : Bytes) : Option Bytes :=
  match name.dropWhile (· ≠ 46) with
  | []       => none
  | _ :: ext =>
    let e := ext.takeWhile fun c => c ≠ 40 ∧ c ≠ 63
    if e.length < 10 then some e else none

-- `lfs` tells the names that `lfs_file_opencfg` finds. All names but those of the tables are
-- copied to `char fname[32]`.
def lookup (lfs : Bytes → Bool) (name : Bytes) : Option Bool :=
  if name ∈ tables then some true
  else if 32 ≤ name.length then none
  else some (lfs name.tail ∨ name ∈ fsdata)

-- The first part of `fs_open`, whose result is the name of the file that is then looked for
def authenticate (s : State) (r : Request) (name : Bytes) : Option Bytes := do
  if name = login then return name
  if (← ekstenzija name) ≠ html then return name
  if ← s.checkAuth r then return name
  return login

-- The name of the file that is opened, if there is one
def fsOpen (lfs : Bytes → Bool) (s : State) (r : Request) (name : Bytes) :
    Option (Option Bytes) := do
  let name ← authenticate s r name
  if ← lookup lfs name then return some name
  return none

-- The three names are literals in the flash, which `fs_open` cannot overwrite.
def httpGet404File (lfs : Bytes → Bool) (s : State) (r : Request) : Option (Option Bytes) := do
  let _ ← s.checkAuth r
  if ← lookup lfs (ascii "/404.html") then return some (ascii "/404.html")
  if ← lookup lfs (ascii "/404.htm") then return some (ascii "/404.htm")
  if ← lookup lfs (ascii "/404.shtml") then return some (ascii "/404.shtml")
  return none

def root : Bytes := ascii "/"

-- The name that a URI asks for
def page (uri : Bytes) : Bytes :=
  if uri = root then login else uri.takeWhile (· ≠ 63)

def httpFindFile (lfs : Bytes → Bool) (s : State) (r : Request) :
    Option (State × Option Bytes) := do
  let authenUri ← if r.uri.text = root then some s.authenUri else s.authenUri.strcpy r.uri.text
  let s := { s with authenUri }
  match ← fsOpen lfs s r (page r.uri.text) with
  | some file => some (s, file)
  | none      => some (s, ← httpGet404File lfs s r)

structure Obs where
  uri  : Bytes
  file : Option Bytes
  deriving DecidableEq

def server (lfs : Bytes → Bool) : Machine State Request Obs where
  step s r := (httpFindFile lfs s r).map fun (s₁, file) => (s₁, [⟨r.uri.text, file⟩])

end Auth
