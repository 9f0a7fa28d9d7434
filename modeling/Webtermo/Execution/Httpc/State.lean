import Webtermo.Library.Run
import Webtermo.Objects.Parsers
import Webtermo.Objects.Pbuf

open Lwip

-- The HTTP client of `http_client.c`, with a request that does not go over a proxy
namespace Httpc

abbrev Err := Int

namespace Err

def ok         : Err := 0
def mem        : Err := -1
def inProgress : Err := -5
def val        : Err := -6
def abrt       : Err := -13
def arg        : Err := -16

end Err

inductive Result
  | ok
  | errUnknown
  | errConnect
  | errHostname
  | errClosed
  | errTimeout
  | errSvrResp
  | errMem
  | localAbort
  | errContentLen
  deriving DecidableEq

inductive ParseState
  | waitFirstLine
  | waitHeaders
  | rxData
  deriving DecidableEq

def pollTimeout : Nat := 30

def contentLenInvalid : UInt32 := 0xFFFFFFFF

def crlf : Bytes := [13, 10]

-- `httpc_state_t`
structure Req where
  -- `pcb` is no null pointer.
  pcb           : Bool
  timeoutTicks  : Nat
  request       : Option Bytes
  rxHdrs        : Chain
  rxHttpVersion : UInt16
  rxStatus      : UInt16
  rxContentLen  : UInt32
  hdrContentLen : UInt32
  parseState    : ParseState

inductive Tcp
  | closed
  | connecting
  | connected
  deriving DecidableEq

-- The state of the request that `arg` points to, as long as it is allocated, the PCB with the callbacks,
-- as long as lwIP has it, and whether the resolver is to call `httpc_dns_found`
structure Client where
  req : Option Req
  pcb : Option Tcp
  dns : Bool

inductive Obj
  | state
  | request
  | pcb
  deriving DecidableEq

inductive Obs
  | alloc (o : Obj)
  | free (o : Obj)
  | connect
  | write (text : Bytes)
  | output
  | received (p : Chain)
  | recved (n : Nat)
  | freed (p : Chain)
  | headersDone (len : Nat) (contentLen : UInt32)
  -- The callback of the application gets a part of the body, and the pbufs with it.
  | recvFn (p : Chain)
  | result (r : Result) (rxContentLen serverResponse : UInt32) (err : Err)
  | aborted
  | returns (err : Err)
  deriving DecidableEq

-- `pbuf_free`
def frees (p : Chain) : List Obs :=
  if p ≠ [] then [.freed p] else []

-- `httpc_free_state`. The answer `close` is that of `altcp_close`.
def freeState (r : Req) (close : Err) : List Obs × Err :=
  let memory := (if r.request.isSome then [.free .request] else []) ++ frees r.rxHdrs ++ [.free .state]
  if r.pcb then
    if close ≠ .ok then (memory ++ [.free .pcb, .aborted], .abrt) else (memory ++ [.free .pcb], .ok)
  else (memory, .ok)

-- `httpc_close`
def close (r : Req) (result : Result) (serverResponse : UInt32) (err close : Err) : List Obs × Err :=
  let (o, e) := freeState r close
  (.result result r.rxContentLen serverResponse err :: o, e)

-- `atoi` for an array, which reads up to the character behind the digits
def number (b : Buffer cap) : Option Int :=
  let s := match b.bytes.dropWhile isSpace with
    | 45 :: s => s
    | 43 :: s => s
    | s       => s
  if s.all isDigit then none else some <| atoi b.bytes

-- `status_num` has 10 bytes.
def statusNum (d : Bytes) : Option Int := do
  let statusNum ← (Buffer.zero 10).write 0 d
  number statusNum

-- `http_parse_response_status` for the headers so far. Its results are put into the state.
def parseResponseStatus (r : Req) : Option (Req × Err) :=
  let p := r.rxHdrs
  let end1 := p.memfind crlf 0
  let space1 := p.memfind [32] 0
  if end1 ≠ 0xFFFF ∧ space1 ≠ 0xFFFF ∧ p.memcmp 0 (ascii "HTTP/") = 0 ∧ p.getAt 6 = 46 then do
    let version := ((p.getAt 5).toUInt16 - 48) <<< 8 ||| ((p.getAt 7).toUInt16 - 48)
    let r := { r with rxHttpVersion := version }
    let space2 := p.memfind [32] (space1 + 1)
    let len : UInt32 := if space2 ≠ 0xFFFF then space2.toUInt32 - space1.toUInt32 - 1
      else end1.toUInt32 - space1.toUInt32 - 1
    let d := p.copyPartial (len.toNat % 2 ^ 16) (space1 + 1)
    let status ← statusNum d
    if d.length = len.toNat ∧ 0 < status ∧ status ≤ 0xFFFF then
      some ({ r with rxStatus := UInt16.ofInt status }, .ok)
    else some (r, .val)
  else some (r, .val)

-- `content_len_num` has 16 bytes.
def contentLenNum (d : Bytes) : Option Int := do
  let contentLenNum ← (Buffer.zero 16).write 0 d
  number contentLenNum

-- The number in the line at `hdr`
def contentLen (p : Chain) (hdr : Nat) : Option UInt32 :=
  let lineEnd := p.memfind crlf hdr
  if lineEnd ≠ 0xFFFF then do
    let len := (lineEnd.toUInt16 - hdr.toUInt16 - 16).toNat
    let d := p.copyPartial len (hdr + 16)
    let n ← contentLenNum d
    if d.length = len ∧ 0 ≤ n ∧ UInt32.ofInt n < contentLenInvalid then some <| UInt32.ofInt n
    else some contentLenInvalid
  else some contentLenInvalid

-- `http_wait_headers`: the content length and the length of the headers, once they are complete
def waitHeaders (p : Chain) : Option (Option (UInt32 × Nat)) :=
  let end1 := p.memfind (crlf ++ crlf) 0
  if end1 < 0xFFFF - 2 then do
    let hdr := p.memfind (ascii "Content-Length: ") 0
    let contentLen ← if hdr ≠ 0xFFFF then contentLen p hdr else some contentLenInvalid
    some <| some (contentLen, (end1 + 4) % 2 ^ 16)
  else some none

-- What the application and `altcp_close` answer to a callback
structure Answers where
  headersDone : Err
  recvFn      : Err
  close       : Err

-- The end of `httpc_tcp_recv`, where a chain is a part of the body
def passOn (r : Req) (p : Chain) (a : Answers) : Option Req × List Obs × Err :=
  if p ≠ [] then
    (some { r with rxContentLen := r.rxContentLen + p.totLen.toUInt32 }, [.recvFn p], a.recvFn)
  else (some r, [], .ok)

-- `httpc_tcp_recv` while it waits for the end of the headers
def recvHeaders (r : Req) (a : Answers) : Option (Option Req × List Obs × Err) := do
  match ← waitHeaders r.rxHdrs with
  | none => some (some r, [], .ok)
  | some (contentLen, total) =>
    let o := [.recved total, .headersDone total contentLen]
    let r := { r with hdrContentLen := contentLen }
    if a.headersDone ≠ .ok then
      let (o₁, e) := close r .localAbort r.rxStatus.toUInt32 a.headersDone a.close
      some (none, o ++ o₁, e)
    else
      let q := r.rxHdrs.freeHeader total
      let (r₁, o₁, e) := passOn { r with rxHdrs := [], parseState := .rxData } q a
      some (r₁, o ++ frees (r.rxHdrs.freedHeader total) ++ o₁, e)

-- `httpc_tcp_recv` for a chain of pbufs
def tcpRecv (r : Req) (p : Chain) (a : Answers) : Option (Option Req × List Obs × Err) :=
  let r₀ := { r with rxHdrs := r.rxHdrs ++ p }
  match r.parseState with
  | .rxData        => some <| passOn r p a
  | .waitHeaders   => recvHeaders r₀ a
  | .waitFirstLine => do
    let (r₁, err) ← parseResponseStatus r₀
    if err = .ok then recvHeaders { r₁ with parseState := .waitHeaders } a else some (some r₁, [], .ok)

-- `httpc_tcp_recv` for the end of the connection
def tcpRecvNull (r : Req) (a : Answers) : List Obs × Err :=
  let result : Result :=
    if r.parseState ≠ .rxData then .errClosed
    else if r.hdrContentLen ≠ contentLenInvalid ∧ r.hdrContentLen ≠ r.rxContentLen then .errContentLen
    else .ok
  close r result r.rxStatus.toUInt32 .ok a.close

-- `httpc_tcp_connected`. The answer `write` is that of `altcp_write`.
def tcpConnected (r : Req) (write : Err) (a : Answers) : Option (Option Req × List Obs × Err) := do
  let text ← r.request
  if write ≠ .ok then
    let (o, e) := close r .errMem 0 write a.close
    some (none, o, e)
  else some (some { r with request := none }, [.write text, .free .request, .output], .ok)

-- `httpc_tcp_poll`
def tcpPoll (r : Req) (a : Answers) : Option Req × List Obs × Err :=
  let r := { r with timeoutTicks := r.timeoutTicks - 1 }
  if r.timeoutTicks = 0 then
    let (o, e) := close r .errTimeout 0 .ok a.close
    (none, o, e)
  else (some r, [], .ok)

-- `httpc_dns_found`. The answer `connect` is that of `altcp_connect`.
def dnsFound (r : Req) (ipaddr : Bool) (connect : Err) (a : Answers) : Option Req × List Obs :=
  if ipaddr then
    if connect = .ok then (some r, [.connect])
    else (none, (close r .errConnect 0 connect a.close).1)
  else (none, (close r .errHostname 0 .arg a.close).1)

-- The text of the request
def requestString (serverName uri : Bytes) : Bytes :=
  ascii "GET " ++ uri ++ ascii " HTTP/1.1\r\nUser-Agent: lwIP/2.1.3 (http://savannah.nongnu.org/projects/lwip)\r\n"
    ++ ascii "Accept: */*\r\nHost: " ++ serverName ++ ascii "\r\nConnection: Close\r\n\r\n"

-- What the allocators, the resolver, `altcp_connect` and `altcp_close` answer to a request
structure Start where
  malloc  : Bool
  pbuf    : Bool
  pcb     : Bool
  dns     : Err
  connect : Err
  close   : Err

-- `httpc_get_file_dns`
def getFileDns (serverName uri : Bytes) (a : Start) : Client × List Obs × Err :=
  let gone : Client := ⟨none, none, false⟩
  let text := requestString serverName uri
  let r : Req :=
    ⟨false, pollTimeout, none, [], 0, 0, 0, 0, .waitFirstLine⟩
  if 0xFFFF < text.length + 1 then (gone, [], .val)
  else if !a.malloc then (gone, [], .mem)
  else if !a.pbuf then (gone, .alloc .state :: (freeState r a.close).1, .mem)
  else
    let r := { r with request := some text, hdrContentLen := contentLenInvalid }
    if !a.pcb then (gone, [.alloc .state, .alloc .request] ++ (freeState r a.close).1, .mem)
    else
      let r := { r with pcb := true }
      let o := [.alloc .state, .alloc .request, .alloc .pcb]
      if a.dns = .ok then
        if a.connect = .ok then (⟨some r, some .connecting, false⟩, o ++ [.connect], .ok)
        else (gone, o ++ (freeState r a.close).1, a.connect)
      else if a.dns = .inProgress then (⟨some r, some .closed, true⟩, o, .ok)
      else (gone, o ++ (freeState r a.close).1, a.dns)

-- What lwIP calls
inductive Event
  | dnsFound (ipaddr : Bool) (connect : Err) (a : Answers)
  | connected (write : Err) (a : Answers)
  | recv (p : Chain) (a : Answers)
  | recvNull (a : Answers)
  | err (err : Err)
  | poll (a : Answers)
  | sent

-- The PCB has callbacks that lwIP may call.
def Client.Active (c : Client) : Prop :=
  c.pcb = some .connecting ∨ c.pcb = some .connected

-- When lwIP makes its calls: the resolver once for a query, the others for a PCB that it has
def Event.Possible (c : Client) : Event → Prop
  | dnsFound ..  => c.dns
  | connected .. => c.pcb = some .connecting
  | recv p _     => c.pcb = some .connected ∧ p ≠ []
  | recvNull _   => c.pcb = some .connected
  | err _        => c.Active
  | poll _       => c.Active
  | sent         => c.pcb = some .connected

-- The client after a callback that leaves the given state, where `pcb` is what becomes of the PCB
def Client.after (c : Client) (pcb : Option Tcp) (r : Option Req) (o : List Obs) (e : Err) :
    Client × List Obs :=
  match r with
  | some r => ({ c with req := some r, pcb }, o ++ [.returns e])
  | none   => (⟨none, none, false⟩, o ++ [.returns e])

-- A callback finds the state at its argument, which must still be allocated.
def step (c : Client) (e : Event) : Option (Client × List Obs) := do
  let r ← c.req
  match e with
  | .dnsFound ipaddr connect a =>
    let (r₁, o) := dnsFound r ipaddr connect a
    some <| { c with dns := false }.after (some .connecting) r₁ o .ok
  | .connected write a =>
    let (r₁, o, e) ← tcpConnected r write a
    some <| c.after (some .connected) r₁ o e
  | .recv p a =>
    let (r₁, o, e) ← tcpRecv r p a
    some <| c.after c.pcb r₁ (.received p :: o) e
  | .recvNull a =>
    let (o, e) := tcpRecvNull r a
    some <| c.after c.pcb none o e
  | .err err =>
    let (o, e) := close { r with pcb := false } .errClosed 0 err .ok
    some <| c.after none none (.free .pcb :: o) e
  | .poll a =>
    let (r₁, o, e) := tcpPoll r a
    some <| c.after c.pcb r₁ o e
  | .sent => some <| c.after c.pcb (some r) [] .ok

def client : Machine Client Event Obs where
  step := step

end Httpc
