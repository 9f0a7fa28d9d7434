import Webtermo.Library.Trace
import Webtermo.Objects.System
import Webtermo.Execution.Post.Basic
import Webtermo.Execution.Wcl.State

-- The callbacks for what the servers of the SMS service, of its credit page and of WhatsApp answer
namespace Receive

open Post (Pbuf)

structure State where
  ibipretbuf : Buffer 1024
  status     : Buffer 32
  credit     : Buffer 16
  ptr        : Nat
  -- `gsmState` and `gsmCreditState`
  gsm        : Wcl.Client → Wcl.GsmState
  wAppStatus : Wapp.Status

inductive Callback
  | wclRecv
  | wclCreditRecv
  | wappReceive
  deriving DecidableEq

-- A call by lwIP: whether `err` is `ERR_OK`, and the chain `p` unless it is NULL
structure Event where
  callback : Callback
  ok       : Bool
  p        : Option Pbuf

-- What a call has done: the tags that it has searched for with the bytes that it has searched through,
-- and what it has stored in `infobip_status` and `infobip_credit`
structure Done where
  searches : List (Bytes × Bytes)
  status   : Option Bytes
  credit   : Option Bytes

def Done.nothing : Done :=
  ⟨[], none, none⟩

def copy (buf : Buffer 1024) (pos : Nat) : Bytes → Option (Buffer 1024)
  | []      => some buf
  | b :: bs => do
    let buf ← buf.write pos [b]
    copy buf (pos + 1) bs

-- Its text, if the tag is found, is written to `rBuf`. A search or a value that goes on behind the
-- array has no defined outcome.
def xmlParser (tag : Bytes) (itagBuf : Buffer 1024) (iBufLen : Nat) (rBuf : Buffer cap) :
    Option (Buffer cap × Option Bytes) :=
  let rval := bufsearch itagBuf.bytes iBufLen tag
  if rval = -1 then
    if iBufLen ≤ 1024 then some (rBuf, none) else none
  else
    let behind := itagBuf.bytes.drop (rval.toNat + tag.length)
    if 60 ∈ behind then do
      let value := behind.takeWhile (· ≠ 60)
      let rBuf ← rBuf.strcpy value
      some (rBuf, some value)
    else
      none

-- The loop over the chain, which ends with `p` at its end
def wclRecv.loop (s : State) (payload : Bytes) : List Bytes → Option (State × Option Pbuf)
  | []           => do
    let ibipretbuf ← copy s.ibipretbuf s.ptr payload
    some ({ s with ibipretbuf, ptr := s.ptr + payload.length }, none)
  | next :: rest => do
    let ibipretbuf ← copy s.ibipretbuf s.ptr payload
    wclRecv.loop { s with ibipretbuf, ptr := s.ptr + payload.length } next rest

def wclRecv (s : State) (ok : Bool) (p : Option Pbuf) : Option (State × Done) :=
  match ok, p with
  | true, some p => do
    let (s, p) ← wclRecv.loop s p.payload p.next
    let s := { s with gsm := Function.update s.gsm .wcl .answer }
    -- `p->len` has no value if `p` is NULL.
    let len ← p.map (·.payload.length)
    let (status, stat) ← xmlParser (ascii "<status>") s.ibipretbuf len s.status
    let (credit, cred) ← xmlParser (ascii "<credits>") s.ibipretbuf len s.credit
    let bytes := s.ibipretbuf.bytes.take len
    some ({ s with status, credit },
      ⟨[(ascii "<status>", bytes), (ascii "<credits>", bytes)], stat, cred⟩)
  | _, _         => some (s, .nothing)

-- What is behind the payload of a pbuf has no value.
def wclCreditRecv.payloadBytes (payload : Bytes) (n : Nat) : Option Bytes :=
  if n ≤ payload.length then some (payload.take n) else none

-- The index of the last LF that is not above the given one, or 0
def wclCreditRecv.lastLf (buf : Buffer 1024) : Nat → Nat
  | 0     => 0
  | i + 1 => if buf.get (i + 1) = 10 then i + 1 else lastLf buf i

def wclCreditRecv (s : State) (ok : Bool) (p : Option Pbuf) : Option (State × Done) :=
  match ok, p with
  | true, some p => do
    let reclen := p.totLen
    -- As many bytes as the whole chain has are copied from the payload of its first pbuf.
    let data ← wclCreditRecv.payloadBytes p.payload reclen
    let ibipretbuf ← s.ibipretbuf.write 0 data
    let ibipretbuf ← ibipretbuf.write reclen [0]
    let gsm := Function.update s.gsm .credit .answer
    let text ← ibipretbuf.text (wclCreditRecv.lastLf ibipretbuf reclen + 1)
    let credit ← s.credit.strcpy text
    some ({ s with ibipretbuf, gsm, credit }, ⟨[], none, some text⟩)
  | _, _         => some (s, .nothing)

def wappReceive (s : State) : State :=
  { s with wAppStatus := .free }

-- A call and its outcome. All calls return `ERR_OK`, and no call frees its pbufs.
structure Obs where
  callback : Callback
  p        : Option Pbuf
  buf      : Buffer 1024
  done     : Done
  frees    : Nat

def Event.exec (s : State) (e : Event) : Option (State × Done) :=
  match e.callback with
  | .wclRecv       => wclRecv s e.ok e.p
  | .wclCreditRecv => wclCreditRecv s e.ok e.p
  | .wappReceive   => some (wappReceive s, .nothing)

def device : Machine State Event Obs where
  step s e := (e.exec s).map fun (s₁, done) => (s₁, [⟨e.callback, e.p, s₁.ibipretbuf, done, 0⟩])

end Receive
