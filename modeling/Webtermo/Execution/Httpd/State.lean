import Webtermo.Execution.Wcl.State

-- The HTTP connections that ask for XML documents, and the array `XMLBuf` that they share with each
-- other and with the clients of the SMS service
namespace Httpd

-- A byte that waits in the queue of TCP: one of its own, or the byte of `XMLBuf` at an index
inductive Cell
  | rom (b : UInt8)
  | xml (i : Nat)
  deriving DecidableEq

def Cell.read (xmlBuf : Bytes) : Cell → UInt8
  | rom b => b
  | xml i => xmlBuf.getD i 0

inductive Err
  | ok
  | mem
  | other
  deriving DecidableEq

-- What TCP answers during a call of `http_write`. The queue is full if `tcp_sndqueuelen` has reached
-- `TCP_SND_QUEUELEN`.
structure Tcp where
  sndbuf   : Nat
  mss      : Nat
  full     : Bool
  tcpWrite : Nat → Err

-- The loop of `http_write`, in which the length at least halves from one attempt to the next, so
-- that there are never as many as `fuel`
def tryWrite (tcp : Tcp) : (fuel : Nat) → (len : Nat) → Option Nat
  | 0,        _   => none
  | fuel + 1, len =>
    match tcp.tcpWrite len with
    | .ok    => some len
    | .other => none
    | .mem   =>
      let len := if tcp.sndbuf = 0 ∨ tcp.full then 1 else len / 2
      if 1 < len then tryWrite tcp fuel len else none

-- How much has been written, or `none` for an error
def httpWrite (tcp : Tcp) (len : Nat) : Option Nat :=
  if len = 0 then
    some 0
  else
    let len := min (min len tcp.sndbuf) (2 * tcp.mss)
    tryWrite tcp (len + 1) len

-- `fs_file` of an XML document and what `http_state` has for it: the header strings from `hdr_index`
-- on, and `file` as an index of `XMLBuf`. The `index` of the handle is its `len`, so that
-- `fs_bytes_left` is 0.
structure File where
  len    : Nat
  hdrs   : List Bytes
  hdrPos : Nat
  file   : Nat
  left   : Nat

-- `http_state`, which has no handle before the request
structure Hs where
  retries : Nat
  handle  : Option File

-- A connection as `http_accept` and TCP know it: its `http_state` unless it has been freed, and the
-- bytes that wait for their acknowledgement, before which `acked` bytes have been acknowledged
structure Conn where
  hs    : Option Hs
  acked : Nat
  queue : List Cell

structure State where
  wcl    : Wcl.State
  xmlBuf : Buffer Wcl.xmlCap
  conns  : List Conn

def State.init (env : Wapp.Env) : State where
  wcl    := .init env
  xmlBuf := Buffer.zero Wcl.xmlCap
  conns  := []

-- The strings that `get_http_headers` finds for the XML files
def xmlHdrs : List Bytes :=
  [ascii "HTTP/1.0 200 OK\r\n", ascii "Server: LARUS v1.0 (http:www.larus.com.hr)\r\n",
    ascii "Content-type: text/xml\r\n\r\n"]

-- `HTTP_IS_DATA_VOLATILE` is not 0.
def File.volatile (f : File) : Bool :=
  f.file ≠ f.len - f.left

inductive DataToSend
  | no
  | continue
  | break
  deriving DecidableEq

-- The loop of `http_send_headers`. Beyond the given answers TCP refuses all data.
def sendHeaders (len : Nat) (data : DataToSend) :
    List Tcp → File → File × List Cell × DataToSend × List Tcp
  | [],          f => (f, [], data, [])
  | tcp :: tcps, f =>
    match f.hdrs with
    | []          => (f, [], data, tcp :: tcps)
    | hdr :: hdrs =>
      if len = 0 then
        (f, [], data, tcp :: tcps)
      else
        let sendlen := min len (hdr.length - f.hdrPos)
        let sent    := httpWrite tcp sendlen
        -- Only a string that could not be sent as a whole counts as data to send.
        let data    := if sent.isSome ∧ sent ≠ some sendlen then .continue else data
        let n       := sent.getD 0
        let cells   := (hdr.drop f.hdrPos).take n |>.map Cell.rom
        let f       := if f.hdrPos + n = hdr.length then { f with hdrs, hdrPos := 0 }
          else { f with hdrPos := f.hdrPos + n }
        if n = 0 then
          (f, cells, data, tcps)
        else
          let (f, cells₁, r) := sendHeaders (len - n) data tcps f
          (f, cells ++ cells₁, r)

def httpSendHeaders (tcps : List Tcp) (f : File) : File × List Cell × DataToSend × List Tcp :=
  let sndbuf := (tcps.head?.map (·.sndbuf)).getD 0
  let (f, cells, data, tcps) := sendHeaders sndbuf .no tcps f
  (f, cells, if f.hdrs = [] then data else .break, tcps)

-- Without a copy TCP keeps the address.
def httpSendDataNonssi (xmlBuf : Bytes) (tcps : List Tcp) (f : File) : File × List Cell :=
  let len := min f.left 0xFFFF
  match tcps.head?.bind (httpWrite · len) with
  | none   => (f, [])
  | some n =>
    let cells := (List.range' f.file n).map Cell.xml
    ({ f with file := f.file + n, left := f.left - n },
      if f.volatile then cells.map fun c => .rom (c.read xmlBuf) else cells)

-- The rest of the file and what is written. There is no file any more after `http_eof`, which closes
-- the connection.
def httpSendFile (xmlBuf : Bytes) (tcps : List Tcp) (f : File) : Option File × List Cell :=
  if f.left = 0 then
    (none, [])
  else
    let (f, cells) := httpSendDataNonssi xmlBuf tcps f
    (if f.left = 0 then none else some f, cells)

def httpSend (xmlBuf : Bytes) (tcps : List Tcp) (f : File) : Option File × List Cell :=
  if f.hdrs = [] then
    httpSendFile xmlBuf tcps f
  else
    let (f, cells, data, tcps) := httpSendHeaders tcps f
    if data = .continue then
      let (f, cells₁) := httpSendFile xmlBuf tcps f
      (f, cells ++ cells₁)
    else
      (some f, cells)

namespace Conn

def new : Conn where
  hs    := some ⟨0, none⟩
  acked := 0
  queue := []

-- `http_send` of a connection. Without a handle it reaches `http_eof`.
def send (conn : Conn) (xmlBuf : Bytes) (tcps : List Tcp) (hs : Hs) : Conn :=
  match hs.handle with
  | none   => { conn with hs := none }
  | some f =>
    let (f, cells) := httpSend xmlBuf tcps f
    { conn with hs := f.map fun f => { hs with handle := some f }, queue := conn.queue ++ cells }

-- The connection has an `http_state` whose request has not been read yet.
def awaitsRequest (conn : Conn) : Bool :=
  conn.hs.any (·.handle.isNone)

-- `http_init_file` for a document in `XMLBuf`, and the `http_send` after it
def request (conn : Conn) (xmlBuf : Bytes) (len : Nat) (tcps : List Tcp) : Conn :=
  conn.send xmlBuf tcps ⟨0, some { len, hdrs := xmlHdrs, hdrPos := 0, file := 0, left := len }⟩

-- Data of `XMLBuf` are unsent or unacknowledged.
def pending (conn : Conn) : Bool :=
  conn.hs.any (·.handle.any (·.left ≠ 0)) || conn.queue.any fun c => c matches .xml _

end Conn

-- What happens to a connection after its request
inductive Turn
  -- `http_sent`, after TCP has freed a part of the queue
  | sent (n : Nat) (tcps : List Tcp)
  | poll (tcps : List Tcp)
  -- TCP sends a part of the queue, for the first time or again.
  | transmit (off n : Nat)
  -- The remote host closes the connection.
  | recvNull
  | err

-- The position of a segment in the stream of its connection, and its data
abbrev Segment := Nat × Bytes

-- `HTTPD_MAX_RETRIES`
def maxRetries : Nat := 8

def Conn.turn (conn : Conn) (xmlBuf : Bytes) : Turn → Option (Conn × Option Segment)
  | .sent n tcps    =>
    if n ≤ conn.queue.length ∧ conn.queue ≠ [] then
      let conn := { conn with acked := conn.acked + n, queue := conn.queue.drop n }
      match conn.hs with
      | none    => some (conn, none)
      | some hs => some (conn.send xmlBuf tcps { hs with retries := 0 }, none)
    else
      none
  | .poll tcps      =>
    match conn.hs with
    | none    => some (conn, none)
    | some hs =>
      let hs := { hs with retries := hs.retries + 1 }
      if hs.retries = maxRetries then
        some ({ conn with hs := none }, none)
      else if hs.handle.isSome then
        some (conn.send xmlBuf tcps hs, none)
      else
        some ({ conn with hs := some hs }, none)
  | .transmit off n =>
    if off + n ≤ conn.queue.length ∧ n ≠ 0 then
      some (conn, some (conn.acked + off, ((conn.queue.drop off).take n).map (Cell.read xmlBuf)))
    else
      none
  | .recvNull       => some ({ conn with hs := none }, none)
  | .err            => some ({ conn with hs := none, queue := [] }, none)

-- What a generator of pages returns: the length of its document, or as a `UINT16` the error with
-- which `lfs_dir_read` has ended the listing of a directory
def pageLength (doc : Bytes) : (dirError : Option Nat) → Nat
  | none   => doc.length
  | some e => (0x10000 - e % 0x10000) % 0x10000

inductive Event
  -- the clients of the SMS service, and whatever else writes to `XMLBuf`
  | wcl (e : Wcl.Event)
  | accept
  -- The request of a connection has been read, and `fs_open` generates the document.
  | request (c : Nat) (doc : CString Wcl.xmlCap) (dirError : Option Nat) (tcps : List Tcp)
  | turn (c : Nat) (t : Turn)

inductive Obs
  | generated (c : Nat) (doc : Bytes)
  | segment (c : Nat) (s : Segment)
  deriving DecidableEq

-- The step of the clients puts a text together in `XMLBuf`.
def writesXml (w : Wcl.State) : Wcl.Event → Bool
  | .resume c _ => w.active c && w.pt c = .yielded
  | .page _     => true
  | _           => false

-- The texts that such a step leaves in `XMLBuf` one after the other
def xmlTexts (w : Wcl.State) (o : List Wcl.Obs) : List Bytes :=
  o.filterMap (fun | .xml _ _ text => some text | _ => none) ++ [w.xmlBuf.bytes]

def step (s : State) : Event → Option (State × List Obs)
  | .wcl e                     => do
    let (wcl, o) ← Wcl.step s.wcl e
    let texts := if writesXml s.wcl e then xmlTexts wcl o else []
    let xmlBuf ← texts.foldlM Buffer.strcpy s.xmlBuf
    some ({ s with wcl, xmlBuf }, [])
  | .accept                    => some ({ s with conns := s.conns ++ [Conn.new] }, [])
  | .request c doc dirErr tcps => do
    let conn ← s.conns[c]?
    if conn.awaitsRequest then
      let xmlBuf ← s.xmlBuf.strcpy doc.bytes
      let conn := conn.request xmlBuf.bytes (pageLength doc.bytes dirErr) tcps
      some ({ wcl := { s.wcl with xmlBuf := doc }, xmlBuf, conns := s.conns.set c conn },
        [.generated c doc.bytes])
    else
      some (s, [])
  | .turn c t                  => do
    let conn ← s.conns[c]?
    let (conn, segment) ← conn.turn s.xmlBuf.bytes t
    some ({ s with conns := s.conns.set c conn }, segment.toList.map (.segment c))

def device : Machine State Event Obs where
  step := step

end Httpd
