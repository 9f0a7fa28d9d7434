import Webtermo.Library.CString
import Webtermo.Execution.Wapp.State

open Define

-- The XML document of an SMS, and its encoding
namespace Wcl

def xmlCap : Nat := 5 * (10 * 536)

theorem nil_lt_xmlCap : ([] : Bytes).length < xmlCap := by
  decide

def crlf : Bytes := ascii "\r\n"

-- What `CrateInfobipXMLString` appends to `XMLBuf` at a time
inductive Part
  | openTag (tag : Bytes)
  | closeTag (tag : Bytes)
  | crlf
  -- `AddTag` with what `EEread` has read into `rBuf`
  | stored (tag : Bytes) (addr n : Nat)
  -- `AddTag` with `infobip_poruka`
  | poruka (tag : Bytes)

def openTag (tag : Bytes) : List Bytes :=
  [ascii "<", tag, ascii ">"]

def closeTag (tag : Bytes) : List Bytes :=
  [ascii "</", tag, ascii ">"]

def addTag (tag bufVal : Bytes) : List Bytes :=
  openTag tag ++ bufVal :: closeTag tag

def Part.add (dev : Wapp.State) (xml : CString xmlCap) :
    Part → Option (Wapp.State × CString xmlCap)
  | openTag tag       => do some (dev, ← xml.strcats (Wcl.openTag tag))
  | closeTag tag      => do some (dev, ← xml.strcats (Wcl.closeTag tag))
  | crlf              => do some (dev, ← xml.strcat Wcl.crlf)
  | stored tag addr n => do
    let dev ← Wapp.eeRead dev addr n
    some (dev, ← xml.strcats (addTag tag (← dev.rBuf.text 0)))
  | poruka tag        => do some (dev, ← xml.strcats (addTag tag (← dev.infobip.poruka.text 0)))

def addParts (dev : Wapp.State) (xml : CString xmlCap) :
    List Part → Option (Wapp.State × CString xmlCap)
  | []      => some (dev, xml)
  | p :: ps => do
    let (dev, xml) ← p.add dev xml
    addParts dev xml ps

-- The numbers that are switched on
def gsmParts (gsmEnable : Fin 5 → Bool) : List Part :=
  ((List.finRange 5).filter (gsmEnable ·)).flatMap fun n : Fin 5 =>
    [.stored (ascii "gsm") (eeGsm1Num + n.val * 0x20) 32, .crlf]

def parts (gsmEnable : Fin 5 → Bool) : List Part :=
  [Part.openTag (ascii "SMS"), .crlf, .openTag (ascii "authentification"), .crlf,
    .stored (ascii "username") eeGsmUname 16, .crlf, .crlf,
    .stored (ascii "password") eeGsmPass 16, .crlf, .crlf,
    .closeTag (ascii "authentification"), .crlf, .openTag (ascii "message"), .crlf,
    .stored (ascii "sender") eeObjectName 32, .crlf, .poruka (ascii "text"), .crlf,
    .closeTag (ascii "message"), .crlf, .openTag (ascii "recipients"), .crlf] ++
  gsmParts gsmEnable ++
  [.closeTag (ascii "recipients"), .crlf, .closeTag (ascii "SMS")]

namespace Rfc1738

def unsafeChars : Bytes :=
  [0x3C, 0x3E, 0x22, 0x23, 0x25, 0x7B, 0x7D, 0x7C, 0x5C, 0x5E, 0x7E, 0x5B, 0x5D, 0x60, 0x27, 0x20]

def doEscape (c : UInt8) : Bool :=
  unsafeChars.contains c || c ≤ 0x1F || c = 0x7F || 0x80 ≤ c

def hex (n : UInt8) : UInt8 :=
  if n < 10 then '0'.toNat.toUInt8 + n else 'a'.toNat.toUInt8 + (n - 10)

def encode (c : UInt8) : Bytes :=
  if doEscape c then ascii "%" ++ [hex (c >>> 4), hex (c &&& 15)] else [c]

end Rfc1738

-- What `rfc1738_escape` writes from the place `q` of its buffer on, whose end it only looks for
-- before each character
def rfc1738Escape (size : Nat) (q : Nat) : Bytes → Bytes
  | []     => []
  | c :: p =>
    if q + 1 < size then
      let e := Rfc1738.encode c
      e ++ rfc1738Escape size (q + e.length) p
    else
      []

end Wcl
