import Webtermo.Execution.Auth.State

-- `checkAuth` with its loops, for a request of which nothing else may be read
namespace Auth

-- `bufsearch` for a single character, from the place `i` on
def searchIn (c : UInt8) : (len i : Nat) → Bytes → Option Int
  | 0,       _, _       => some (-1)
  | _ + 1,   _, []      => none
  | len + 1, i, b :: bs => if b = c then some i else searchIn c len (i + 1) bs

-- `while (tbuf[cnt] != ':')`. The result is `none` inside where `checkAuth` returns 0.
def copyName (tbuf : Buffer 80) (cnt : Nat) (ubuf : Buffer 40) : Option (Option (Nat × Buffer 40)) :=
  match tbuf.bytes[cnt]? with
  | none   => none
  | some c =>
    if c = colon then some <| some (cnt, ubuf)
    else match ubuf.write cnt [c] with
      | none      => none
      | some ubuf => if 80 < cnt + 1 then some none else copyName tbuf (cnt + 1) ubuf
termination_by 81 - cnt

-- `while (cnt < decodelen)`
def copyPassword (tbuf : Buffer 80) (decodelen cnt i : Nat) (ubuf : Buffer 40) :
    Option (Option (Nat × Buffer 40)) :=
  if cnt < decodelen then
    match tbuf.bytes[cnt]? with
    | none   => none
    | some c =>
      match ubuf.write i [c] with
      | none      => none
      | some ubuf =>
        if 80 < cnt + 1 then some none else copyPassword tbuf decodelen (cnt + 1) (i + 1) ubuf
  else
    some <| some (i, ubuf)
termination_by decodelen - cnt

-- `ubuf` is compared with the texts of the variables.
def compareIn (tbuf : Buffer 80) (decodelen : Nat) (ubuf : Buffer 40) (username password : Bytes) :
    Option Bool := do
  match ← copyName tbuf 0 ubuf with
  | none             => some false
  | some (cnt, ubuf) =>
    let ubuf ← ubuf.write cnt [0]
    if cstr ubuf.bytes ≠ some username then some false
    else
      match ← copyPassword tbuf decodelen (cnt + 1) 0 ubuf with
      | none           => some false
      | some (i, ubuf) =>
        let ubuf ← ubuf.write i [0]
        some (cstr ubuf.bytes = some password)

-- `pbuf` is `authen_uri`. The other two arrays hold what happens to lie on the stack.
def checkAuthIn (pbuf : Buffer 100) (tbuf : Buffer 80) (ubuf : Buffer 40) (username password : Bytes) :
    Option Bool := do
  let point1 ← searchIn amp 128 0 pbuf.bytes
  if point1 = 0 then some false
  else
    let point2 ← searchIn amp 128 0 (pbuf.bytes.drop (point1 + 1).toNat)
    let point2 := point2 + point1 + 1
    if point2 < 0 then some false
    else
      let decoded := base64Decode ((pbuf.bytes.drop point1.toNat).take (point2 - point1).toNat) 80
      let tbuf ← tbuf.write 0 decoded
      compareIn tbuf decoded.length ubuf username password

end Auth
