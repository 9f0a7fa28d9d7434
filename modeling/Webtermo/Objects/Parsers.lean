import Webtermo.Objects.System

-- The parsers of `SVATagovi.c`. A read or a write outside of an array has no defined outcome.

def isDigit (c : UInt8) : Bool :=
  48 ≤ c ∧ c ≤ 57

def isSpace (c : UInt8) : Bool :=
  9 ≤ c ∧ c ≤ 13 ∨ c = 32

def isAlnum (c : UInt8) : Bool :=
  isDigit c ∨ 65 ≤ c ∧ c ≤ 90 ∨ 97 ≤ c ∧ c ≤ 122

-- `atoi` for texts of digits, which saturates
def atoiDigits (s : Bytes) : Nat :=
  min (s.foldl (fun n c => 10 * n + (c.toNat - 48)) 0) (2 ^ 31 - 1)

def atoi (s : Bytes) : Int :=
  match s.dropWhile isSpace with
  | 45 :: s => -(atoiDigits <| s.takeWhile isDigit)
  | 43 :: s => atoiDigits <| s.takeWhile isDigit
  | s       => atoiDigits <| s.takeWhile isDigit

def asciitohex (ch : UInt8) : UInt8 :=
  if ch < 58 ∧ 47 < ch then ch - 48
  else if ch < 71 ∧ 64 < ch then ch - 55
  else 0

def httpsReadEncoded2 (a b : UInt8) : UInt8 :=
  nibble a <<< 4 ||| nibble b
where
  nibble (c : UInt8) : UInt8 :=
    if 48 ≤ c ∧ c ≤ 57 then c - 48
    else if 97 ≤ c ∧ c ≤ 102 then c - 97 + 10
    else c - 65 + 10

-- The body of a POST and what lies behind its terminating NUL in `post_buffer`
structure Body where
  bytes : Bytes
  rest  : Bytes

def Body.Has (b : Body) (tag : Bytes) : Prop :=
  tag <:+: b.bytes

instance {b : Body} : Decidable (b.Has tag) :=
  inferInstanceAs <| Decidable (_ <:+: _)

-- What follows the tag in memory
def Body.behind (b : Body) (tag : Bytes) : Bytes :=
  (b.bytes ++ 0 :: b.rest).drop <| (bufsearch b.bytes b.bytes.length tag).toNat + tag.length

def Body.value (b : Body) (tag : Bytes) : Bytes :=
  (b.behind tag).takeWhile (· ≠ 60)

abbrev Tb := Buffer 130

-- The value between the tag and the next `<` is copied to `tb`. Its length is kept in a byte, in which
-- the -1 for a missing tag is 255.
def xmlParser (tag : Bytes) (b : Body) (tb : Tb) : Option (Nat × Tb) :=
  if bufsearch b.bytes b.bytes.length tag = -1 then
    some (255, tb)
  else if 60 ∈ b.behind tag then do
    let tb ← tb.strcpy (b.value tag)
    some ((b.value tag).length, tb)
  else
    none

-- The value of a tag that is found is what stands between it and the next `<`.
theorem xmlParser_of_bufsearch (hb : b.bytes = a ++ (tag ++ (v ++ 60 :: r)))
    (hs : bufsearch b.bytes b.bytes.length tag = a.length) (hv : 60 ∉ v) :
    xmlParser tag b tb = (tb.strcpy v).map fun tb => (v.length, tb) := by
  have hd : b.behind tag = v ++ 60 :: (r ++ 0 :: b.rest) := by
    rw [Body.behind, hs, hb, Int.toNat_natCast, List.append_assoc, List.drop_length_add_append,
      List.append_assoc, List.drop_left, List.append_assoc, List.cons_append]
  have hm : 60 ∈ b.behind tag := by simp [hd]
  have hw : b.value tag = v := by
    rw [Body.value, hd, List.takeWhile_append_of_pos]
    · simp
    · simpa using fun x hx => ne_of_mem_of_not_mem hx hv
  have ha : (a.length : Int) ≠ -1 := by omega
  simp only [xmlParser, hs, ha, if_false, hm, if_true, hw]
  cases tb.strcpy v <;> rfl

theorem xmlParser_eq (hb : b.bytes = a ++ (tag ++ (v ++ 60 :: r))) (h : Clash tag a)
    (hl : tag.length ≤ 30) (hn : tag ≠ []) (hv : 60 ∉ v) :
    xmlParser tag b tb = (tb.strcpy v).map fun tb => (v.length, tb) := by
  refine xmlParser_of_bufsearch hb ?_ hv
  rw [hb]
  exact bufsearch_of_clash h hl hn (by simp only [List.length_append]; omega)

-- The octets that are written to `retBuf`, and the return value. An octet of five digits leaves no
-- room for a NUL in `ct`.
def ipToFile.loop : (dots inLen : Nat) → Bytes → Option (Bytes × Bool)
  | 0, inLen, l =>
    let ct := (l.take inLen).takeWhile isDigit
    if 5 < ct.length then none
    else if ct.length < inLen then if ct.length < l.length then some ([], false) else none
    else if ct.length = 5 then none
    else some ([(atoiDigits ct).toUInt8], true)
  | dots + 1, inLen, l =>
    let ct := l.takeWhile isDigit
    if 5 < ct.length then none
    else match l.drop ct.length with
      | []       => none
      | 46 :: l  =>
        if ct.length = 5 then none
        else (loop dots (inLen - ct.length - 1) l).map fun (octets, ok) =>
          ((atoiDigits ct).toUInt8 :: octets, ok)
      | _ :: _   => some ([], false)

def ipToFile (inLen : Nat) (tb : Tb) : Option (Bytes × Bool) :=
  ipToFile.loop 3 inLen tb.bytes

-- The two bytes that are written to `retBuf`. Six digits leave no room for a NUL in `intBuf`.
def intToFile (inLen : Nat) (tb : Tb) : Option (Option (UInt8 × UInt8)) :=
  let intBuf := (tb.bytes.take inLen).takeWhile isDigit
  let eVal   := atoiDigits intBuf
  if 6 < intBuf.length then none
  else if intBuf.length < inLen then some none
  else if intBuf.length = 6 then none
  else some <| some ((eVal / 256).toUInt8, (eVal % 256).toUInt8)

-- The characters that `StringToFile` copies
def inString (c : UInt8) : Bool :=
  isAlnum c ∨ isSpace c ∨ c ∈ ascii "-_.@?#"

-- A character that is not copied is skipped together with the one behind it.
def stringToFile.loop : (inLen : Nat) → Bytes → Option Bytes
  | 0,     _      => some []
  | _ + 1, []     => none
  | n + 1, c :: l =>
    if inString c then (loop n l).map (c :: ·)
    else if c = 37 then match l with
      | a :: b :: l =>
        (loop (n - 2) l).map fun s => if httpsReadEncoded2 a b = 32 then 32 :: s else s
      | _           => none
    else match l with
      | _ :: l => loop (n - 1) l
      | []     => if n ≤ 1 then some [] else none

-- The text is put together in `tb` itself before it is copied to `retBuf`.
def stringToFile (inLen : Nat) (tb : Tb) : Option (Bytes × Tb) := do
  let s ← stringToFile.loop inLen tb.bytes
  let tb ← tb.strcpy s
  some (s, tb)

-- The digits up to the end or to a character that is none, whether a minus sign stands among them, and
-- whether the end has been reached
def getTemp.loop : (inLen : Nat) → Bytes → Bytes → Bool → Option (Bytes × Bool × Bool)
  | 0,     _,      digits, minus => some (digits, minus, true)
  | _ + 1, [],     _,      _     => none
  | n + 1, c :: l, digits, minus =>
    if c = 45 then match l with
      | c :: l => if isDigit c then loop (n - 1) l (digits ++ [c]) true else some (digits, true, false)
      | []     => none
    else if isDigit c then loop n l (digits ++ [c]) minus
    else some (digits, minus, false)

def getTemp (inLen : Nat) (tb : Tb) : Option (UInt8 × Tb) := do
  let (digits, minus, atEnd) ← getTemp.loop inLen tb.bytes [] false
  if atEnd then
    let tb ← tb.strcpy digits
    let eVal := (atoiDigits digits).toUInt8
    some (if minus then 0xFF - eVal + 1 else eVal, tb)
  else
    let tb ← tb.write 0 digits
    some (0, tb)

-- The bytes that are written to `ds_code`
def ds18b20CodeToArray.loop : (inLen : Nat) → Bytes → Option Bytes
  | 0,     _           => some []
  | n + 1, a :: b :: l => (loop (n - 1) l).map ((asciitohex a <<< 4 + asciitohex b) :: ·)
  | _ + 1, _           => none

def ds18b20CodeToArray (inLen : Nat) (tb : Tb) (dsCode : Buffer 8) : Option (Buffer 8) := do
  let code ← ds18b20CodeToArray.loop inLen tb.bytes
  dsCode.write 0 code

-- `strcmp(tb, s)` finds both equal.
def Buffer.isText (b : Buffer cap) (s : Bytes) : Bool :=
  (s ++ [0]).isPrefixOf b.bytes
