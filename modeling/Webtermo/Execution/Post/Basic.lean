import Webtermo.Library.Run
import Webtermo.Library.Buffer

namespace Post

-- The save handlers that `httpd_post_finished` calls
inductive Handler
  | saveNet | saveTime | saveSNTP | testSNTP | delFile0 | reset
  | sensor (k : Fin 8)
  | pass | saveSms | testSms | saveWApp | testWApp | saveSample | saveInput | saveMQTT | jumpToBoot
  deriving DecidableEq

-- The comparisons of `httpd_post_finished`, in their order
def funkcije : List (Bytes × Handler) := [
  (ascii "/savenet.sva", .saveNet),
  (ascii "/savetime.sva", .saveTime),
  (ascii "/savesntp.sva", .saveSNTP),
  (ascii "/testsntp.sva", .testSNTP),
  (ascii "/delfile0.sva", .delFile0),
  (ascii "/reset.sva", .reset),
  (ascii "/sensor1.sva", .sensor 0),
  (ascii "/sensor2.sva", .sensor 1),
  (ascii "/sensor3.sva", .sensor 2),
  (ascii "/sensor4.sva", .sensor 3),
  (ascii "/sensor5.sva", .sensor 4),
  (ascii "/sensor6.sva", .sensor 5),
  (ascii "/sensor7.sva", .sensor 6),
  (ascii "/sensor8.sva", .sensor 7),
  (ascii "/pass.sva", .pass),
  (ascii "/savesms.sva", .saveSms),
  (ascii "/testsms.sva", .testSms),
  (ascii "/savewapp.sva", .saveWApp),
  (ascii "/wapptest.sva", .testWApp),
  (ascii "/savesample.sva", .saveSample),
  (ascii "/input.sva", .saveInput),
  (ascii "/savemqtt.sva", .saveMQTT),
  (ascii "/boot.sva", .jumpToBoot)
]

-- `strncmp(name, post_funkcija, strlen(name)) == 0` compares a prefix only.
def dispatch (uri : Bytes) : Option Handler :=
  funkcije.find? (·.1.isPrefixOf uri) |>.map (·.2)

-- A chain of pbufs: the payload of the first one and the payloads of those behind it
structure Pbuf where
  payload : Bytes
  next    : List Bytes

def Pbuf.data (p : Pbuf) : Bytes :=
  p.payload ++ p.next.flatten

-- `tot_len`
def Pbuf.totLen (p : Pbuf) : Nat :=
  p.data.length

-- `post_funkcija`, `post_buffer` and `post_buf_write_pos`, which all connections share
structure Shared where
  funkcija : Buffer 64
  buffer   : Buffer 4096
  writePos : Nat

def Shared.init : Shared where
  funkcija := Buffer.zero 64
  buffer   := Buffer.zero 4096
  writePos := 0

def httpdPostBegin (s : Shared) (uri : Bytes) : Option Shared := do
  let funkcija ← s.funkcija.strcpy uri
  some { s with funkcija, writePos := 0 }

-- Only the payload of the first pbuf is copied.
def httpdPostReceiveData (s : Shared) (p : Pbuf) : Option Shared := do
  let buffer ← s.buffer.write s.writePos p.payload
  some { s with buffer, writePos := s.writePos + p.payload.length }

-- What `httpd_post_finished` finds: the save handler that it calls, if any, with `post_buffer` and
-- `post_buf_write_pos`
structure Dispatch where
  handler : Option Handler
  body    : Buffer 4096
  len     : Nat

def httpdPostFinished (s : Shared) : Option (Shared × Dispatch) := do
  let buffer ← s.buffer.write s.writePos [0]
  let uri    ← s.funkcija.text 0
  some ({ s with buffer }, { handler := dispatch uri, body := buffer, len := s.writePos })

section Lemmas

variable {s s₁ : Shared}

theorem httpdPostBegin_spec (h₀ : 0 ∉ uri) (h : uri.length < 64) :
    ∃ s₁, httpdPostBegin s uri = some s₁ ∧ s₁.funkcija.text 0 = some uri ∧ s₁.writePos = 0 := by
  have ⟨funkcija, hf, ht⟩ := Buffer.strcpy_spec (b := s.funkcija) h₀ h
  exact ⟨_, by simp [httpdPostBegin, hf]; rfl, ht, rfl⟩

theorem httpdPostReceiveData_isSome_iff :
    (httpdPostReceiveData s p).isSome ↔ s.writePos + p.payload.length ≤ 4096 := by
  rw [← Buffer.write_isSome_iff (b := s.buffer)]
  cases h : s.buffer.write s.writePos p.payload <;> simp [httpdPostReceiveData, h]

theorem httpdPostReceiveData_spec (h : s.writePos + p.payload.length ≤ 4096) :
    ∃ s₁, httpdPostReceiveData s p = some s₁ ∧ s₁.funkcija = s.funkcija ∧
      s₁.writePos = s.writePos + p.payload.length ∧
      s₁.buffer.bytes.take s₁.writePos = s.buffer.bytes.take s.writePos ++ p.payload := by
  have ⟨buffer, hb⟩ := Buffer.write_eq_some (b := s.buffer) h
  simp only [httpdPostReceiveData, hb, Option.bind_eq_bind, Option.bind_some]
  exact ⟨_, rfl, rfl, rfl, Buffer.take_write_append hb⟩

theorem httpdPostFinished_isSome_iff (hu : s.funkcija.text 0 = some uri) :
    (httpdPostFinished s).isSome ↔ s.writePos < 4096 := by
  have := Buffer.write_isSome_iff (b := s.buffer) (p := s.writePos) (d := [0])
  cases h : s.buffer.write s.writePos [0] <;> simp_all [httpdPostFinished]

theorem httpdPostFinished_spec (hu : s.funkcija.text 0 = some uri) (h : s.writePos < 4096) :
    ∃ s₁ body, httpdPostFinished s =
        some (s₁, { handler := dispatch uri, body, len := s.writePos }) ∧
      body.bytes.take (s.writePos + 1) = s.buffer.bytes.take s.writePos ++ [0] := by
  have ⟨buffer, hb⟩ := Buffer.write_eq_some (b := s.buffer) (d := [0]) h
  exact ⟨_, buffer, by simp [httpdPostFinished, hb, hu]; rfl, Buffer.take_write_append hb⟩

end Lemmas

end Post
