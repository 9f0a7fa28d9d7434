import Webtermo.Execution.Auth.State
import Webtermo.Execution.Config.Boot
import Webtermo.Execution.Config.Handlers

open Auth (amp colon)

-- The user and the password from the page that changes them to the next login
namespace Login

-- What the buffers of the login hold. The first colon of a login ends the user name.
@[ext]
structure Pair where
  username        : Bytes
  password        : Bytes
  username_length : username.length < 40
  password_length : password.length < 39
  username_chars  : ∀ c ∈ username, c ≠ 0 ∧ c ≠ colon
  password_chars  : ∀ c ∈ password, c ≠ 0
  deriving DecidableEq

def Pair.text (p : Pair) : Bytes :=
  p.username ++ colon :: p.password

-- A URI with the login between its first two ampersands
def Pair.uri (p : Pair) (page query : Bytes) : Bytes :=
  page ++ amp :: (Base64.encode p.text ++ amp :: query)

def printable (c : UInt8) : Bool :=
  32 ≤ c ∧ c ≤ 126

-- What may be set as the user and the password
structure Account extends Pair where
  username_size      : username ≠ [] ∧ username.length ≤ 15
  password_size      : password ≠ [] ∧ password.length ≤ 15
  username_printable : username.all printable
  password_printable : password.all printable

-- `SendData` of `pass.html`
def Account.document (a : Account) : Bytes :=
  ascii "<?xml version='1.0' encoding='iso-8859-1'?>" ++ ascii "<LOGIN>" ++
    (ascii "<PASS>" ++ Base64.encode a.password ++ ascii "</PASS>") ++
    (ascii "<UNAME>" ++ Base64.encode a.username ++ ascii "</UNAME>") ++ ascii "</LOGIN>"

-- The login answers every such URI, and admits no pair but `a`.
def Admits (ram : Config.Ram) (a : Pair) : Prop :=
  ∀ (b : Pair) (page query : Bytes) (authenUri : Buffer 100) (r : Auth.Request),
    page ≠ [] → amp ∉ page → authenUri.text 0 = some (b.uri page query) →
    Auth.State.checkAuth ⟨authenUri, ram.username, ram.password⟩ r = some (decide (b = a))

-- `Pass` is called with the document, in front of what lies in the memory behind it, and the next start
-- finds the jumper open.
def Changed (atof : Bytes → UInt32) (a : Account) (behind : Bytes) (s : Config.State) : Prop :=
  ∃ s₁ t r, (Config.handler atof ⟨a.document, behind⟩).run s Config.pass = some (s₁, t) ∧
    Config.initParam false (.reset s₁.eeprom) = some r ∧ Admits r.ram a.toPair

-- `Base64Decode` leaves a NUL behind a text unless its length is a multiple of three. Otherwise `pb` has
-- to hold one there: behind the password from before, and behind the user name from before the
-- password was put into `pb`, whose last character is in the way of a shorter name.
structure Terminated (a : Account) (pb : Buffer 40) : Prop where
  password : 3 ∣ a.password.length → pb.get a.password.length = 0
  username : 3 ∣ a.username.length →
    a.password.length ≤ a.username.length ∧ pb.get a.username.length = 0

end Login
