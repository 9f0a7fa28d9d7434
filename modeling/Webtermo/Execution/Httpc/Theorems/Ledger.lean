import Webtermo.Execution.Httpc.State

open Lwip

namespace Httpc

variable {c c₁ : Client} {r : Req} {t o : List Obs} {p : Chain} {a : Answers}

namespace Obs

@[simp] def IsResult : Obs → Bool
  | result .. => true
  | _         => false

-- The books are about memory and results.
def IsEntry : Obs → Bool
  | alloc _ | free _ | received _ | freed _ | recvFn _ | result .. => true
  | _ => false

@[simp] def received? : Obs → List Nat
  | received p => p.ids
  | _          => []

@[simp] def freed? : Obs → List Nat
  | freed p => p.ids
  | _       => []

@[simp] def given? : Obs → List Nat
  | recvFn p => p.ids
  | _        => []

end Obs

-- The pbufs that the client has got, those that it has freed and those that the application has got
def received (t : List Obs) : List Nat :=
  t.flatMap Obs.received?

def freed (t : List Obs) : List Nat :=
  t.flatMap Obs.freed?

def given (t : List Obs) : List Nat :=
  t.flatMap Obs.given?

def results (t : List Obs) : Nat :=
  t.countP Obs.IsResult

def Client.holds (c : Client) : Obj → Bool
  | .state   => c.req.isSome
  | .request => c.req.any (·.request.isSome)
  | .pcb     => c.pcb.isSome

def Client.held (c : Client) : List Nat :=
  c.req.elim [] (·.rxHdrs.ids)

-- What the callbacks rely on
structure Sound (c : Client) : Prop where
  pcb     : ∀ r ∈ c.req, r.pcb = true ∧ c.pcb.isSome
  gone    : c.req = none → c.pcb = none ∧ c.dns = false
  dns     : c.dns → c.pcb = some .closed
  request : ∀ r ∈ c.req, c.pcb ≠ some .connected → r.request.isSome
  headers : ∀ r ∈ c.req, r.parseState = .rxData → r.rxHdrs = []

-- Of what a request has got, everything has been given back once or is still held.
structure Ledger (t : List Obs) (c : Client) : Prop where
  sound   : Sound c
  objs    : ∀ obj, t.count (.free obj) + (if c.holds obj then 1 else 0) = 1
  allocs  : ∀ obj, t.count (.alloc obj) = 1
  outcome : results t = if c.req.isSome then 0 else 1
  pbufs   : (received t).Perm (freed t ++ given t ++ c.held)

@[simp] theorem received_nil : received [] = [] := rfl

@[simp] theorem freed_nil : freed [] = [] := rfl

@[simp] theorem given_nil : given [] = [] := rfl

@[simp] theorem results_nil : results [] = 0 := rfl

@[simp] theorem received_cons : received (x :: t) = x.received? ++ received t := List.flatMap_cons

@[simp] theorem freed_cons : freed (x :: t) = x.freed? ++ freed t := List.flatMap_cons

@[simp] theorem given_cons : given (x :: t) = x.given? ++ given t := List.flatMap_cons

@[simp] theorem results_cons : results (x :: t) = results t + if x.IsResult then 1 else 0 :=
  List.countP_cons

@[simp] theorem received_append : received (t ++ o) = received t ++ received o := List.flatMap_append

@[simp] theorem freed_append : freed (t ++ o) = freed t ++ freed o := List.flatMap_append

@[simp] theorem given_append : given (t ++ o) = given t ++ given o := List.flatMap_append

@[simp] theorem results_append : results (t ++ o) = results t + results o := List.countP_append

@[simp] theorem freed_frees : freed (frees p) = p.ids := by
  unfold frees
  split
  case isTrue => exact List.append_nil _
  case isFalse h =>
    rw [not_not.mp h]
    rfl

@[simp] theorem received_frees : received (frees p) = [] := by
  unfold frees
  split <;> rfl

@[simp] theorem given_frees : given (frees p) = [] := by
  unfold frees
  split <;> rfl

@[simp] theorem results_frees : results (frees p) = 0 := by
  unfold frees
  split <;> rfl

@[simp] theorem count_frees_alloc : (frees p).count (.alloc obj) = 0 := by
  unfold frees
  split <;> rfl

@[simp] theorem count_frees_free : (frees p).count (.free obj) = 0 := by
  unfold frees
  split <;> rfl

-- What a callback does to the books: the state is kept, or all of it is given back with one result.
structure Books (r : Req) (p : Chain) (r₁ : Option Req) (o : List Obs) : Prop where
  allocs  : ∀ obj, o.count (.alloc obj) = 0
  state   : o.count (.free .state) = if r₁.isSome then 0 else 1
  request : o.count (.free .request) + (if r₁.any (·.request.isSome) then 1 else 0) =
    if r.request.isSome then 1 else 0
  pcb     : o.count (.free .pcb) + (if r₁.isSome then 1 else 0) = if r.pcb then 1 else 0
  outcome : results o = if r₁.isSome then 0 else 1
  pbufs   : (p.ids ++ r.rxHdrs.ids).Perm (freed o ++ given o ++ r₁.elim [] (·.rxHdrs.ids))
  input   : received o = []

-- What a callback leaves as it is in a state that is kept
structure Kept (r r₁ : Req) : Prop where
  pcb     : r₁.pcb = r.pcb
  ticks   : r₁.timeoutTicks = r.timeoutTicks
  headers : r₁.parseState = .rxData → r₁.rxHdrs = []

theorem close_books {x : Result} {n : UInt32} {e k : Err} :
    Books r [] none (close r x n e k).1 := by
  cases hr : r.request.isSome <;> cases hp : r.pcb <;> by_cases hk : k ≠ .ok <;> constructor <;>
    simp [close, freeState, hr, hp, hk]

theorem quiet_books (hp : r.pcb = true) : Books r [] (some r) [] := by
  constructor <;> simp [hp]

-- What is not about memory and no result is not entered.
theorem Books.cons (b : Books r p r₁ o) (hx : x.IsEntry = false) : Books r p r₁ (x :: o) := by
  have hn : results (x :: o) = results o ∧ received (x :: o) = received o ∧
      freed (x :: o) = freed o ∧ given (x :: o) = given o := by
    cases x <;> first | exact ⟨rfl, rfl, rfl, rfl⟩ | cases hx
  have hc {y : Obs} (hy : y.IsEntry = true) : (x :: o).count y = o.count y := by
    refine List.count_cons_of_ne ?_
    rintro rfl
    cases hx.symm.trans hy
  obtain ⟨hr, hi, hf, hg⟩ := hn
  constructor
  case allocs => exact fun obj => (hc rfl).trans <| b.allocs obj
  case state => rw [hc rfl, b.state]
  case request => rw [hc rfl, b.request]
  case pcb => rw [hc rfl, b.pcb]
  case outcome => rw [hr, b.outcome]
  case pbufs => rw [hf, hg]; exact b.pbufs
  case input => rw [hi, b.input]

theorem passOn_books (hp : r.pcb = true) (hh : r.rxHdrs = []) :
    Books r p (passOn r p a).1 (passOn r p a).2.1 := by
  unfold passOn
  split
  case isTrue => constructor <;> simp [hp, hh]
  case isFalse h =>
    rw [not_not.mp h]
    exact quiet_books hp

theorem passOn_kept (hh : r.rxHdrs = []) (hx : x ∈ (passOn r p a).1) :
    Kept r x ∧ x.request = r.request := by
  unfold passOn at hx
  split at hx
  case isTrue =>
    cases hx
    exact ⟨⟨rfl, rfl, fun _ => hh⟩, rfl⟩
  case isFalse =>
    cases hx
    exact ⟨⟨rfl, rfl, fun _ => hh⟩, rfl⟩

theorem recvHeaders_books (hp : r.pcb = true) (h : recvHeaders r a = some (r₁, o, e)) :
    Books r [] r₁ o := by
  simp only [recvHeaders, Option.bind_eq_bind, Option.bind_eq_some_iff] at h
  obtain ⟨w, -, h⟩ := h
  cases w with
  | none =>
    cases h
    exact quiet_books hp
  | some w =>
    obtain ⟨n, total⟩ := w
    simp only at h
    split at h
    case isTrue =>
      cases h
      show Books r [] none (.recved total :: .headersDone total n :: _)
      exact Books.cons (Books.cons close_books rfl) rfl
    case isFalse =>
      cases h
      have b := passOn_books (r := { r with hdrContentLen := n, rxHdrs := [], parseState := .rxData })
        (p := r.rxHdrs.freeHeader total) (a := a) hp rfl
      have hi : (r.rxHdrs.freedHeader total).ids ++ (r.rxHdrs.freeHeader total).ids = r.rxHdrs.ids :=
        Chain.freeHeader_ids
      show Books r [] _ (.recved total :: .headersDone total n :: (frees _ ++ _))
      refine Books.cons (Books.cons ?_ rfl) rfl
      constructor
      case allocs => exact fun obj => by simp [b.allocs]
      case state => simpa using b.state
      case request => simpa using b.request
      case pcb => simpa using b.pcb
      case outcome => simpa using b.outcome
      case pbufs =>
        have := b.pbufs
        rw [freed_append, given_append, freed_frees, given_frees, ← hi]
        simpa using this.append_left _
      case input => simpa using b.input

theorem recvHeaders_kept (hs : r.parseState = .waitHeaders) (h : recvHeaders r a = some (r₁, o, e))
    (hx : x ∈ r₁) : Kept r x ∧ x.request = r.request := by
  simp only [recvHeaders, Option.bind_eq_bind, Option.bind_eq_some_iff] at h
  obtain ⟨w, -, h⟩ := h
  cases w with
  | none =>
    cases h
    cases hx
    exact ⟨⟨rfl, rfl, fun h => absurd (hs.symm.trans h) (by decide)⟩, rfl⟩
  | some w =>
    simp only at h
    split at h
    case isTrue =>
      cases h
      cases hx
    case isFalse =>
      cases h
      obtain ⟨k, hr⟩ := passOn_kept rfl hx
      exact ⟨⟨k.pcb, k.ticks, k.headers⟩, hr⟩

-- The first line is only looked at.
theorem parseResponseStatus_frame (h : parseResponseStatus r = some (r₁, e)) :
    ∃ version status, r₁ = { r with rxHttpVersion := version, rxStatus := status } := by
  simp only [parseResponseStatus, Option.bind_eq_bind] at h
  split at h
  case isTrue =>
    obtain ⟨num, -, h⟩ := Option.bind_eq_some_iff.mp h
    obtain ⟨-, h⟩ | ⟨-, h⟩ := ite_eq_iff.mp h
    all_goals
      cases h
      exact ⟨_, _, rfl⟩
  case isFalse =>
    cases h
    exact ⟨_, _, rfl⟩

-- A part of the headers is put behind those so far.
theorem Books.of_headers (b : Books { r with rxHdrs := r.rxHdrs ++ p } [] r₁ o) : Books r p r₁ o where
  allocs  := b.allocs
  state   := b.state
  request := b.request
  pcb     := b.pcb
  outcome := b.outcome
  pbufs   := by
    have h := b.pbufs
    simp only [Chain.ids_nil, List.nil_append, Chain.ids_append] at h
    exact List.perm_append_comm.trans h
  input   := b.input

theorem tcpRecv_books (hp : r.pcb = true) (hh : r.parseState = .rxData → r.rxHdrs = [])
    (h : tcpRecv r p a = some (r₁, o, e)) :
    Books r p r₁ o ∧ ∀ x ∈ r₁, Kept r x ∧ x.request = r.request := by
  unfold tcpRecv at h
  split at h
  case h_1 hs =>
    have h : passOn r p a = (r₁, o, e) := Option.some.inj h
    have b : Books r p (passOn r p a).1 (passOn r p a).2.1 := passOn_books hp (hh hs)
    have k : ∀ x ∈ (passOn r p a).1, Kept r x ∧ x.request = r.request := fun x => passOn_kept (hh hs)
    rw [h] at b k
    exact ⟨b, k⟩
  case h_2 hs =>
    refine ⟨.of_headers <| recvHeaders_books hp h, fun x hx => ?_⟩
    obtain ⟨k, hr⟩ := recvHeaders_kept (r := { r with rxHdrs := r.rxHdrs ++ p }) hs h hx
    exact ⟨⟨k.pcb, k.ticks, k.headers⟩, hr⟩
  case h_3 hs =>
    obtain ⟨⟨r₂, e₂⟩, h₂, h⟩ := Option.bind_eq_some_iff.mp h
    obtain ⟨version, status, rfl⟩ := parseResponseStatus_frame h₂
    simp only at h
    split at h
    case isTrue =>
      have b := recvHeaders_books (r := { r with
        rxHdrs        := r.rxHdrs ++ p
        rxHttpVersion := version
        rxStatus      := status
        parseState    := .waitHeaders }) hp h
      refine ⟨.of_headers ⟨b.allocs, b.state, b.request, b.pcb, b.outcome, b.pbufs, b.input⟩, ?_⟩
      intro x hx
      obtain ⟨k, hr⟩ := recvHeaders_kept rfl h hx
      exact ⟨⟨k.pcb, k.ticks, k.headers⟩, hr⟩
    case isFalse =>
      cases h
      have b := quiet_books (r := { r with
        rxHdrs        := r.rxHdrs ++ p
        rxHttpVersion := version
        rxStatus      := status }) hp
      refine ⟨.of_headers ⟨b.allocs, b.state, b.request, b.pcb, b.outcome, b.pbufs, b.input⟩, ?_⟩
      rintro x ⟨⟩
      exact ⟨⟨rfl, rfl, fun h => absurd (hs.symm.trans h) (by decide)⟩, rfl⟩

theorem tcpConnected_books (hp : r.pcb = true) (h : tcpConnected r write a = some (r₁, o, e)) :
    Books r [] r₁ o ∧ ∀ x ∈ r₁, x.rxHdrs = r.rxHdrs ∧ x.parseState = r.parseState ∧
      x.pcb = r.pcb ∧ x.timeoutTicks = r.timeoutTicks := by
  obtain ⟨text, ht, h⟩ := Option.bind_eq_some_iff.mp h
  split at h
  case isTrue =>
    cases h
    exact ⟨close_books, fun x hx => by cases hx⟩
  case isFalse =>
    cases h
    refine ⟨Books.cons ?_ rfl, ?_⟩
    · constructor <;> simp [ht, hp]
    · rintro x ⟨⟩
      exact ⟨rfl, rfl, rfl, rfl⟩

theorem tcpPoll_books (hp : r.pcb = true) : Books r [] (tcpPoll r a).1 (tcpPoll r a).2.1 := by
  unfold tcpPoll
  simp only
  split
  case isTrue =>
    have b := close_books (r := { r with timeoutTicks := r.timeoutTicks - 1 }) (x := .errTimeout)
      (n := 0) (e := .ok) (k := a.close)
    exact ⟨b.allocs, b.state, b.request, b.pcb, b.outcome, b.pbufs, b.input⟩
  case isFalse =>
    have b := quiet_books (r := { r with timeoutTicks := r.timeoutTicks - 1 }) hp
    exact ⟨b.allocs, b.state, b.request, b.pcb, b.outcome, b.pbufs, b.input⟩

theorem dnsFound_books (hp : r.pcb = true) :
    Books r [] (dnsFound r ipaddr connect a).1 (dnsFound r ipaddr connect a).2 := by
  unfold dnsFound
  split
  case isTrue =>
    split
    case isTrue => exact Books.cons (quiet_books hp) rfl
    case isFalse => exact close_books
  case isFalse => exact close_books

-- lwIP has deallocated the PCB before it calls `httpc_tcp_err`.
theorem err_books (hp : r.pcb = true) :
    Books r [] none (.free .pcb :: (close { r with pcb := false } .errClosed 0 err .ok).1) := by
  have b := close_books (r := { r with pcb := false }) (x := .errClosed) (n := 0) (e := err) (k := .ok)
  refine ⟨fun obj => ?_, ?_, ?_, ?_, ?_, b.pbufs, b.input⟩
  · simpa using b.allocs obj
  · simpa using b.state
  · simpa using b.request
  · simpa [hp] using b.pcb
  · simpa using b.outcome

-- A callback that keeps to the books is entered into the ledger.
theorem Ledger.entry (l : Ledger t c) (hr : c.req = some r) (b : Books r p c₁.req o)
    (hi : i = [] ∧ p = [] ∨ i = [.received p]) (hk : c₁.pcb.isSome = c₁.req.isSome) (hs : Sound c₁) :
    Ledger (t ++ (i ++ o ++ [.returns e])) c₁ := by
  obtain ⟨hp, hc⟩ := l.sound.pcb r hr
  obtain ⟨hi₁, hi₂, hi₃, hi₄, hi₅⟩ : received i = p.ids ∧ freed i = [] ∧ given i = [] ∧
      results i = 0 ∧ ∀ obj, i.count (.alloc obj) = 0 ∧ i.count (.free obj) = 0 := by
    obtain ⟨rfl, rfl⟩ | rfl := hi <;> simp
  constructor
  case sound => exact hs
  case objs =>
    intro obj
    have hl := l.objs obj
    have hn : (t ++ (i ++ o ++ [Obs.returns e])).count (Obs.free obj) =
        t.count (.free obj) + o.count (.free obj) := by
      simp [hi₅]
    rw [hn]
    cases obj with
    | state =>
      have := b.state
      cases h : c₁.req <;> simp [Client.holds, h, hr] at hl this ⊢ <;> omega
    | request =>
      have h₀ : c.holds .request = r.request.isSome := by simp [Client.holds, hr]
      have h₁ : c₁.holds .request = c₁.req.any (·.request.isSome) := rfl
      have := b.request
      rw [h₀] at hl
      rw [h₁]
      omega
    | pcb =>
      have := b.pcb
      simp only [Client.holds, hc, hk, hp, if_true] at hl this ⊢
      omega
  case allocs =>
    intro obj
    have := l.allocs obj
    simp [hi₅, b.allocs, this]
  case outcome =>
    have := l.outcome
    simp only [hr, Option.isSome_some, if_true] at this
    simp [this, hi₄, b.outcome]
  case pbufs =>
    have hl := l.pbufs
    simp only [Client.held, hr, Option.elim_some] at hl
    have hb := b.pbufs
    rw [List.perm_iff_count] at hl hb ⊢
    intro x
    have hl := hl x
    have hb := hb x
    simp only [received_append, freed_append, given_append, hi₁, hi₂, hi₃, b.input, received_cons,
      freed_cons, given_cons, received_nil, freed_nil, given_nil, Obs.received?, Obs.freed?, Obs.given?,
      List.count_append, List.count_nil, Client.held] at hl hb ⊢
    omega

-- The state that a callback keeps is one that the next callbacks may rely on.
structure Fit (r : Req) (q : Option Tcp) : Prop where
  pcb     : r.pcb = true ∧ q.isSome
  request : q ≠ some .connected → r.request.isSome
  headers : r.parseState = .rxData → r.rxHdrs = []

theorem Ledger.callback (l : Ledger t c) (hr : c.req = some r) (b : Books r p r₁ o)
    (hi : i = [] ∧ p = [] ∨ i = [.received p]) (hf : ∀ x ∈ r₁, Fit x pcb)
    (hd : c₁.dns → pcb = some .closed) :
    Ledger (t ++ (c₁.after pcb r₁ (i ++ o) e).2) (c₁.after pcb r₁ (i ++ o) e).1 := by
  cases r₁ with
  | none =>
    refine l.entry hr b hi rfl ⟨?_, fun _ => ⟨rfl, rfl⟩, ?_, ?_, ?_⟩
    case refine_2 => rintro ⟨⟩
    all_goals rintro _ ⟨⟩
  | some x =>
    have f := hf x rfl
    refine l.entry hr b hi f.pcb.2 ⟨?_, ?_, hd, ?_, ?_⟩
    · rintro _ ⟨⟩
      exact f.pcb
    · rintro ⟨⟩
    · rintro _ ⟨⟩
      exact f.request
    · rintro _ ⟨⟩
      exact f.headers

theorem Ledger.of_some (h : some x = some (c₁, o)) (l : Ledger (t ++ x.2) x.1) : Ledger (t ++ o) c₁ := by
  cases h
  exact l

theorem step_ledger (l : Ledger t c) (hp : e.Possible c) (h : step c e = some (c₁, o)) :
    Ledger (t ++ o) c₁ := by
  obtain ⟨r, hr, h⟩ := Option.bind_eq_some_iff.mp h
  have s := l.sound
  obtain ⟨hrp, hcp⟩ := s.pcb r hr
  have nothing {i : List Obs} (hi : i = []) : i = [] ∧ ([] : Chain) = [] ∨ i = [.received []] := .inl ⟨hi, rfl⟩
  cases e with
  | dnsFound ipaddr connect a =>
    have hd : c.pcb = some .closed := s.dns hp
    refine .of_some h <| l.callback hr (dnsFound_books hrp) (nothing rfl) (fun x hx => ?_) (fun h => by cases h)
    unfold dnsFound at hx
    split at hx
    case isTrue =>
      split at hx
      case isTrue =>
        cases hx
        exact ⟨⟨hrp, rfl⟩, fun _ => s.request r hr (by simp [hd]), s.headers r hr⟩
      case isFalse => cases hx
    case isFalse => cases hx
  | connected write a =>
    obtain ⟨⟨r₁, o₁, e₁⟩, h₁, h⟩ := Option.bind_eq_some_iff.mp h
    obtain ⟨b, k⟩ := tcpConnected_books hrp h₁
    refine .of_some h <| l.callback hr b (nothing rfl) (fun x hx => ?_) fun h => ?_
    · obtain ⟨hh, hs, hp, -⟩ := k x hx
      exact ⟨⟨hp.trans hrp, rfl⟩, fun h => absurd rfl h, fun h => hh.trans <| s.headers r hr (hs ▸ h)⟩
    · cases hp.symm.trans (s.dns h)
  | recv p a =>
    obtain ⟨⟨r₁, o₁, e₁⟩, h₁, h⟩ := Option.bind_eq_some_iff.mp h
    obtain ⟨b, k⟩ := tcpRecv_books hrp (s.headers r hr) h₁
    refine .of_some h <| l.callback hr b (.inr rfl) (fun x hx => ?_) s.dns
    obtain ⟨k, hq⟩ := k x hx
    exact ⟨⟨k.pcb.trans hrp, hcp⟩, fun h => absurd hp.1 h, k.headers⟩
  | recvNull a =>
    exact .of_some h <| l.callback hr close_books (nothing rfl) (fun x hx => by cases hx) s.dns
  | err err =>
    refine .of_some h <| l.callback hr (err_books hrp) (nothing rfl) (fun x hx => by cases hx) fun h => ?_
    obtain hp | hp := hp <;> cases hp.symm.trans (s.dns h)
  | poll a =>
    refine .of_some h <| l.callback hr (tcpPoll_books hrp) (nothing rfl) (fun x hx => ?_) s.dns
    unfold tcpPoll at hx
    simp only at hx
    split at hx
    case isTrue => cases hx
    case isFalse =>
      cases hx
      exact ⟨⟨hrp, hcp⟩, s.request r hr, s.headers r hr⟩
  | sent =>
    refine .of_some h <| l.callback hr (quiet_books hrp) (nothing rfl) (fun x hx => ?_) s.dns
    cases hx
    exact ⟨⟨hrp, hcp⟩, s.request r hr, s.headers r hr⟩

-- The number texts in the headers have room in the arrays that they are copied to, and a character that
-- ends the number is in these.
def Event.Fits (c : Client) : Event → Prop
  | recv p a => ∀ r ∈ c.req, (tcpRecv r p a).isSome
  | _        => True

theorem Event.Possible.req {e : Event} (hp : e.Possible c) (s : Sound c) : ∃ r, c.req = some r := by
  refine Option.ne_none_iff_exists'.mp fun hr => ?_
  obtain ⟨hq, hd⟩ := s.gone hr
  cases e with
  | dnsFound ipaddr connect a => exact absurd (hd.symm.trans hp) Bool.false_ne_true
  | connected write a => cases hq.symm.trans hp
  | recv p a => cases hq.symm.trans hp.1
  | recvNull a => cases hq.symm.trans hp
  | err err => obtain hp | hp := hp <;> cases hq.symm.trans hp
  | poll a => obtain hp | hp := hp <;> cases hq.symm.trans hp
  | sent => cases hq.symm.trans hp

theorem step_exists {e : Event} (s : Sound c) (hp : e.Possible c) (hf : e.Fits c) :
    ∃ c₁ o, step c e = some (c₁, o) := by
  obtain ⟨r, hr⟩ := hp.req s
  cases e with
  | connected write a =>
    obtain ⟨text, ht⟩ := Option.isSome_iff_exists.mp <| s.request r hr <| by
      rw [show c.pcb = some .connecting from hp]
      decide
    simp only [step, hr, tcpConnected, ht, Option.bind_eq_bind, Option.bind_some]
    split <;> exact ⟨_, _, rfl⟩
  | recv p a =>
    obtain ⟨x, hx⟩ := Option.isSome_iff_exists.mp <| hf r hr
    simp only [step, hr, hx, Option.bind_eq_bind, Option.bind_some]
    exact ⟨_, _, rfl⟩
  | _ =>
    simp only [step, hr, Option.bind_eq_bind, Option.bind_some]
    exact ⟨_, _, rfl⟩

theorem run_ledger {es : List Event} (l : Ledger t c)
    (g : client.Guarded (fun c x => x.Possible c ∧ x.Fits c) c es) :
    ∃ c₁ o, client.run c es = some (c₁, o) ∧ Ledger (t ++ o) c₁ :=
  Machine.run_total (I := Ledger) (fun {t c x} l hx => by
    obtain ⟨c₁, o, hs⟩ := step_exists l.sound hx.1 hx.2
    exact ⟨c₁, o, hs, step_ledger l hx.1 hs⟩) l g

def gone : Client :=
  ⟨none, none, false⟩

theorem Sound.eq_gone (s : Sound c) (h : c.req = none) : c = Httpc.gone := by
  obtain ⟨hp, hd⟩ := s.gone h
  obtain ⟨_, _, _⟩ := c
  cases h
  cases hp
  cases hd
  rfl

-- What a request has got before it is given up
def Req.got (r : Req) : Obj → Nat
  | .state   => 1
  | .request => if r.request.isSome then 1 else 0
  | .pcb     => if r.pcb then 1 else 0

theorem freeState_counts {b : Obj} : (freeState r k).1.count (.alloc b) = 0 ∧
    (freeState r k).1.count (.free b) = r.got b := by
  cases hr : r.request.isSome <;> cases hp : r.pcb <;> by_cases hk : k ≠ .ok <;> cases b <;>
    simp [freeState, Req.got, hr, hp, hk]

theorem freeState_quiet (hh : r.rxHdrs = []) : results (freeState r k).1 = 0 ∧
    received (freeState r k).1 = [] ∧ freed (freeState r k).1 = [] ∧ given (freeState r k).1 = [] := by
  cases hr : r.request.isSome <;> cases hp : r.pcb <;> by_cases hk : k ≠ .ok <;>
    simp [freeState, hr, hp, hk, hh]

theorem gone_sound : Sound gone := by
  refine ⟨?_, fun _ => ⟨rfl, rfl⟩, ?_, ?_, ?_⟩
  case refine_2 => rintro ⟨⟩
  all_goals rintro _ ⟨⟩

-- A request that is not accepted leaves nothing behind.
structure Refused (c : Client) (o : List Obs) (e : Err) : Prop where
  err    : e ≠ .ok
  gone   : c = gone
  quiet  : results o = 0
  counts : ∀ obj, o.count (.free obj) = o.count (.alloc obj) ∧ o.count (.alloc obj) ≤ 1
  pbufs  : received o = [] ∧ freed o = [] ∧ given o = []

structure Fresh (r : Req) : Prop where
  ticks   : r.timeoutTicks = pollTimeout
  state   : r.parseState = .waitFirstLine
  headers : r.rxHdrs = []
  status  : r.rxStatus = 0
  length  : r.rxContentLen = 0

structure Accepted (c : Client) (o : List Obs) (e : Err) : Prop where
  ok     : e = .ok
  ledger : Ledger o c
  req    : ∃ r, c.req = some r ∧ Fresh r
  trace  : ∃ o₁, o = [.alloc .state, .alloc .request, .alloc .pcb] ++ o₁ ∧ (o₁ = [] ∨ o₁ = [.connect])

theorem accepted_of {c : Client} (hr : c.req = some r) (f : Fresh r)
    (hq : r.pcb = true ∧ r.request.isSome)
    (hc : c.pcb = some .connecting ∧ c.dns = false ∨ c.pcb = some .closed)
    (ho : o = [] ∨ o = [.connect]) :
    Accepted c ([.alloc .state, .alloc .request, .alloc .pcb] ++ o) .ok := by
  obtain ⟨hp, hq⟩ := hq
  have hh := f.headers
  have hs : c.pcb.isSome := by obtain ⟨hc, -⟩ | hc := hc <;> rw [hc] <;> rfl
  have hn : c.pcb ≠ some .connected := by obtain ⟨hc, -⟩ | hc := hc <;> rw [hc] <;> decide
  have hd : c.dns → c.pcb = some .closed := by
    obtain ⟨-, hc⟩ | hc := hc
    · exact fun h => absurd (hc.symm.trans h) Bool.false_ne_true
    · exact fun _ => hc
  refine ⟨rfl, ⟨⟨?_, ?_, hd, ?_, ?_⟩, fun obj => ?_, fun obj => ?_, ?_, ?_⟩, ⟨r, hr, f⟩, o, rfl, ho⟩
  · exact fun x hx => Option.some.inj (hr.symm.trans hx) ▸ ⟨hp, hs⟩
  · exact fun h => by cases hr.symm.trans h
  · exact fun x hx _ => Option.some.inj (hr.symm.trans hx) ▸ hq
  · exact fun x hx _ => Option.some.inj (hr.symm.trans hx) ▸ hh
  · obtain rfl | rfl := ho <;> cases obj <;> simp [Client.holds, hr, hq, hs]
  · obtain rfl | rfl := ho <;> cases obj <;> rfl
  · obtain rfl | rfl := ho <;> simp [hr]
  · obtain rfl | rfl := ho <;> simp [hr, Client.held, hh]

theorem refused_of (he : e ≠ .ok) (hh : r.rxHdrs = [])
    (hl : results o = 0 ∧ received o = [] ∧ freed o = [] ∧ given o = [])
    (hc : ∀ obj, o.count (.alloc obj) = r.got obj ∧ o.count (.free obj) = 0) :
    Refused gone (o ++ (freeState r ok).1) e where
  err    := he
  gone   := rfl
  quiet  := by rw [results_append, hl.1, (freeState_quiet hh).1]
  pbufs  := by
    obtain ⟨-, hi, hf, hg⟩ := freeState_quiet (k := ok) hh
    simp [hl, hi, hf, hg]
  counts := by
    intro obj
    have hg : r.got obj ≤ 1 := by
      cases obj with
      | state => exact Nat.le_refl 1
      | request | pcb =>
        simp only [Req.got]
        split <;> decide
    obtain ⟨ha, hf⟩ := freeState_counts (r := r) (k := ok) (b := obj)
    rw [List.count_append, List.count_append, (hc obj).1, (hc obj).2, ha, hf]
    omega

theorem getFileDns_cases {a : Start} (h : getFileDns serverName uri a = (c, o, e)) :
    Accepted c o e ∨ Refused c o e := by
  simp only [getFileDns] at h
  split at h
  case isTrue =>
    cases h
    exact .inr ⟨by decide, rfl, rfl, fun obj => ⟨rfl, Nat.zero_le _⟩, rfl, rfl, rfl⟩
  case isFalse =>
    split at h
    case isTrue =>
      cases h
      exact .inr ⟨by decide, rfl, rfl, fun obj => ⟨rfl, Nat.zero_le _⟩, rfl, rfl, rfl⟩
    case isFalse =>
      split at h
      case isTrue =>
        cases h
        exact .inr <| refused_of (o := [.alloc .state]) (by decide) rfl ⟨rfl, rfl, rfl, rfl⟩ fun obj => by
          cases obj <;> simp [Req.got]
      case isFalse =>
        split at h
        case isTrue =>
          cases h
          exact .inr <| refused_of (o := [.alloc .state, .alloc .request]) (by decide) rfl
            ⟨rfl, rfl, rfl, rfl⟩ fun obj => by cases obj <;> simp [Req.got]
        case isFalse =>
          have all {e : Err} {r : Req} (he : e ≠ .ok) (hh : r.rxHdrs = []) (hq : r.request.isSome)
              (hp : r.pcb = true) :
              Refused gone ([.alloc .state, .alloc .request, .alloc .pcb] ++ (freeState r a.close).1) e :=
            refused_of he hh ⟨rfl, rfl, rfl, rfl⟩ fun obj => by cases obj <;> simp [Req.got, hq, hp]
          split at h
          case isTrue =>
            split at h
            case isTrue =>
              cases h
              exact .inl <| accepted_of rfl ⟨rfl, rfl, rfl, rfl, rfl⟩ ⟨rfl, rfl⟩ (.inl ⟨rfl, rfl⟩) (.inr rfl)
            case isFalse hc =>
              cases h
              exact .inr <| all hc rfl rfl rfl
          case isFalse hd =>
            split at h
            case isTrue =>
              cases h
              exact .inl <| accepted_of (o := []) rfl ⟨rfl, rfl, rfl, rfl, rfl⟩ ⟨rfl, rfl⟩ (.inr rfl) (.inl rfl)
            case isFalse =>
              cases h
              exact .inr <| all hd rfl rfl rfl

-- A request and the callbacks that lwIP makes for it, in any order in which it can make them: what has been
-- allocated is released once and not used afterwards, the result is reported once, and each pbuf is freed
-- once or handed on to the application once.
theorem ledger_law {a : Start} {es : List Event} (h : getFileDns serverName uri a = (c, o, e))
    (g : client.Guarded (fun c x => x.Possible c ∧ x.Fits c) c es) :
    ∃ c₁ t, client.run c es = some (c₁, t) ∧
      (∀ obj, (o ++ t).count (.free obj) + (if c₁.holds obj then 1 else 0) =
        (o ++ t).count (.alloc obj) ∧ (o ++ t).count (.alloc obj) ≤ 1) ∧
      results (o ++ t) = (if e = .ok ∧ c₁.req = none then 1 else 0) ∧
      (c₁.req = none → c₁ = gone) ∧
      (received (o ++ t)).Perm (freed (o ++ t) ++ given (o ++ t) ++ c₁.held) := by
  obtain ha | hr := getFileDns_cases h
  case inl =>
    obtain ⟨c₁, t, hr, l⟩ := run_ledger ha.ledger g
    refine ⟨c₁, t, hr, fun obj => ?_, ?_, fun hn => ?_, l.pbufs⟩
    · rw [l.objs obj, l.allocs obj]
      exact ⟨rfl, Nat.le_refl 1⟩
    · rw [l.outcome]
      cases hq : c₁.req <;> simp [ha.ok]
    · exact l.sound.eq_gone hn
  case inr =>
    obtain ⟨he, rfl, hq, hc, hi, hf, hv⟩ := hr
    cases es with
    | nil =>
      refine ⟨gone, [], rfl, fun obj => ?_, ?_, fun _ => rfl, ?_⟩
      · rw [List.append_nil, (hc obj).1]
        refine ⟨?_, (hc obj).2⟩
        cases obj <;> rfl
      · simp [hq, he]
      · simp [hi, hf, hv, gone, Client.held]
    | cons x es =>
      obtain ⟨r, hr⟩ := (Machine.Guarded.head g).1.req gone_sound
      cases hr

instance : Decidable c.Active :=
  inferInstanceAs <| Decidable (_ ∨ _)

instance {e : Event} : Decidable (e.Possible c) :=
  match e with
  | .dnsFound .. => inferInstanceAs <| Decidable (c.dns = true)
  | .connected .. | .recvNull _ | .sent => inferInstanceAs <| Decidable (c.pcb = _)
  | .recv _ _ => inferInstanceAs <| Decidable (c.pcb = _ ∧ _)
  | .err _ | .poll _ => inferInstanceAs <| Decidable c.Active

instance {e : Event} : Decidable (e.Fits c) :=
  match e with
  | .recv p a => inferInstanceAs <| Decidable (∀ r ∈ c.req, (tcpRecv r p a).isSome)
  | .dnsFound .. | .connected .. | .recvNull _ | .err _ | .poll _ | .sent => isTrue trivial

def fine : Answers :=
  ⟨.ok, .ok, .ok⟩

def request : Client × List Obs × Err :=
  getFileDns (ascii "api.callmebot.com") (ascii "/whatsapp.php") ⟨true, true, true, .inProgress, .ok, .ok⟩

def answered : List Event := [
  .dnsFound true .ok fine,
  .connected .ok fine,
  .poll fine,
  .recv [⟨1, ascii "HTTP/1.1 200 OK\r\n\r\n"⟩, ⟨2, ascii "queued"⟩] fine,
  .recvNull fine
]

theorem ledger_law_answered : ∃ c o e, request = (c, o, e) ∧
    client.Guarded (fun c x => x.Possible c ∧ x.Fits c) c answered ∧
    ∃ c₁ t, client.run c answered = some (c₁, t) ∧
      (∀ obj, (o ++ t).count (.free obj) + (if c₁.holds obj then 1 else 0) =
        (o ++ t).count (.alloc obj) ∧ (o ++ t).count (.alloc obj) ≤ 1) ∧
      results (o ++ t) = (if e = .ok ∧ c₁.req = none then 1 else 0) ∧
      (c₁.req = none → c₁ = gone) ∧
      (received (o ++ t)).Perm (freed (o ++ t) ++ given (o ++ t) ++ c₁.held) := by
  have g : client.Guarded (fun c x => x.Possible c ∧ x.Fits c) request.1 answered := by decide +kernel
  generalize h : request = x at g
  obtain ⟨c, o, e⟩ := x
  exact ⟨c, o, e, rfl, g, ledger_law h g⟩

namespace Obs

@[simp] def IsTimeout : Obs → Bool
  | result .errTimeout .. => true
  | _                     => false

end Obs

def Event.IsPoll : Event → Bool
  | poll _ => true
  | _      => false

def timeouts (t : List Obs) : Nat :=
  t.countP Obs.IsTimeout

def polls (es : List Event) : Nat :=
  es.countP Event.IsPoll

@[simp] theorem timeouts_nil : timeouts [] = 0 := rfl

@[simp] theorem timeouts_cons : timeouts (x :: t) = timeouts t + if x.IsTimeout then 1 else 0 :=
  List.countP_cons

@[simp] theorem timeouts_append : timeouts (t ++ o) = timeouts t + timeouts o := List.countP_append

@[simp] theorem timeouts_frees : timeouts (frees p) = 0 := by
  unfold frees
  split <;> rfl

theorem close_timeouts {x : Result} :
    timeouts (close r x n e k).1 = if x = .errTimeout then 1 else 0 := by
  cases hr : r.request.isSome <;> cases hp : r.pcb <;> by_cases hk : k ≠ .ok <;> cases x <;>
    simp [close, freeState, hr, hp, hk]

theorem passOn_timeouts : timeouts (passOn r p a).2.1 = 0 := by
  unfold passOn
  split <;> rfl

theorem recvHeaders_timeouts (h : recvHeaders r a = some (r₁, o, e)) : timeouts o = 0 := by
  simp only [recvHeaders, Option.bind_eq_bind, Option.bind_eq_some_iff] at h
  obtain ⟨w, -, h⟩ := h
  cases w with
  | none =>
    cases h
    rfl
  | some w =>
    simp only at h
    split at h
    case isTrue =>
      cases h
      simp [close_timeouts]
    case isFalse =>
      cases h
      simp [passOn_timeouts]

theorem tcpRecv_timeouts (h : tcpRecv r p a = some (r₁, o, e)) : timeouts o = 0 := by
  unfold tcpRecv at h
  split at h
  case h_1 =>
    have h : passOn r p a = (r₁, o, e) := Option.some.inj h
    have := @passOn_timeouts r p a
    rwa [h] at this
  case h_2 => exact recvHeaders_timeouts h
  case h_3 =>
    obtain ⟨⟨r₂, e₂⟩, -, h⟩ := Option.bind_eq_some_iff.mp h
    simp only at h
    split at h
    case isTrue => exact recvHeaders_timeouts h
    case isFalse =>
      cases h
      rfl

theorem tcpConnected_timeouts (h : tcpConnected r write a = some (r₁, o, e)) : timeouts o = 0 := by
  obtain ⟨text, -, h⟩ := Option.bind_eq_some_iff.mp h
  split at h
  case isTrue =>
    cases h
    exact close_timeouts
  case isFalse =>
    cases h
    rfl

theorem dnsFound_quiet : (∀ x ∈ (dnsFound r ipaddr connect a).1, x = r) ∧
    timeouts (dnsFound r ipaddr connect a).2 = 0 := by
  unfold dnsFound
  split
  case isTrue =>
    split
    case isTrue => exact ⟨fun x hx => (Option.some.inj hx).symm, rfl⟩
    case isFalse => exact ⟨fun x hx => absurd hx (Option.not_mem_none x), close_timeouts⟩
  case isFalse => exact ⟨fun x hx => absurd hx (Option.not_mem_none x), close_timeouts⟩

theorem tcpRecvNull_timeouts : timeouts (tcpRecvNull r a).1 = 0 := by
  unfold tcpRecvNull
  simp only [close_timeouts]
  split
  case isTrue => rfl
  case isFalse => split <;> rfl

-- What is left of the time of a request, if it has not come to its end
def Ticks (k : Nat) (c : Client) : Prop :=
  ∀ r ∈ c.req, r.timeoutTicks = k

theorem after_ticks (h : ∀ x ∈ r₁, x.timeoutTicks = k) : Ticks k (c.after q r₁ o e).1 := by
  cases r₁ with
  | none   => rintro _ ⟨⟩
  | some x =>
    rintro _ ⟨⟩
    exact h x rfl

theorem after_obs : timeouts (c.after q r₁ o e).2 = timeouts o := by
  cases r₁ <;> simp [Client.after]

-- What a callback leaves of the time, and whether it reports that it is over
structure Timed (k n : Nat) (c : Client) (o : List Obs) : Prop where
  ticks : Ticks k c
  late  : timeouts o = n

theorem Timed.of_some {x : Client × List Obs} (h : some x = some (c₁, o)) (d : Timed k n x.1 x.2) :
    Timed k n c₁ o := by
  cases h
  exact d

theorem Timed.after (h : ∀ x ∈ r₁, x.timeoutTicks = k) (ho : timeouts o = n) :
    Timed k n (c.after q r₁ o e).1 (c.after q r₁ o e).2 :=
  ⟨after_ticks h, after_obs.trans ho⟩

-- Only a poll takes from the time.
theorem step_quiet {x : Event} (s : Sound c) (hr : c.req = some r) (hx : x.IsPoll = false)
    (h : step c x = some (c₁, o)) : Timed r.timeoutTicks 0 c₁ o := by
  have same {r₁ : Option Req} (h : r₁ = none ∨ r₁ = some r) : ∀ x ∈ r₁, x.timeoutTicks = r.timeoutTicks := by
    obtain rfl | rfl := h
    · rintro _ ⟨⟩
    · rintro _ ⟨⟩
      rfl
  obtain ⟨_, hr₁, h⟩ := Option.bind_eq_some_iff.mp h
  cases hr.symm.trans hr₁
  have hp := (s.pcb r hr).1
  cases x with
  | dnsFound ipaddr connect a =>
    obtain ⟨hq, ht⟩ := @dnsFound_quiet r a ipaddr connect
    exact .of_some h <| .after (fun x hx => congrArg _ (hq x hx)) ht
  | connected write a =>
    obtain ⟨⟨r₁, o₁, e₁⟩, h₁, h⟩ := Option.bind_eq_some_iff.mp h
    obtain ⟨-, k⟩ := tcpConnected_books hp h₁
    exact .of_some h <| .after (fun x hx => (k x hx).2.2.2) (tcpConnected_timeouts h₁)
  | recv p a =>
    obtain ⟨⟨r₁, o₁, e₁⟩, h₁, h⟩ := Option.bind_eq_some_iff.mp h
    obtain ⟨-, k⟩ := tcpRecv_books hp (s.headers r hr) h₁
    refine .of_some h <| .after (fun x hx => (k x hx).1.ticks) ?_
    simp [tcpRecv_timeouts h₁]
  | recvNull a =>
    exact .of_some h <| .after (same <| .inl rfl) tcpRecvNull_timeouts
  | err err =>
    have ho := close_timeouts (r := { r with pcb := false }) (n := 0) (e := err) (k := .ok)
      (x := .errClosed)
    exact .of_some h <| .after (same <| .inl rfl) ho
  | poll a => cases hx
  | sent => exact .of_some h <| .after (same <| .inr rfl) rfl

theorem step_poll (hr : c.req = some r) (h : step c (.poll a) = some (c₁, o)) :
    if r.timeoutTicks ≤ 1 then c₁.req = none ∧ timeouts o = 1
    else c₁.req.isSome ∧ Timed (r.timeoutTicks - 1) 0 c₁ o := by
  obtain ⟨_, hr₁, h⟩ := Option.bind_eq_some_iff.mp h
  cases hr.symm.trans hr₁
  simp only [tcpPoll] at h
  by_cases hk : r.timeoutTicks - 1 = 0
  case pos =>
    rw [if_pos hk] at h
    cases h
    rw [if_pos (by omega)]
    exact ⟨rfl, by simp [close_timeouts]⟩
  case neg =>
    rw [if_neg hk] at h
    cases h
    rw [if_neg (by omega)]
    refine ⟨rfl, ?_, rfl⟩
    rintro _ ⟨⟩
    rfl

-- As long as a request has time left, it has had fewer polls than it has time.
theorem run_polls {es : List Event} (l : Ledger o c) (hr : c.req = some r) (hk : 0 < r.timeoutTicks)
    (g : client.Guarded (fun c x => x.Possible c ∧ x.Fits c) c es)
    (h : client.run c es = some (c₁, t)) : polls es ≤ r.timeoutTicks ∧
      timeouts t = (if polls es = r.timeoutTicks then 1 else 0) ∧
      (polls es = r.timeoutTicks → c₁.req = none) := by
  induction es generalizing c r t o with
  | nil =>
    cases h
    have : ¬0 = r.timeoutTicks := by omega
    exact ⟨Nat.zero_le _, (if_neg this).symm, fun h => absurd h this⟩
  | cons x es ih =>
    obtain ⟨c₂, o₁, o₂, hs, hr₁, rfl⟩ := Machine.run_cons h
    have l₂ := step_ledger l (Machine.Guarded.head g).1 hs
    have g₂ := Machine.Guarded.tail g hs
    -- There are no callbacks once the request has come to its end.
    have last (hn : c₂.req = none) : es = [] := by
      cases es with
      | nil => rfl
      | cons y es =>
        obtain ⟨r₂, hr₂⟩ := (Machine.Guarded.head g₂).1.req l₂.sound
        cases hn.symm.trans hr₂
    rw [timeouts_append]
    cases hx : x.IsPoll with
    | false =>
      have hp : polls (x :: es) = polls es := by simp [polls, hx]
      obtain ⟨ht, ho⟩ := step_quiet l.sound hr hx hs
      rw [hp, ho, Nat.zero_add]
      cases hr₂ : c₂.req with
      | none =>
        cases last hr₂
        cases hr₁
        have : ¬0 = r.timeoutTicks := by omega
        exact ⟨Nat.zero_le _, (if_neg this).symm, fun h => absurd h this⟩
      | some r₂ =>
        have hk₂ := ht r₂ hr₂
        rw [← hk₂]
        exact ih l₂ hr₂ (hk₂ ▸ hk) g₂ hr₁
    | true =>
      have hp : polls (x :: es) = polls es + 1 := by simp [polls, hx]
      obtain ⟨a, rfl⟩ : ∃ a, x = .poll a := by
        cases x with
        | poll a => exact ⟨a, rfl⟩
        | _ => cases hx
      have hs := step_poll hr hs
      rw [hp]
      split at hs
      case isTrue hk₁ =>
        obtain ⟨hn, ho⟩ := hs
        cases last hn
        cases hr₁
        have : 0 + 1 = r.timeoutTicks := by omega
        exact ⟨hk, ((if_pos this).trans ho.symm).symm, fun _ => hn⟩
      case isFalse hk₁ =>
        obtain ⟨hq, ht, ho⟩ := hs
        obtain ⟨r₂, hr₂⟩ := Option.isSome_iff_exists.mp hq
        have hk₂ := ht r₂ hr₂
        obtain ⟨hle, hc, hn⟩ := ih l₂ hr₂ (by omega) g₂ hr₁
        have : polls es + 1 = r.timeoutTicks ↔ polls es = r₂.timeoutTicks := by omega
        rw [ho, Nat.zero_add, hc]
        simp only [this]
        exact ⟨by omega, trivial, hn⟩

-- Whatever comes in between, a request has come to its end at its 30th poll, and a timeout is reported
-- exactly if it gets that far.
theorem timeout_law {a : Start} {es : List Event} (h : getFileDns serverName uri a = (c, o, .ok))
    (g : client.Guarded (fun c x => x.Possible c ∧ x.Fits c) c es) :
    ∃ c₁ t, client.run c es = some (c₁, t) ∧
      polls es ≤ 30 ∧ timeouts t = (if polls es = 30 then 1 else 0) ∧ (polls es = 30 → c₁ = gone) := by
  obtain ha | hn := getFileDns_cases h
  case inl =>
    obtain ⟨r, hq, f⟩ := ha.req
    have hk : r.timeoutTicks = 30 := f.ticks
    obtain ⟨c₁, t, hr, l⟩ := run_ledger ha.ledger g
    obtain ⟨hle, ht, hn⟩ := run_polls ha.ledger hq (by omega) g hr
    rw [hk] at hle ht hn
    exact ⟨c₁, t, hr, hle, ht, fun hp => l.sound.eq_gone <| hn hp⟩
  case inr => exact absurd rfl hn.err

-- The server never answers.
def silent : List Event :=
  [.dnsFound true .ok fine, .connected .ok fine, .sent] ++ List.replicate 30 (.poll fine)

theorem timeout_law_silent : ∃ c o, request = (c, o, .ok) ∧ polls silent = 30 ∧
    client.Guarded (fun c x => x.Possible c ∧ x.Fits c) c silent ∧
    ∃ c₁ t, client.run c silent = some (c₁, t) ∧
      polls silent ≤ 30 ∧ timeouts t = (if polls silent = 30 then 1 else 0) ∧
      (polls silent = 30 → c₁ = gone) := by
  have g : client.Guarded (fun c x => x.Possible c ∧ x.Fits c) request.1 silent := by decide +kernel
  have he : request.2.2 = .ok := by decide +kernel
  generalize h : request = x at g he
  obtain ⟨c, o, e⟩ := x
  cases he
  exact ⟨c, o, rfl, by decide, g, timeout_law h g⟩

end Httpc
