import Webtermo.Execution.I2c.State

open Early

namespace I2c

-- START has been issued, and no STOP since.
def held (log : List Op) : Bool :=
  log.foldl (fun h x => match x with | .start => true | .stop => false | _ => h) false

def Env.Comes (env : Env) (i : Nat) : Prop :=
  (env.event i).any (· ≤ icTimeoutMs)

-- The 1-wire bus is busy.
abbrev Busy (status : UInt8) : Prop :=
  status &&& status1wb ≠ 0

-- The statuses that are read until the 1-wire bus is idle
inductive Polled : List UInt8 → Prop
  | idle (h : ¬Busy status) : Polled [status]
  | busy (h : Busy status) : Polled statuses → Polled (status :: statuses)

-- The whole exchange with the chip at an address
inductive Exchange (adr : UInt8) : Call → List Op → Prop
  | owReset {channel a b c : UInt8} {statuses : List UInt8} (h : Polled statuses) :
    Exchange adr (.owReset channel) <|
    ([.start, .address adr .transmitter, .data cmd1wrs, .start, .address adr .receiver, .ack true,
      .receive a] : List Op) ++ statuses.map Op.receive ++
    ([.ack false, .receive b, .ack false, .receive c, .stop] : List Op)
  | owWriteByte {channel dta a b : UInt8} {statuses : List UInt8} (h : Polled statuses) :
    Exchange adr (.owWriteByte channel dta) <|
    ([.start, .address adr .transmitter, .data cmd1wwb, .data dta, .start, .address adr .receiver,
      .ack true, .receive a] : List Op) ++ statuses.map Op.receive ++
    ([.ack false, .receive b, .stop] : List Op)
  | owReadByte {channel dta a b : UInt8} {statuses : List UInt8} (h : Polled statuses) :
    Exchange adr (.owReadByte channel) <|
    ([.start, .address adr .transmitter, .data cmd1wrb, .start, .address adr .receiver, .ack true,
      .receive a] : List Op) ++ statuses.map Op.receive ++
    ([.ack false, .receive b, .ack true, .start, .address adr .transmitter, .data cmdSrp,
      .data 0xE1, .start, .address adr .receiver, .ack false, .receive dta, .stop] : List Op)

namespace Call

def channel : Call → UInt8
  | owReset channel | owWriteByte channel _ | owReadByte channel | ds2482Reset channel
  | ds2482Init channel => channel

-- The waits before the loop over the status
def waits : Call → Option Nat
  | owReset _ | owReadByte _       => some 7
  | owWriteByte _ _                => some 8
  | ds2482Reset _ | ds2482Init _ => none

-- Every event comes up to the loop over the status and in it, and the bus is still busy when
-- `delay_count` reaches `DELAY_COUNT_NUM`.
def Exhausted (env : Env) (call : Call) : Prop :=
  ∃ n, call.waits = some n ∧ (∀ i < n + (delayCountNum + 1), env.Comes i) ∧
    ∀ i < delayCountNum, Busy (env.data (1 + i))

-- What a call owes to the bus and to its caller
structure Good (env : Env) (call : Call) (returned : UInt8) (s : State) : Prop where
  released : held s.log = false
  complete : call.waits.isSome → returned = 0 →
    Exchange (ds2482ChannelSelect env call.channel) call s.log
  timer    : ∀ i2cTimer ∈ s.waits, i2cTimer = 1

def Ends (env : Env) (call : Call) (returned : UInt8) (s : State) : Prop :=
  call.Good env returned s ↔ ¬call.Exhausted env

end Call

variable {env : Env} {call : Call} {s : State} {log : List Op} {w r n : Nat}

@[simp] theorem held_nil : held [] = false :=
  rfl

@[simp] theorem held_concat : held (log ++ [x]) =
    match x with
    | .start => true
    | .stop  => false
    | _      => held log := by
  simp only [held, List.foldl_append]
  rfl

-- So many waits have been successful, and so many bytes have been received.
structure At (env : Env) (w r : Nat) (log : List Op) (s : State) : Prop where
  waits    : s.waits = List.replicate w 1
  comes    : ∀ i < w, env.Comes i
  received : s.received = r
  log      : s.log = log

-- A missing event rules out that the loop over the status is left by its counter.
def Before (env : Env) (call : Call) (w : Nat) : Prop :=
  ¬env.Comes w → ¬call.Exhausted env

theorem before_of_lt (hc : call.waits = some n) (hw : w < n + (delayCountNum + 1)) :
    Before env call w := by
  intro h ⟨m, hm, hw₁, _⟩
  rw [hc] at hm
  cases hm
  exact h <| hw₁ w hw

theorem At.setDta (a : At env w r log s) : At env w r log { s with dta } :=
  ⟨a.waits, a.comes, a.received, a.log⟩

theorem op_runs (a : At env w r log s) :
    Runs (op x) s (fun _ => At env w r (log ++ [x])) (call.Ends env) :=
  .modify ⟨a.waits, a.comes, a.received, congrArg (· ++ [x]) a.log⟩

theorem receiveData_runs (a : At env w r log s) :
    Runs (receiveData env) s (fun dta s => dta = env.data r ∧ At env w (r + 1) (log ++ [Op.receive dta]) s)
      (call.Ends env) := by
  refine .get_bind <| .bind <| .modify <| .pure ⟨congrArg _ a.received, ?_⟩
  exact ⟨a.waits, a.comes, congrArg (· + 1) a.received, congrArg (· ++ _) a.log⟩

theorem comes_of_filter (h : (env.event w).filter (1 + · ≤ icTimeoutMs + 1) = some ms) :
    env.Comes w := by
  have ⟨he, hl⟩ := Option.filter_eq_some_iff.mp h
  have : 1 + ms ≤ icTimeoutMs + 1 := by simpa using hl
  simp only [Env.Comes, he, Option.any_some, decide_eq_true_eq]
  omega

theorem not_comes_of_filter (h : (env.event w).filter (1 + · ≤ icTimeoutMs + 1) = none) :
    ¬env.Comes w := by
  cases he : env.event w with
  | none => simp [Env.Comes, he]
  | some ms =>
    simp only [he, Option.filter_eq_none_iff, Option.some.injEq, decide_eq_true_eq] at h
    have := h ms rfl
    simp only [Env.Comes, he, Option.any_some, decide_eq_true_eq]
    omega

theorem await_runs {stop : Bool} (a : At env w r log s) (hs : stop ∨ held log = false)
    (hb : Before env call w) :
    Runs (await env stop) s (fun _ => At env (w + 1) r log) (call.Ends env) := by
  have hw : s.waits.length = w := by simp [a.waits]
  have ha : s.waits ++ [1] = List.replicate (w + 1) 1 := by simp [a.waits, List.replicate_succ']
  refine .bind <| .modify <| .get_bind <| .bind <| .modify ?_
  simp only [hw, ha]
  split
  case h_1 ms hf =>
    refine .modify ⟨rfl, fun i hi => ?_, a.received, a.log⟩
    obtain hi | rfl : i < w ∨ i = w := by omega
    · exact a.comes i hi
    · exact comes_of_filter hf
  case h_2 hf =>
    -- The exit after the timeout
    have hn := hb <| not_comes_of_filter hf
    have good {s₁ : State} (hl : held s₁.log = false) (hw : s₁.waits = List.replicate (w + 1) 1) :
        call.Ends env i2cTimeoutErr s₁ := by
      refine iff_of_true ⟨hl, (fun _ h => nomatch h), fun v hv => ?_⟩ hn
      rw [hw] at hv
      exact List.eq_of_mem_replicate hv
    cases stop with
    | true =>
      refine .bind <| .modify <| .bind <| .modify <| .throw <| good ?_ rfl
      exact held_concat
    | false =>
      refine .bind <| .modify <| .throw <| good ?_ rfl
      exact a.log ▸ hs.resolve_left nofun

theorem generateStart_runs (a : At env w r log s) (hb : Before env call w) :
    Runs (generateStart env) s (fun _ => At env (w + 1) r (log ++ [Op.start])) (call.Ends env) :=
  (op_runs a).seq fun _ _ a => await_runs a (.inl rfl) hb

theorem send7bitAddress_runs (a : At env w r log s) (hb : Before env call w) :
    Runs (send7bitAddress env adr direction) s
      (fun _ => At env (w + 1) r (log ++ [Op.address adr direction])) (call.Ends env) :=
  (op_runs a).seq fun _ _ a => await_runs a (.inl rfl) hb

theorem sendData_runs (a : At env w r log s) (hb : Before env call w) :
    Runs (sendData env dta) s (fun _ => At env (w + 1) r (log ++ [Op.data dta])) (call.Ends env) :=
  (op_runs a).seq fun _ _ a => await_runs a (.inl rfl) hb

theorem waitStatus_runs (hc : call.waits = some n) (a : At env (n + i) (1 + i) log s)
    (hh : held log = true) (hi : i + left = delayCountNum) (hb : ∀ j < i, Busy (env.data (1 + j))) :
    Runs (waitStatus env left) s
      (fun _ s => ¬call.Exhausted env ∧ ∃ statuses w r, Polled statuses ∧
        At env w r (log ++ statuses.map .receive) s)
      (call.Ends env) := by
  induction left generalizing i s log with
  | zero =>
    refine (await_runs a (.inl rfl) <| before_of_lt hc (by omega)).seq fun _ s₁ a => ?_
    refine (receiveData_runs a).seq fun status s₂ ⟨_, a⟩ => ?_
    -- The counter has run out, and the bus stays held.
    refine .bind <| .modify <| .throw <| iff_of_false ?_ <| not_not.mpr ⟨n, hc, ?_, ?_⟩
    · intro good
      have := good.released
      simp [a.log, hh] at this
    · exact fun j hj => a.comes j (by omega)
    · exact fun j hj => hb j (by omega)
  | succ left ih =>
    refine (await_runs a (.inl rfl) <| before_of_lt hc (by omega)).seq fun _ s₁ a => ?_
    refine (receiveData_runs a).seq fun status s₂ ⟨hs, a⟩ => ?_
    split
    case isTrue hbusy =>
      have hb₁ : ∀ j < i + 1, Busy (env.data (1 + j)) := by
        intro j hj
        obtain hj | rfl : j < i ∨ j = i := by omega
        · exact hb j hj
        · exact hs ▸ hbusy
      refine (ih (i := i + 1) a (by simpa using hh) (by omega) hb₁).mono ?_ fun _ _ h => h
      intro _ _ ⟨hx, statuses, w, r, hp, a⟩
      exact ⟨hx, status :: statuses, w, r, .busy hbusy hp, by simpa using a⟩
    case isFalse hidle =>
      refine .pure ⟨?_, [status], _, _, .idle hidle, a⟩
      intro ⟨_, _, _, h⟩
      exact hidle <| hs ▸ h i (by omega)

-- A call that ends with its own STOP, with the log of its whole exchange
theorem ends_of_exchange (hx : ¬call.Exhausted env)
    (he : call.waits.isSome → returned = 0 →
      Exchange (ds2482ChannelSelect env call.channel) call (log ++ [Op.stop]))
    (a : At env w r (log ++ [Op.stop]) s) : call.Ends env returned s := by
  refine iff_of_true ⟨by simp [a.log], fun hc hr => a.log ▸ he hc hr, fun v hv => ?_⟩ hx
  rw [a.waits] at hv
  exact List.eq_of_mem_replicate hv

theorem owReset_ends (a : At env 0 0 [] s) :
    Runs (owReset env channel) s ((Call.owReset channel).Ends env)
      ((Call.owReset channel).Ends env) := by
  have hb {w : Nat} (hw : w < 7 + (delayCountNum + 1)) : Before env (.owReset channel) w :=
    before_of_lt rfl hw
  refine (await_runs a (.inl rfl) <| hb (by omega)).seq fun _ _ a => ?_
  refine (generateStart_runs a <| hb (by omega)).seq fun _ _ a => ?_
  refine (send7bitAddress_runs a <| hb (by omega)).seq fun _ _ a => ?_
  refine (sendData_runs a <| hb (by omega)).seq fun _ _ a => ?_
  refine (generateStart_runs a <| hb (by omega)).seq fun _ _ a => ?_
  refine (send7bitAddress_runs a <| hb (by omega)).seq fun _ _ a => ?_
  refine (op_runs a).seq fun _ _ a => ?_
  refine (await_runs a (.inl rfl) <| hb (by omega)).seq fun _ _ a => ?_
  refine (receiveData_runs a).seq fun _ _ ⟨_, a⟩ => ?_
  refine (waitStatus_runs (i := 0) rfl a rfl (by omega) (by simp)).seq
    fun _ _ ⟨hx, statuses, w, r, hp, a⟩ => ?_
  have hb {w : Nat} : Before env (.owReset channel) w := fun _ => hx
  refine (await_runs a (.inl rfl) hb).seq fun _ _ a => ?_
  refine (op_runs a).seq fun _ _ a => ?_
  refine (receiveData_runs a).seq fun _ _ ⟨_, a⟩ => ?_
  refine (op_runs a).seq fun _ _ a => ?_
  refine (receiveData_runs a).seq fun _ _ ⟨_, a⟩ => ?_
  refine (op_runs a).seq fun _ _ a => .pure <| ends_of_exchange hx (fun _ _ => ?_) a
  simpa [Call.channel] using Exchange.owReset hp

theorem owWriteByte_ends (a : At env 0 0 [] s) :
    Runs (owWriteByte env channel dta) s ((Call.owWriteByte channel dta).Ends env)
      ((Call.owWriteByte channel dta).Ends env) := by
  have hb {w : Nat} (hw : w < 8 + (delayCountNum + 1)) : Before env (.owWriteByte channel dta) w :=
    before_of_lt rfl hw
  refine (await_runs a (.inr rfl) <| hb (by omega)).seq fun _ _ a => ?_
  refine (generateStart_runs a <| hb (by omega)).seq fun _ _ a => ?_
  refine (send7bitAddress_runs a <| hb (by omega)).seq fun _ _ a => ?_
  refine (sendData_runs a <| hb (by omega)).seq fun _ _ a => ?_
  refine (sendData_runs a <| hb (by omega)).seq fun _ _ a => ?_
  refine (generateStart_runs a <| hb (by omega)).seq fun _ _ a => ?_
  refine (send7bitAddress_runs a <| hb (by omega)).seq fun _ _ a => ?_
  refine (op_runs a).seq fun _ _ a => ?_
  refine (await_runs a (.inl rfl) <| hb (by omega)).seq fun _ _ a => ?_
  refine (receiveData_runs a).seq fun _ _ ⟨_, a⟩ => ?_
  refine (waitStatus_runs (i := 0) rfl a rfl (by omega) (by simp)).seq
    fun _ _ ⟨hx, statuses, w, r, hp, a⟩ => ?_
  refine (await_runs a (.inl rfl) fun _ => hx).seq fun _ _ a => ?_
  refine (op_runs a).seq fun _ _ a => ?_
  refine (receiveData_runs a).seq fun _ _ ⟨_, a⟩ => ?_
  refine (op_runs a).seq fun _ _ a => .pure <| ends_of_exchange hx (fun _ _ => ?_) a
  simpa [Call.channel] using Exchange.owWriteByte hp

theorem owReadByte_ends (a : At env 0 0 [] s) :
    Runs (owReadByte env channel) s ((Call.owReadByte channel).Ends env)
      ((Call.owReadByte channel).Ends env) := by
  have hb {w : Nat} (hw : w < 7 + (delayCountNum + 1)) : Before env (.owReadByte channel) w :=
    before_of_lt rfl hw
  refine (await_runs a (.inr rfl) <| hb (by omega)).seq fun _ _ a => ?_
  refine (generateStart_runs a <| hb (by omega)).seq fun _ _ a => ?_
  refine (send7bitAddress_runs a <| hb (by omega)).seq fun _ _ a => ?_
  refine (sendData_runs a <| hb (by omega)).seq fun _ _ a => ?_
  refine (generateStart_runs a <| hb (by omega)).seq fun _ _ a => ?_
  refine (send7bitAddress_runs a <| hb (by omega)).seq fun _ _ a => ?_
  refine (op_runs a).seq fun _ _ a => ?_
  refine (await_runs a (.inl rfl) <| hb (by omega)).seq fun _ _ a => ?_
  refine (receiveData_runs a).seq fun _ _ ⟨_, a⟩ => ?_
  refine (waitStatus_runs (i := 0) rfl a rfl (by omega) (by simp)).seq
    fun _ _ ⟨hx, statuses, w, r, hp, a⟩ => ?_
  -- From here on the counter has not run out, whatever is still missing.
  have hb {w : Nat} : Before env (.owReadByte channel) w := fun _ => hx
  refine (await_runs a (.inl rfl) hb).seq fun _ _ a => ?_
  refine (op_runs a).seq fun _ _ a => ?_
  refine (receiveData_runs a).seq fun _ _ ⟨_, a⟩ => ?_
  refine (await_runs a (.inl rfl) hb).seq fun _ _ a => ?_
  refine (op_runs a).seq fun _ _ a => ?_
  refine (generateStart_runs a hb).seq fun _ _ a => ?_
  refine (send7bitAddress_runs a hb).seq fun _ _ a => ?_
  refine (sendData_runs a hb).seq fun _ _ a => ?_
  refine (sendData_runs a hb).seq fun _ _ a => ?_
  refine (generateStart_runs a hb).seq fun _ _ a => ?_
  refine (send7bitAddress_runs a hb).seq fun _ _ a => ?_
  refine (op_runs a).seq fun _ _ a => ?_
  refine (await_runs a (.inl rfl) hb).seq fun _ _ a => ?_
  refine (receiveData_runs a).seq fun dta _ ⟨_, a⟩ => ?_
  refine .bind <| .modify ?_
  refine (op_runs a.setDta).seq fun _ _ a => .pure <| ends_of_exchange hx (fun _ _ => ?_) a
  simpa [Call.channel] using Exchange.owReadByte hp

theorem not_exhausted (h : call.waits = none) : ¬call.Exhausted env :=
  fun ⟨_, hn, _⟩ => nomatch h.symm.trans hn

theorem ds2482Reset_ends (a : At env 0 0 [] s) :
    Runs (ds2482Reset env channel) s ((Call.ds2482Reset channel).Ends env)
      ((Call.ds2482Reset channel).Ends env) := by
  have hx : ¬(Call.ds2482Reset channel).Exhausted env := not_exhausted rfl
  have hb {w : Nat} : Before env (.ds2482Reset channel) w := fun _ => hx
  refine (await_runs a (.inr rfl) hb).seq fun _ _ a => ?_
  refine (generateStart_runs a hb).seq fun _ _ a => ?_
  refine (send7bitAddress_runs a hb).seq fun _ _ a => ?_
  refine (sendData_runs a hb).seq fun _ _ a => ?_
  refine (generateStart_runs a hb).seq fun _ _ a => ?_
  refine (send7bitAddress_runs a hb).seq fun _ _ a => ?_
  refine (op_runs a).seq fun _ _ a => ?_
  refine (await_runs a (.inl rfl) hb).seq fun _ _ a => ?_
  refine (receiveData_runs a).seq fun status _ ⟨_, a⟩ => ?_
  exact (op_runs a).seq fun _ _ a => .pure <| ends_of_exchange hx nofun a

theorem ds2482Init_ends (a : At env 0 0 [] s) :
    Runs (ds2482Init env channel) s ((Call.ds2482Init channel).Ends env)
      ((Call.ds2482Init channel).Ends env) := by
  have hx : ¬(Call.ds2482Init channel).Exhausted env := not_exhausted rfl
  have hb {w : Nat} : Before env (.ds2482Init channel) w := fun _ => hx
  refine (await_runs a (.inr rfl) hb).seq fun _ _ a => ?_
  refine (generateStart_runs a hb).seq fun _ _ a => ?_
  refine (send7bitAddress_runs a hb).seq fun _ _ a => ?_
  refine (sendData_runs a hb).seq fun _ _ a => ?_
  refine (sendData_runs a hb).seq fun _ _ a => ?_
  refine (generateStart_runs a hb).seq fun _ _ a => ?_
  refine (send7bitAddress_runs a hb).seq fun _ _ a => ?_
  refine (op_runs a).seq fun _ _ a => ?_
  refine (await_runs a (.inl rfl) hb).seq fun _ _ a => ?_
  refine (receiveData_runs a).seq fun status _ ⟨_, a⟩ => ?_
  exact (op_runs a).seq fun _ _ a => .pure <| ends_of_exchange hx nofun a

theorem program_ends (a : At env 0 0 [] s) :
    Runs (call.program env) s (call.Ends env) (call.Ends env) := by
  cases call with
  | owReset channel         => exact owReset_ends a
  | owWriteByte channel dta => exact owWriteByte_ends a
  | owReadByte channel      => exact owReadByte_ends a
  | ds2482Reset channel     => exact ds2482Reset_ends a
  | ds2482Init channel      => exact ds2482Init_ends a

-- Whichever events come, whatever the statuses are and whatever earlier calls have left, a call does
-- what it owes to the bus and to its caller exactly if its loop over the status is not left by the
-- counter.
theorem release_law (env : Env) (call : Call) (i2cTimer : Nat) (i2cError : Bool) (dta : UInt8) :
    let r := result (call.program env) (.init i2cTimer i2cError dta)
    call.Good env r.1 r.2 ↔ ¬call.Exhausted env := by
  have a : At env 0 0 [] (.init i2cTimer i2cError dta) := ⟨rfl, nofun, rfl, rfl⟩
  exact (program_ends a).result

-- Every event comes at once, and the 1-wire bus never becomes idle.
def stuck : Env where
  event _ := some 0
  data  _ := 0xFF
  adrs    := 0

theorem stuck_exhausted : (Call.owReset 1).Exhausted stuck := by
  refine ⟨7, rfl, fun _ _ => rfl, fun _ _ => ?_⟩
  show (0xFF : UInt8) &&& status1wb ≠ 0
  decide

theorem not_good_of_exhausted (h : call.Exhausted env) :
    let r := result (call.program env) (.init 0 false 0)
    ¬call.Good env r.1 r.2 := by
  have a : At env 0 0 [] (.init 0 false 0) := ⟨rfl, nofun, rfl, rfl⟩
  exact fun g => (program_ends a).result.mp g h

theorem bus_left_held : ¬∀ env call i2cTimer i2cError dta,
    let r := result (Call.program env call) (.init i2cTimer i2cError dta)
    call.Good env r.1 r.2 := by
  intro h
  exact not_good_of_exhausted stuck_exhausted (h _ _ _ _ _)

end I2c
