import Webtermo.Execution.Post.Basic

namespace Post

-- The callbacks of the POST connections `κ`, in the order in which the server makes them
inductive Callback (κ : Type)
  | begin (c : κ) (uri : Bytes)
  | receive (c : κ) (p : Pbuf)
  | finish (c : κ)

-- A save handler that runs for a connection, with the text up to its NUL and the length it is given
structure Saved (κ : Type) where
  conn    : κ
  handler : Handler
  text    : Bytes
  len     : Nat
  deriving DecidableEq

def Saved.ofDispatch (c : κ) (d : Dispatch) : Option (Saved κ) :=
  d.handler.map ({ conn := c, handler := ·, text := d.body.bytes.take (d.len + 1), len := d.len })

-- The callbacks as `httpd.c` implements them
def server (κ : Type) : Machine Shared (Callback κ) (Saved κ) where
  step s
    | .begin _ uri => (httpdPostBegin s uri).map (·, [])
    | .receive _ p => (httpdPostReceiveData s p).map (·, [])
    | .finish c    => (httpdPostFinished s).map fun (s, d) => (s, (Saved.ofDispatch c d).toList)

variable {κ : Type}

-- The URI and the body so far of every open connection
abbrev Isolated.State (κ : Type) := κ → Option (Bytes × Bytes)

def Isolated.init (κ : Type) : Isolated.State κ :=
  fun _ => none

-- What the callbacks are for: every connection has a URI and a body of its own.
def isolated (κ : Type) [DecidableEq κ] : Machine (Isolated.State κ) (Callback κ) (Saved κ) where
  step i
    | .begin c uri =>
      if i c = none ∧ 0 ∉ uri then some (Function.update i c (some (uri, [])), []) else none
    | .receive c p => do
      let (uri, body) ← i c
      some (Function.update i c (some (uri, body ++ p.data)), [])
    | .finish c => do
      let (uri, body) ← i c
      let saved := (dispatch uri).map ({ conn := c, handler := ·, text := body ++ [0], len := body.length })
      some (Function.update i c none, saved.toList)

-- A POST begins when no other one is in progress, its URI and its body fit into the arrays, and its
-- chains have all their data in the first pbuf.
def Callback.Alone (i : Isolated.State κ) : Callback κ → Prop
  | begin _ uri => (∀ c, i c = none) ∧ uri.length < 64
  | receive c p => p.next.flatten = [] ∧ ∀ r ∈ i c, (r.2 ++ p.payload).length < 4096
  | finish _    => True

instance [Fintype κ] {e : Callback κ} : Decidable (e.Alone i) := by
  cases e <;> unfold Callback.Alone <;> infer_instance

-- The shared variables hold the URI and the body so far of a connection.
structure Current (s : Shared) (uri body : Bytes) : Prop where
  uri   : s.funkcija.text 0 = some uri
  pos   : s.writePos = body.length
  bytes : s.buffer.bytes.take s.writePos = body
  fits  : body.length < 4096

-- At most one connection is open, and the shared variables are its own.
structure Holds (i : Isolated.State κ) (s : Shared) : Prop where
  one     : ∀ {c c₁}, i c ≠ none → i c₁ ≠ none → c = c₁
  current : ∀ {c uri body}, i c = some (uri, body) → Current s uri body

namespace Holds

variable {i i₁ : Isolated.State κ} {s s₁ : Shared}

theorem init : Holds (Isolated.init κ) s := by
  constructor <;> simp [Isolated.init]

-- A state in which at most the connection `c` is open
theorem only (hc : ∀ c₁, i₁ c₁ ≠ none → c₁ = c)
    (h : ∀ {uri body}, i₁ c = some (uri, body) → Current s₁ uri body) : Holds i₁ s₁ where
  one h₁ h₂     := (hc _ h₁).trans (hc _ h₂).symm
  current {c₁} _ _ hi := by
    have := hc c₁ (by simp [hi])
    exact h (this ▸ hi)

variable [DecidableEq κ]

theorem others (hi : ∀ c₁, i c₁ ≠ none → c₁ = c) :
    ∀ c₁, Function.update i c r c₁ ≠ none → c₁ = c := by
  intro c₁ h
  by_contra hn
  rw [Function.update_of_ne hn] at h
  exact hn <| hi c₁ h

theorem begin (ok : (Callback.begin c uri).Alone i)
    (h : (isolated κ).step i (.begin c uri) = some (i₁, o)) :
    ∃ s₁, (server κ).step s (.begin c uri) = some (s₁, o) ∧ Holds i₁ s₁ := by
  have ⟨hn, hl⟩ := ok
  simp only [isolated, hn, true_and, Option.ite_none_right_eq_some, Option.some.injEq,
    Prod.mk.injEq] at h
  have ⟨h₀, hi, ho⟩ := h
  have ⟨s₁, hs, hu, hp⟩ := httpdPostBegin_spec (s := s) h₀ hl
  refine ⟨s₁, by simp [server, hs, ← ho], hi ▸ only (others fun c₁ h => absurd (hn c₁) h) ?_⟩
  intro uri₁ body h
  simp only [Function.update_self, Option.some.injEq, Prod.mk.injEq] at h
  exact ⟨h.1 ▸ hu, by simp [hp, ← h.2], by simp [hp, ← h.2], by simp [← h.2]⟩

theorem receive (r : Holds i s) (ok : (Callback.receive c p).Alone i)
    (h : (isolated κ).step i (.receive c p) = some (i₁, o)) :
    ∃ s₁, (server κ).step s (.receive c p) = some (s₁, o) ∧ Holds i₁ s₁ := by
  simp only [isolated, Option.bind_eq_bind, Option.bind_eq_some_iff, Option.some.injEq,
    Prod.mk.injEq] at h
  have ⟨⟨uri, body⟩, hc, hi, ho⟩ := h
  have ⟨hd, hl⟩ := ok
  have cur := r.current hc
  have hl : (body ++ p.payload).length < 4096 := hl _ hc
  have ⟨s₁, hs, hu, hp, hb⟩ := httpdPostReceiveData_spec (s := s) (p := p)
    (by simp only [cur.pos]; simp at hl; omega)
  refine ⟨s₁, by simp [server, hs, ← ho], hi ▸ only (others fun c₁ h => r.one h (by simp [hc])) ?_⟩
  intro uri₁ body₁ h
  simp only [Function.update_self, Option.some.injEq, Prod.mk.injEq, Pbuf.data, hd,
    List.append_nil] at h
  exact ⟨by rw [hu, cur.uri, h.1], by simp [hp, cur.pos, ← h.2], by rw [hb, cur.bytes, h.2],
    h.2 ▸ hl⟩

theorem finish (r : Holds i s) (h : (isolated κ).step i (.finish c) = some (i₁, o)) :
    ∃ s₁, (server κ).step s (.finish c) = some (s₁, o) ∧ Holds i₁ s₁ := by
  simp only [isolated, Option.bind_eq_bind, Option.bind_eq_some_iff, Option.some.injEq,
    Prod.mk.injEq] at h
  have ⟨⟨uri, body⟩, hc, hi, ho⟩ := h
  have cur := r.current hc
  have ⟨s₁, text, hs, ht⟩ := httpdPostFinished_spec cur.uri (cur.pos ▸ cur.fits)
  refine ⟨s₁, ?_, hi ▸ only (others fun c₁ h => r.one h (by simp [hc])) (by simp)⟩
  rw [cur.bytes, cur.pos] at ht
  simp [server, hs, ← ho, Saved.ofDispatch, ht, cur.pos]

theorem step (r : Holds i s) (ok : e.Alone i) (h : (isolated κ).step i e = some (i₁, o)) :
    ∃ s₁, (server κ).step s e = some (s₁, o) ∧ Holds i₁ s₁ := by
  cases e with
  | begin c uri => exact begin ok h
  | receive c p => exact r.receive ok h
  | finish c    => exact r.finish h

end Holds

-- When POSTs come one after the other, then each of them is saved by the handler of its own URI and
-- from its own body, whatever the connections are.
theorem posts_isolated [DecidableEq κ]
    (g : (isolated κ).Guarded Callback.Alone (Isolated.init κ) es)
    (h : (isolated κ).run (Isolated.init κ) es = some (i, o)) :
    ∃ s, (server κ).run Shared.init es = some (s, o) := by
  have hi : Holds (Isolated.init κ) Shared.init := Holds.init
  have ⟨s, hs, _⟩ := Machine.run_simulation (C := server κ) (R := Holds) Holds.step hi g h
  exact ⟨s, hs⟩

def twoPosts : List (Callback Bool) := [
  .begin false (ascii "/reset.sva"), .receive false ⟨ascii "<RESET>1", []⟩, .finish false,
  .begin true (ascii "/pass.sva"), .receive true ⟨ascii "<PASS>", []⟩, .receive true ⟨ascii "a", []⟩,
  .finish true
]

theorem posts_isolated_one_after_the_other :
    (isolated Bool).Guarded Callback.Alone (Isolated.init Bool) twoPosts ∧
    ∃ i s o, (isolated Bool).run (Isolated.init Bool) twoPosts = some (i, o) ∧
      (server Bool).run Shared.init twoPosts = some (s, o) := by
  have g : (isolated Bool).Guarded Callback.Alone (Isolated.init Bool) twoPosts := by
    decide +kernel
  have hd : ((isolated Bool).run (Isolated.init Bool) twoPosts).isSome := by decide +kernel
  have ⟨⟨i, o⟩, h⟩ := Option.isSome_iff_exists.mp hd
  have ⟨s, hs⟩ := posts_isolated g h
  exact ⟨g, i, s, o, h, hs⟩

-- When a second POST begins before the first one has finished, then the body of the first one goes
-- to the handler of the second one.
theorem posts_mixed_up :
    ¬∀ es i o, (isolated Bool).run (Isolated.init Bool) es = some (i, o) →
      ∃ s, (server Bool).run Shared.init es = some (s, o) := by
  intro h
  let es : List (Callback Bool) := [
    .begin false (ascii "/savesms.sva"), .begin true (ascii "/pass.sva"),
    .receive false ⟨ascii "<PASS>a", []⟩, .finish false
  ]
  let text := ascii "<PASS>a" ++ [0]
  have ho : ((isolated Bool).run (Isolated.init Bool) es).map (·.2) = some [⟨false, .saveSms, text, 7⟩] := by
    decide +kernel
  have hc : ((server Bool).run Shared.init es).map (·.2) = some [⟨false, .pass, text, 7⟩] := by
    decide +kernel
  have ⟨⟨i, o⟩, hi, ho⟩ := Option.map_eq_some_iff.mp ho
  have ⟨s, hs⟩ := h es i o hi
  simp [hs, show o = _ from ho] at hc

end Post
