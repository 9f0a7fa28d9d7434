import Webtermo.Execution.Auth.Theorems.CheckAuth

namespace Auth

-- The page that a URI is answered with: the one it asks for, or the login page instead of an HTML
-- page that it does not grant
def gateName (uri u p : Bytes) : Bytes :=
  if page uri ≠ login ∧ ekstenzija (page uri) = some html ∧ ¬grants uri u p then login else page uri

def gate (lfs : Bytes → Bool) (uri u p : Bytes) : Option Bytes :=
  let name := gateName uri u p
  if name ∈ tables ∨ lfs name.tail ∨ name ∈ fsdata then some name else none

-- The law of the gate for one request
structure Gated (lfs : Bytes → Bool) (u p : Bytes) (o : Obs) : Prop where
  opened  : ∀ f, o.file = some f → ascii ".html" <:+ f → f ≠ login → Authorised o.uri u p
  refused : page o.uri ∈ fsdata → ascii ".html" <:+ page o.uri → ¬Authorised o.uri u p →
    o.file = some login
  decided : o.file = gate lfs o.uri u p

-- The files that the logger creates
def LogFiles (lfs : Bytes → Bool) : Prop :=
  ∀ name, lfs name → ascii ".CSV" <:+ name

-- The requests that ask `checkAuth`
def Asks (lfs : Bytes → Bool) (uri u p : Bytes) : Prop :=
  page uri ≠ login ∧ ekstenzija (page uri) = some html ∨ gate lfs uri u p = none

structure Request.Ok (lfs : Bytes → Bool) (u p : Bytes) (s : State) (r : Request) : Prop where
  uri_fits  : r.uri.text = root ∨ r.uri.text.length < 100
  has_dot   : (ekstenzija (page r.uri.text)).isSome
  name_fits : (gateName r.uri.text u p).length < 32
  readable  : Asks lfs r.uri.text u p →
    Readable r.uri.text (s.authenUri.bytes.drop (r.uri.text.length + 1) ++ r.behind.bytes)

instance : Decidable (Asks lfs uri u p) :=
  inferInstanceAs <| Decidable (_ ∧ _ ∨ _)

instance : Decidable (Request.Ok lfs u p s r) :=
  decidable_of_iff ((r.uri.text = root ∨ r.uri.text.length < 100) ∧
      (ekstenzija (page r.uri.text)).isSome ∧ (gateName r.uri.text u p).length < 32 ∧
      (Asks lfs r.uri.text u p →
        Readable r.uri.text (s.authenUri.bytes.drop (r.uri.text.length + 1) ++ r.behind.bytes)))
    ⟨fun ⟨a, b, c, d⟩ => ⟨a, b, c, d⟩, fun ⟨a, b, c, d⟩ => ⟨a, b, c, d⟩⟩

variable {lfs : Bytes → Bool} {u p : Bytes} {s : State} {r : Request}

theorem html_of_fsdata : ∀ f ∈ fsdata, ascii ".html" <:+ f → ekstenzija f = some html := by
  decide +kernel

theorem html_not_mem_tables : ∀ f ∈ tables, ¬ascii ".html" <:+ f := by
  decide +kernel

theorem login_mem_fsdata : login ∈ fsdata := by
  decide

theorem log_not_html (h : ascii ".CSV" <:+ f) : ¬ascii ".html" <:+ f := by
  intro ⟨_, hh⟩
  have ⟨_, hc⟩ := h
  have h₁ : f.getLast? = some 86 := by
    rw [← hc, show ascii ".CSV" = [46, 67, 83, 86] by decide]
    simp
  have h₂ : f.getLast? = some 108 := by
    rw [← hh, show ascii ".html" = [46, 104, 116, 109, 108] by decide]
    simp
  simp [h₁] at h₂

theorem gate_gated (hl : LogFiles lfs) : Gated lfs u p ⟨uri, gate lfs uri u p⟩ where
  decided := rfl
  opened f h hh hn := by
    simp only [gate] at h
    split at h
    case isFalse => cases h
    case isTrue hf =>
      have h : gateName uri u p = f := Option.some.inj h
      rw [h] at hf
      have hf : f ∈ fsdata := by
        cases hf with
        | inl hf => exact absurd hh <| html_not_mem_tables f hf
        | inr hf =>
          refine hf.resolve_left fun hf => ?_
          exact absurd hh <| log_not_html <| (hl _ hf).trans <| List.tail_suffix f
      have he := html_of_fsdata f hf hh
      unfold gateName at h
      split at h
      case isTrue => exact absurd h.symm hn
      case isFalse hg =>
        refine grants_authorised <| Decidable.of_not_not fun ha => hg ?_
        exact ⟨h ▸ hn, h ▸ he, by simpa using ha⟩
  refused hf hh hg := by
    have he := html_of_fsdata _ hf hh
    have hg : ¬grants uri u p := fun h => hg <| grants_authorised h
    have hn : gateName uri u p = login := by
      by_cases hp : page uri = login
      case pos => simp [gateName, hp]
      case neg => simp [gateName, hp, he, hg]
    simp [gate, hn, login_mem_fsdata]

theorem checkAuth_of_ok (hu : s.username.text 0 = some u) (hp : s.password.text 0 = some p)
    (ok : r.Ok lfs u p s) (ha : Asks lfs r.uri.text u p) (hr : r.uri.text ≠ root)
    (h : s.authenUri.strcpy r.uri.text = some b) :
    { s with authenUri := b }.checkAuth r = some (grants r.uri.text u p) := by
  have hb : b.bytes = r.uri.text ++ 0 :: s.authenUri.bytes.drop (r.uri.text.length + 1) := by
    simp [Buffer.write_bytes h]
  have hl : r.uri.text.length < 128 := Nat.lt_trans (ok.uri_fits.resolve_left hr) (by decide)
  simp only [State.checkAuth, hb, List.append_assoc, List.cons_append]
  exact checkAuth_eq (by simpa [Buffer.text] using hu) (by simpa [Buffer.text] using hp) hl
    (ok.readable ha)

theorem authenticate_eq (ok : r.Ok lfs u p s)
    (h : Asks lfs r.uri.text u p → s₁.checkAuth r = some (grants r.uri.text u p)) :
    authenticate s₁ r (page r.uri.text) = some (gateName r.uri.text u p) := by
  have ⟨e, he⟩ := Option.isSome_iff_exists.mp ok.has_dot
  by_cases hp : page r.uri.text = login
  case pos => simp [authenticate, gateName, hp]
  case neg =>
    by_cases hh : e = html
    case pos =>
      have := h <| .inl ⟨hp, hh ▸ he⟩
      cases hg : grants r.uri.text u p <;> simp [authenticate, gateName, hp, he, hh, this, hg]
    case neg => simp [authenticate, gateName, hp, he, hh]

theorem lookup_eq (h : name.length < 32) :
    lookup lfs name = some (decide (name ∈ tables ∨ lfs name.tail ∨ name ∈ fsdata)) := by
  by_cases ht : name ∈ tables <;> simp [lookup, ht, Nat.not_le_of_lt h]

theorem pages_404 : ∀ name ∈ [ascii "/404.html", ascii "/404.htm", ascii "/404.shtml"],
    name.length < 32 ∧ name ∉ tables ∧ name ∉ fsdata ∧ ¬ascii ".CSV" <:+ name.tail := by
  decide +kernel

theorem httpGet404File_eq (hl : LogFiles lfs) (h : s.checkAuth r = some g) :
    httpGet404File lfs s r = some none := by
  have no {name : Bytes} (h : name.length < 32 ∧ name ∉ tables ∧ name ∉ fsdata ∧
      ¬ascii ".CSV" <:+ name.tail) : lookup lfs name = some false := by
    have ⟨hn, ht, hf, hc⟩ := h
    have hc : ¬lfs name.tail := fun hn => hc <| hl _ hn
    simp [lookup_eq hn, ht, hf, hc]
  simp [httpGet404File, h, no <| pages_404 _ (.head _), no <| pages_404 _ (.tail _ <| .head _),
    no <| pages_404 _ (.tail _ <| .tail _ <| .head _)]

theorem fsOpen_eq (ok : r.Ok lfs u p s)
    (h : Asks lfs r.uri.text u p → v.checkAuth r = some (grants r.uri.text u p)) :
    fsOpen lfs v r (page r.uri.text) = some (gate lfs r.uri.text u p) := by
  simp only [fsOpen, authenticate_eq ok h, gate, Option.bind_eq_bind, Option.bind_some,
    lookup_eq ok.name_fits]
  split <;> simp_all

theorem not_asks_root (h : uri = root) : ¬Asks lfs uri u p := by
  have hp : page uri = login := by simp [page, h]
  simp [Asks, gate, gateName, hp, login_mem_fsdata]

theorem httpFindFile_spec (hl : LogFiles lfs) (hu : s.username.text 0 = some u)
    (hp : s.password.text 0 = some p) (ok : r.Ok lfs u p s) :
    ∃ b, httpFindFile lfs s r = some ({ s with authenUri := b }, gate lfs r.uri.text u p) := by
  by_cases hr : r.uri.text = root
  case pos =>
    have ha : ¬Asks lfs r.uri.text u p := not_asks_root hr
    have ho := fsOpen_eq ok (v := s) (absurd · ha)
    have hg : gate lfs r.uri.text u p ≠ none := fun h => ha <| .inr h
    have ⟨f, hf⟩ := Option.ne_none_iff_exists'.mp hg
    refine ⟨s.authenUri, ?_⟩
    rw [httpFindFile, if_pos hr]
    simp [ho, hf]
  case neg =>
    have ⟨b, hb⟩ := Buffer.strcpy_eq_some (b := s.authenUri) <| ok.uri_fits.resolve_left hr
    have hc := fun ha => checkAuth_of_ok hu hp ok ha hr hb
    have ho := fsOpen_eq ok hc
    refine ⟨b, ?_⟩
    rw [httpFindFile, if_neg hr]
    cases hg : gate lfs r.uri.text u p with
    | some f => simp [hb, ho, hg]
    | none =>
      have h₄ := httpGet404File_eq hl <| hc <| .inr hg
      simp [hb, ho, hg, h₄]

-- The answer of the gate to a request
def answer (lfs : Bytes → Bool) (u p : Bytes) (r : Request) : List Obs :=
  [⟨r.uri.text, gate lfs r.uri.text u p⟩]

-- In a run in which the credentials of every URI lie in that URI itself, every request is answered
-- by the gate, whatever the URIs before it were.
theorem gate_law (hl : LogFiles lfs) (hu : s.username.text 0 = some u)
    (hp : s.password.text 0 = some p) (g : (server lfs).Guarded (Request.Ok lfs u p) s rs) :
    (∃ s₁, (server lfs).run s rs = some (s₁, rs.flatMap (answer lfs u p))) ∧
    ∀ r ∈ rs, ∀ o ∈ answer lfs u p r, Gated lfs u p o := by
  refine ⟨Machine.run_answers (M := server lfs)
    (I := fun s => s.username.text 0 = some u ∧ s.password.text 0 = some p) ?_ ⟨hu, hp⟩ g, ?_⟩
  · intro s r ⟨hu, hp⟩ ok
    have ⟨b, hb⟩ := httpFindFile_spec hl hu hp ok
    exact ⟨{ s with authenUri := b }, by simp [server, hb, answer], hu, hp⟩
  · intro r _ o ho
    rw [List.mem_singleton.mp ho]
    exact gate_gated hl

-- The stored credentials are a and b.
def deviceAB : State where
  authenUri := Buffer.zero 100
  username  := ⟨97 :: List.replicate 24 0, by decide⟩
  password  := ⟨98 :: List.replicate 24 0, by decide⟩

def Request.of (uri : Bytes) (h : 0 ∉ uri) : Request where
  uri    := ⟨uri, h⟩
  behind := Buffer.zero 156
  tbuf   := Buffer.zero 80

def indexHtml : Request :=
  .of (ascii "/index.html") (by decide)

def homeWithCredentials : Request :=
  .of (ascii "/home.html?&YTpi&") (by decide)

def noLogs : Bytes → Bool :=
  fun _ => false

theorem gate_law_home :
    (∃ s₁, (server noLogs).run deviceAB [indexHtml, homeWithCredentials] =
      some (s₁, [indexHtml, homeWithCredentials].flatMap (answer noLogs [97] [98]))) ∧
    ∀ r ∈ [indexHtml, homeWithCredentials], ∀ o ∈ answer noLogs [97] [98] r,
      Gated noLogs [97] [98] o :=
  gate_law (fun _ h => nomatch h) (by decide) (by decide) (by decide +kernel)

-- The credentials of an earlier URI
def indexWithCredentials : Request :=
  .of (ascii "/index.html?x&YTpi&") (by decide)

-- The credentials of a URI still open a page for a later URI without any.
theorem page_without_credentials :
    ¬∀ lfs s rs s₁ t u p, LogFiles lfs → s.username.text 0 = some u → s.password.text 0 = some p →
      (server lfs).run s rs = some (s₁, t) → ∀ o ∈ t, Gated lfs u p o := by
  intro h
  have hd : ((server noLogs).run deviceAB [indexWithCredentials, indexHtml]).map (·.2) =
      some [⟨indexWithCredentials.uri.text, some (ascii "/index.html")⟩,
        ⟨indexHtml.uri.text, some (ascii "/index.html")⟩] := by
    decide +kernel
  have ⟨⟨s₁, t⟩, hr, ht⟩ := Option.map_eq_some_iff.mp hd
  have hg := h noLogs deviceAB _ s₁ t [97] [98] (fun _ h => nomatch h) (by decide) (by decide) hr
    ⟨indexHtml.uri.text, some (ascii "/index.html")⟩ (by simp [show t = _ from ht])
  have ⟨a, s, b, ha, _⟩ := hg.opened _ rfl (by decide) (by decide)
  have : amp ∉ indexHtml.uri.text := by decide
  exact this <| by simp [show indexHtml.uri.text = _ from ha]

end Auth
