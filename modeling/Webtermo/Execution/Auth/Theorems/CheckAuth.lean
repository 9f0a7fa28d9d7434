import Webtermo.Library.Segment
import Webtermo.Execution.Auth.State

namespace Auth

def decode (text : Bytes) : Bytes :=
  Base64.decode (Base64.sextets text)

def leftover (text : Bytes) : Bytes :=
  Base64.leftover (Base64.sextets text)

-- A segment between two ampersands decodes to exactly the user name, a colon and the password.
def Authorised (uri username password : Bytes) : Prop :=
  ∃ a s b, uri = a ++ amp :: (s ++ amp :: b) ∧ decode s = username ++ colon :: password

-- What a URI grants with its first segment
def grants (uri username password : Bytes) : Bool :=
  uri.head? ≠ some amp ∧ colon ∉ username ∧
    (between amp uri).map decode = some (username ++ colon :: password)

theorem grants_authorised (h : grants uri u p) : Authorised uri u p := by
  simp only [grants, decide_eq_true_eq, Option.map_eq_some_iff] at h
  have ⟨_, _, s, hs, hd⟩ := h
  have ⟨a, b, hu, _, _⟩ := between_eq_some_iff.mp hs
  exact ⟨a, s, b, hu, hd⟩

-- A segment whose text fits the buffers and ends in itself
structure Credentials (s : Bytes) : Prop where
  colon_mem     : colon ∈ decode s
  nul_not_mem   : 0 ∉ decode s
  leftover      : ∀ b ∈ leftover s, b = 0
  username_fits : ((decode s).takeWhile (· ≠ colon)).length < 40
  password_fits : ((decode s).dropWhile (· ≠ colon)).length + (Auth.leftover s).length ≤ 40

-- What `checkAuth` looks for lies in the URI, and not in the `rest` behind its terminating NUL.
inductive Readable (uri rest : Bytes) : Prop
  | head (h : uri.head? = some amp)
  | none (h : amp ∉ uri) (hr : amp ∉ rest.take (127 - uri.length))
  | segment (h : ∃ s ∈ between amp uri, Credentials s)

instance : Decidable (Credentials s) :=
  decidable_of_iff (colon ∈ decode s ∧ 0 ∉ decode s ∧ (∀ b ∈ leftover s, b = 0) ∧
      ((decode s).takeWhile (· ≠ colon)).length < 40 ∧
      ((decode s).dropWhile (· ≠ colon)).length + (leftover s).length ≤ 40)
    ⟨fun ⟨a, b, c, d, e⟩ => ⟨a, b, c, d, e⟩, fun ⟨a, b, c, d, e⟩ => ⟨a, b, c, d, e⟩⟩

instance : Decidable (Readable uri rest) :=
  decidable_of_iff (uri.head? = some amp ∨ (amp ∉ uri ∧ amp ∉ rest.take (127 - uri.length)) ∨
      ∃ s ∈ between amp uri, Credentials s)
    ⟨fun h => h.elim .head fun h => h.elim (fun h => .none h.1 h.2) .segment, fun
      | .head h    => .inl h
      | .none h hr => .inr <| .inl ⟨h, hr⟩
      | .segment h => .inr <| .inr h⟩

theorem cstr_leftover (h : 0 ∉ q) (hl : ∀ b ∈ leftover s, b = 0) :
    cstr (q ++ leftover s ++ [0]) = some q := by
  have : (leftover s).length ≤ 1 := Base64.leftover_length_le
  match he : leftover s with
  | []         => simpa using cstr_append_nul (r := []) h
  | [b]        =>
    have : b = 0 := hl b (by simp [he])
    simpa [this] using cstr_append_nul (r := [0]) h
  | _ :: _ :: _ => simp [he] at this

-- Comparing the parts of a segment is comparing the whole.
theorem credentials_iff (hn : colon ∉ n) :
    (n = u ∧ q = p) ↔ colon ∉ u ∧ n ++ colon :: q = u ++ colon :: p := by
  constructor
  case mp =>
    intro ⟨hu, hp⟩
    exact ⟨hu ▸ hn, by rw [hu, hp]⟩
  case mpr =>
    intro ⟨hu, h⟩
    have h₁ := takeWhile_separator (b := q) hn
    have h₂ := dropWhile_separator (b := q) hn
    rw [h, takeWhile_separator hu] at h₁
    rw [h, dropWhile_separator hu] at h₂
    exact ⟨h₁.symm, by simpa using h₂.symm⟩

variable {username password : Buffer 25} {tbuf : Buffer 80}

theorem compare_eq (hu : cstr username.bytes = some u) (hp : cstr password.bytes = some p)
    (hn : colon ∉ n) (hn₀ : 0 ∉ n) (hq₀ : 0 ∉ q) (hl : ∀ b ∈ leftover s, b = 0) (hnf : n.length < 40)
    (hqf : q.length + 1 + (leftover s).length ≤ 40) :
    checkAuth.compare (n ++ colon :: (q ++ leftover s) ++ r) (n ++ colon :: (q ++ leftover s)).length
      username password = some (decide (n = u ∧ q = p)) := by
  have hn₁ : strcmpEq (n ++ [0]) username.bytes = some (decide (n = u)) := by
    simp [strcmpEq, cstr_append_nul hn₀, hu]
  have hp₁ : strcmpEq (q ++ leftover s ++ [0]) password.bytes = some (decide (q = p)) := by
    simp only [strcmpEq, cstr_leftover hq₀ hl, hp]
    rfl
  have ht : (n ++ colon :: (q ++ leftover s) ++ r).takeWhile (· ≠ colon) = n := by
    rw [List.append_assoc]
    exact takeWhile_separator hn
  have hq : ((n ++ colon :: (q ++ leftover s) ++ r).take (n ++ colon :: (q ++ leftover s)).length).drop
      (n.length + 1) = q ++ leftover s := by
    rw [List.take_left', List.drop_length_add_append]
    · rfl
    · rfl
  have hqf : ¬40 ≤ (q ++ leftover s).length := by
    simp only [List.length_append]
    omega
  simp only [checkAuth.compare, ht, hq, hn₁, hp₁, hqf, if_false, Nat.not_le_of_lt hnf]
  by_cases h : n = u <;> simp [h]

-- What the first two ampersands of a URI enclose decides.
theorem checkAuth_segment (hu : cstr username.bytes = some u) (hp : cstr password.bytes = some p)
    (h₀ : a ≠ []) (ha : amp ∉ a) (hl : a.length < 128) (hs : amp ∉ s) (hsl : s.length < 128)
    (c : Credentials s) :
    checkAuth (a ++ amp :: (s ++ amp :: r)) t username password =
      some (decide (colon ∉ u ∧ decode s = u ++ colon :: p)) := by
  have h₁ : bufsearch (a ++ amp :: (s ++ amp :: r)) 128 [amp] = a.length :=
    bufsearch_separator ha hl
  have h₂ : bufsearch (s ++ amp :: r) 128 [amp] = s.length := bufsearch_separator hs hsl
  have ⟨n, q, hd, hn⟩ := List.eq_append_cons_of_mem c.colon_mem
  have hn₀ : 0 ∉ n := fun h => c.nul_not_mem <| by simp [hd, h]
  have hq₀ : 0 ∉ q := fun h => c.nul_not_mem <| by simp [hd, h]
  have hnf : n.length < 40 := by
    have := c.username_fits
    rwa [hd, takeWhile_separator hn] at this
  have hqf : q.length + 1 + (leftover s).length ≤ 40 := by
    have := c.password_fits
    rwa [hd, dropWhile_separator hn] at this
  have hb : base64Decode (amp :: s) 80 = n ++ colon :: (q ++ leftover s) := by
    have he : Base64.sextets (amp :: s) = Base64.sextets s := Base64.sextets_cons_none rfl
    have hlen : (decode s).length + (leftover s).length ≤ 80 := by
      simp only [hd, List.length_append, List.length_cons]
      omega
    rw [base64Decode_eq (by rwa [he]), he]
    change decode s ++ leftover s = _
    rw [hd, List.append_assoc, List.cons_append]
  have hp₁ : ((a ++ amp :: (s ++ amp :: r)).drop ((a.length : Int) + 1).toNat) = s ++ amp :: r := by
    rw [show ((a.length : Int) + 1).toNat = a.length + 1 by omega, List.drop_length_add_append]
    rfl
  have ht : ((a ++ amp :: (s ++ amp :: r)).drop (a.length : Int).toNat).take
      ((s.length : Int) + a.length + 1 - a.length).toNat = amp :: s := by
    rw [show ((s.length : Int) + a.length + 1 - a.length).toNat = s.length + 1 by omega]
    simp
  have hc : ¬((a.length : Int) = 0 ∨ (s.length : Int) + a.length + 1 < 0) := by
    have := List.length_pos_of_ne_nil h₀
    omega
  simp only [checkAuth, h₁, hp₁, h₂, hc, if_false, ht, hb]
  rw [compare_eq hu hp hn hn₀ hq₀ c.leftover hnf hqf, hd, ← decide_eq_decide.mpr (credentials_iff hn)]

theorem checkAuth_head : checkAuth (amp :: l) tbuf username password = some false := by
  have : bufsearch (amp :: l) 128 [amp] = 0 := bufsearch_separator (a := []) (by simp) (by simp)
  simp [checkAuth, this]

theorem checkAuth_of_not_mem (h : amp ∉ l.take 128) :
    checkAuth l tbuf username password = some false := by
  simp [checkAuth, bufsearch_of_not_mem h]

theorem checkAuth_eq (hu : cstr username.bytes = some u) (hp : cstr password.bytes = some p)
    (hl : uri.length < 128) (r : Readable uri rest) :
    checkAuth (uri ++ 0 :: rest) tbuf username password = some (grants uri u p) := by
  cases r with
  | head h =>
    match uri, h with
    | _ :: _, rfl => rw [List.cons_append, checkAuth_head]; simp [grants]
  | none h hr =>
    have ht : amp ∉ (uri ++ 0 :: rest).take 128 := by
      rw [List.take_append, show 128 - uri.length = (127 - uri.length) + 1 by omega]
      have h₀ : amp ≠ 0 := by decide
      simp [List.take_of_length_le (Nat.le_of_lt hl), h, hr, h₀]
    simp [checkAuth_of_not_mem ht, grants, between_of_not_mem h]
  | segment h =>
    have ⟨s, h, c⟩ := h
    have ⟨a, b, hs, ha, hn⟩ := between_eq_some_iff.mp h
    match a with
    | []     => simp [hs, checkAuth_head, grants]
    | d :: a =>
      have hd : d ≠ amp := fun hd => ha <| by simp [hd]
      have hl : (d :: a).length + s.length + 2 ≤ uri.length := by
        simp only [hs, List.length_append, List.length_cons]
        omega
      have := checkAuth_segment (r := b ++ 0 :: rest) (t := tbuf) hu hp (List.cons_ne_nil d a) ha
        (by omega) hn (by omega) c
      have hh : uri.head? ≠ some amp := by simp [hs, hd]
      have hg : grants uri u p = decide (colon ∉ u ∧ decode s = u ++ colon :: p) := by
        simp [grants, Option.mem_def.mp h, hh]
      rw [hg, ← this, hs]
      simp

end Auth
