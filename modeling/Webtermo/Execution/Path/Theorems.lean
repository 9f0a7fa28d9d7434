import Webtermo.Execution.Path.State

namespace Path

open Auth (Uri root login html tables fsdata)

variable {ans : Answers} {s s₁ : State} {name uri e r : Bytes} {k j : UInt8} {b : Buffer 10}

@[simp] theorem ok_bind {f : α → Except Stop β} : (Except.ok x >>= f) = f x := rfl

@[simp] theorem error_bind {f : α → Except Stop β} : (Except.error x >>= f) = .error x := rfl

theorem charAt_cons (h : name.drop k.toNat = c :: r) : charAt name k = .ok c := by
  have hc : name[k.toNat]? = some c := by
    rw [← List.head?_drop, h]
    rfl
  simp [charAt, hc]

theorem charAt_nul (h : k.toNat = name.length) : charAt name k = .ok 0 := by
  simp [charAt, h]

theorem charAt_reads (h : name.length < k.toNat) : charAt name k = .error .reads := by
  simp [charAt, List.getElem?_eq_none (Nat.le_of_lt h), Nat.ne_of_gt h]

theorem toNat_succ (h : k.toNat < 255) : (k + 1).toNat = k.toNat + 1 :=
  Nat.mod_eq_of_lt <| Nat.succ_lt_succ h

theorem drop_succ (hn : name.length < 255) (h : name.drop k.toNat = c :: r) :
    (k + 1).toNat = k.toNat + 1 ∧ name.drop (k + 1).toNat = r := by
  have hl := congrArg List.length h
  simp only [List.length_drop, List.length_cons] at hl
  have hk := toNat_succ (k := k) <| by omega
  exact ⟨hk, by rw [hk, ← List.drop_drop, h]; rfl⟩

theorem skipToDot_dot (hn : name.length < 255) (h : name.drop k.toNat = e ++ 46 :: r)
    (he : 46 ∉ e) (hf : e.length < n) :
    ∃ k₁, skipToDot name n k = .ok k₁ ∧ name.drop k₁.toNat = 46 :: r := by
  induction e generalizing k n with
  | nil =>
    cases n with
    | zero => exact absurd hf (Nat.not_lt_zero _)
    | succ n => exact ⟨k, by simp [skipToDot, charAt_cons h]; rfl, h⟩
  | cons c e ih =>
    cases n with
    | zero => exact absurd hf (Nat.not_lt_zero _)
    | succ n =>
      have ⟨hc, he⟩ : ¬c = 46 ∧ 46 ∉ e := by simpa [eq_comm] using he
      have ⟨_, hd⟩ := drop_succ hn h
      have ⟨k₁, h₁, h₂⟩ := ih hd he <| Nat.lt_of_succ_lt_succ hf
      exact ⟨k₁, by simpa [skipToDot, charAt_cons h, hc] using h₁, h₂⟩

-- Without a dot, what is behind the name is read.
theorem skipToDot_reads (hn : name.length < 255) (h : name.drop k.toNat = r)
    (hk : k.toNat ≤ name.length) (hr : 46 ∉ r) (hf : r.length + 1 < n) :
    skipToDot name n k = .error .reads := by
  induction r generalizing k n with
  | nil =>
    have hk : k.toNat = name.length := Nat.le_antisymm hk <| List.drop_eq_nil_iff.mp h
    have h₁ := toNat_succ (k := k) <| by omega
    have h₂ : charAt name (k + 1) = .error .reads := charAt_reads <| by omega
    match n with
    | n + 2 => simp [skipToDot, charAt_nul hk, h₂]
  | cons c r ih =>
    cases n with
    | zero => exact absurd hf (Nat.not_lt_zero _)
    | succ n =>
      have ⟨hc, hr⟩ : ¬c = 46 ∧ 46 ∉ r := by simpa [eq_comm] using hr
      have ⟨hk₁, hd⟩ := drop_succ hn h
      have hl := congrArg List.length h
      simp only [List.length_drop, List.length_cons] at hl
      have := ih hd (by omega) hr <| Nat.lt_of_succ_lt_succ hf
      simpa [skipToDot, charAt_cons h, hc] using this

-- As long as there is no dot among the first 256 bytes, the search goes round and round.
theorem skipToDot_endless (hl : 256 ≤ name.length) (h : 46 ∉ name.take 256) :
    skipToDot name n k = .error .endless := by
  induction n generalizing k with
  | zero => rfl
  | succ n ih =>
    have hk := k.toNat_lt
    have hi : k.toNat < name.length := by omega
    have hc : charAt name k = .ok name[k.toNat] := by simp [charAt, hi]
    have hd : name[k.toNat] ≠ 46 := fun he => h <| he ▸ List.mem_take_iff_getElem.mpr
      ⟨k.toNat, by omega, rfl⟩
    simpa [skipToDot, hc, hd] using ih

-- What ends the extension
def ends (c : UInt8) : Prop :=
  c = 0 ∨ c = 40 ∨ c = 63

instance : Decidable (ends c) :=
  inferInstanceAs <| Decidable (_ ∨ _)

theorem charAt_ends (h : name.drop k.toNat = r) (hr : ∀ c ∈ r.head?, ends c)
    (hk : k.toNat ≤ name.length) : ∃ c, charAt name k = .ok c ∧ ends c := by
  cases r with
  | nil => exact ⟨0, charAt_nul <| Nat.le_antisymm hk <| List.drop_eq_nil_iff.mp h, .inl rfl⟩
  | cons c r => exact ⟨c, charAt_cons h, hr c rfl⟩

theorem copyEkstenzija_ok (hn : name.length < 255) (h : name.drop k.toNat = e ++ r)
    (he : ∀ c ∈ e, ¬ends c) (hr : ∀ c ∈ r.head?, ends c) (hk : k.toNat ≤ name.length)
    (hj : j.toNat + e.length < 10) (hf : e.length < n) :
    ∃ b₁, copyEkstenzija name n k j b = .ok b₁ ∧
      b₁.bytes.take (j.toNat + e.length + 1) = b.bytes.take j.toNat ++ e ++ [0] := by
  induction e generalizing k j b n with
  | nil =>
    have ⟨c, hc, hs⟩ := charAt_ends h hr hk
    have ⟨b₁, hb⟩ : ∃ b₁, b.write j.toNat [0] = some b₁ := Buffer.write_eq_some hj
    cases n with
    | zero => exact absurd hf (Nat.not_lt_zero _)
    | succ n =>
      have hs : c = 0 ∨ c = 40 ∨ c = 63 := hs
      refine ⟨b₁, by simp [copyEkstenzija, hc, hs, hb, check], ?_⟩
      simpa using Buffer.take_write_append hb
  | cons c e ih =>
    have ⟨hc, he⟩ := List.forall_mem_cons.mp he
    have hc : ¬(c = 0 ∨ c = 40 ∨ c = 63) := hc
    simp only [List.length_cons] at hj
    have ⟨b₁, hb⟩ : ∃ b₁, b.write j.toNat [c] = some b₁ :=
      Buffer.write_eq_some <| by simp only [List.length_singleton]; omega
    have ⟨hk₁, hd⟩ := drop_succ hn h
    have hj₁ := toNat_succ (k := j) <| by omega
    have hl := congrArg List.length h
    simp only [List.length_drop, List.length_cons, List.length_append] at hl
    cases n with
    | zero => exact absurd hf (Nat.not_lt_zero _)
    | succ n =>
      have ⟨b₂, h₂, ht⟩ := ih (j := j + 1) (b := b₁) hd he (by omega) (by omega) <|
        Nat.lt_of_succ_lt_succ hf
      refine ⟨b₂, by simp [copyEkstenzija, charAt_cons h, hc, hb, check, h₂], ?_⟩
      have hw := Buffer.take_write_append hb
      simp only [List.length_singleton] at hw
      rw [hj₁, hw] at ht
      simpa [Nat.add_assoc, Nat.add_comm 1] using ht

theorem copyEkstenzija_writes (hn : name.length < 255) (h : name.drop k.toNat = e ++ r)
    (he : ∀ c ∈ e, ¬ends c) (hr : ∀ c ∈ r.head?, ends c) (hk : k.toNat ≤ name.length)
    (hj : 10 ≤ j.toNat + e.length) (hj₁ : j.toNat ≤ 10) (hf : e.length < n) :
    copyEkstenzija name n k j b = .error (.writes .ekstenzija) := by
  have full {c} (hj : j.toNat = 10) : b.write j.toNat [c] = none := by
    simp [Buffer.write, hj]
  induction e generalizing k j b n with
  | nil =>
    obtain ⟨c, hc, _⟩ := charAt_ends h hr hk
    cases n with
    | zero => exact absurd hf (Nat.not_lt_zero _)
    | succ n =>
      simp [copyEkstenzija, hc, full (Nat.le_antisymm hj₁ hj), check]
  | cons c e ih =>
    obtain ⟨hc, he⟩ := List.forall_mem_cons.mp he
    have hc : ¬(c = 0 ∨ c = 40 ∨ c = 63) := hc
    simp only [List.length_cons] at hj
    obtain ⟨hk₁, hd⟩ := drop_succ hn h
    have hj₂ := toNat_succ (k := j) <| by omega
    have hl := congrArg List.length h
    simp only [List.length_drop, List.length_cons, List.length_append] at hl
    cases n with
    | zero => exact absurd hf (Nat.not_lt_zero _)
    | succ n =>
      cases hb : b.write j.toNat [c] with
      | none => simp [copyEkstenzija, charAt_cons h, hc, hb, check]
      | some b₁ =>
        have hw := Buffer.write_fits hb
        simp only [List.length_singleton] at hw
        have := ih (j := j + 1) (b := b₁) hd he (by omega) (by omega) (by omega)
          (Nat.lt_of_succ_lt_succ hf) fun hj => by simp [Buffer.write, hj]
        simp [copyEkstenzija, charAt_cons h, hc, hb, check, this]

-- A name at its first dot, and what follows it at the end of the extension
structure Parts (name before ext after : Bytes) : Prop where
  eq   : name = before ++ 46 :: (ext ++ after)
  dot  : 46 ∉ before
  text : ∀ c ∈ ext, ¬ends c
  stop : ∀ c ∈ after.head?, ends c

theorem parts_of_dot (h0 : 0 ∉ name) (h : name.dropWhile (· ≠ 46) = c :: r) :
    ∃ before after, Parts name before (r.takeWhile fun c => c ≠ 40 ∧ c ≠ 63) after := by
  have hc : c = 46 := by
    have := List.head?_dropWhile_not (· ≠ (46 : UInt8)) name
    rw [h] at this
    simpa using this
  subst hc
  have hn : name = name.takeWhile (· ≠ 46) ++ 46 :: r := by
    rw [← h, List.takeWhile_append_dropWhile]
  refine ⟨name.takeWhile (· ≠ 46), r.dropWhile fun c => c ≠ 40 ∧ c ≠ 63, ?_, fun hm => ?_,
    fun d hd he => ?_, fun d hd => ?_⟩
  · rwa [List.takeWhile_append_dropWhile]
  · simpa using List.mem_takeWhile_imp hm
  · have hr : d ∈ name := hn ▸ List.mem_append_right _ (.tail _ <| List.takeWhile_subset _ hd)
    have hp := List.mem_takeWhile_imp hd
    obtain rfl | rfl | rfl := he
    · exact h0 hr
    · simp at hp
    · simp at hp
  · have := List.head?_dropWhile_not (fun c : UInt8 => c ≠ 40 ∧ c ≠ 63) r
    rw [hd] at this
    simp only [decide_eq_false_iff_not, not_and_or, not_not] at this
    exact .inr this

-- What the two loops do with the parts of a name
theorem Parts.scan (p : Parts name before e after) (hn : name.length < 255) : ∃ k,
    skipToDot name 256 0 = .ok k ∧ if e.length < 10 then
      ∃ b₁, copyEkstenzija name 256 (k + 1) 0 b = .ok b₁ ∧ b₁.bytes.take (e.length + 1) = e ++ [0]
    else copyEkstenzija name 256 (k + 1) 0 b = .error (.writes .ekstenzija) := by
  have hl := congrArg List.length p.eq
  simp only [List.length_append, List.length_cons] at hl
  have ⟨k, hk, hd⟩ := skipToDot_dot (k := 0) (n := 256) hn p.eq p.dot (by omega)
  have ⟨hk₁, hd₁⟩ := drop_succ hn hd
  have hle : (k + 1).toNat ≤ name.length := by
    have := congrArg List.length hd
    simp only [List.length_drop, List.length_cons] at this
    omega
  refine ⟨k, hk, ?_⟩
  split
  case isTrue he =>
    have ⟨b₁, h₁, h₂⟩ := copyEkstenzija_ok (b := b) (j := 0) (n := 256) hn hd₁ p.text p.stop hle
      (by simpa using he) (by omega)
    exact ⟨b₁, h₁, by simpa using h₂⟩
  case isFalse he =>
    exact copyEkstenzija_writes hn hd₁ p.text p.stop hle (by simpa using he) (by decide) (by omega)

-- The name that is looked for, for a name with an extension that fits
theorem authenticate_ok (hn : name.length < 255) (h0 : 0 ∉ name) (hl : name ≠ login)
    (he : Auth.ekstenzija name = some e) : authenticate ans s name constant =
      if e = html ∧ ¬ans.checkAuth s.authenUri then
        if constant then .error .constant else .ok login
      else .ok name := by
  simp only [Auth.ekstenzija] at he
  split at he
  case h_1 => cases he
  case h_2 c r hd =>
    simp only [Option.ite_none_right_eq_some, Option.some.injEq] at he
    have ⟨hlt, he⟩ := he
    have ⟨_, _, p⟩ := parts_of_dot h0 hd
    have ⟨k, hk, hb⟩ := p.scan (b := ans.ekstenzija) hn
    rw [if_pos hlt] at hb
    have ⟨b₁, h₁, h₂⟩ := hb
    have ht : b₁.text 0 = some e := by
      have hz : 0 ∉ e := fun hm => p.text 0 (he ▸ hm) <| .inl rfl
      rw [Buffer.text, List.drop_zero, ← List.take_append_drop (e.length + 1) b₁.bytes, ← he, h₂, he,
        List.append_assoc]
      exact cstr_append_nul hz
    simp only [authenticate, hl, hk, h₁, ht, if_false, ok_bind, Option.some.injEq]
    split
    case isTrue => cases constant <;> rfl
    case isFalse => rfl

theorem authenticate_error (hn : name.length < 255) (h0 : 0 ∉ name) (hl : name ≠ login)
    (he : Auth.ekstenzija name = none) : ∃ x, authenticate ans s name constant = .error x := by
  simp only [Auth.ekstenzija] at he
  split at he
  case h_1 hd =>
    have hr : 46 ∉ name := fun hm => by simpa using List.dropWhile_eq_nil_iff.mp hd 46 hm
    have hk := skipToDot_reads (k := 0) (n := 256) hn rfl (Nat.zero_le _) hr <| by
      simp only [List.length_drop]
      omega
    exact ⟨.reads, by simp [authenticate, hl, hk]⟩
  case h_2 c r hd =>
    have hlt : ¬(r.takeWhile fun c => c ≠ 40 ∧ c ≠ 63).length < 10 := by simpa using he
    have ⟨_, _, p⟩ := parts_of_dot h0 hd
    have ⟨k, hk, hb⟩ := p.scan (b := ans.ekstenzija) hn
    rw [if_neg hlt] at hb
    exact ⟨_, by simp only [authenticate, hl, hk, hb, if_false, ok_bind, error_bind]; rfl⟩

-- Whether there is something with a name: a page, or a file on the disk or in the flash
def Found (ans : Answers) (name : Bytes) : Prop :=
  name ∈ tables ∨ ans.lfs name.tail ∨ name ∈ fsdata

instance : Decidable (Found ans name) :=
  inferInstanceAs <| Decidable (_ ∨ _)

theorem tables_short : ∀ t ∈ tables, t.length < 32 := by
  decide +kernel

theorem check_strcpy_ok {b : Buffer cap} (h : name.length < cap) :
    ∃ b₁, check a (b.strcpy name) = .ok b₁ := by
  have ⟨b₁, hb⟩ := Buffer.strcpy_eq_some (b := b) h
  exact ⟨b₁, by rw [hb]; rfl⟩

theorem check_strcpy_error {b : Buffer cap} (h : ¬name.length < cap) :
    check a (b.strcpy name) = .error (.writes a) := by
  have hb : b.strcpy name = none := by
    rw [← Option.not_isSome_iff_eq_none, Buffer.strcpy_isSome_iff]
    exact h
  rw [hb]
  rfl

-- What `fs_open` does when it has come to the name that it looks for
theorem fsOpen_short (h : authenticate ans s name constant = .ok name₁) (hl : name₁.length < 32) :
    ∃ s₁, fsOpen ans s name constant = .ok (s₁, if Found ans name₁ then some name₁ else none) ∧
      s₁.authenUri = s.authenUri := by
  by_cases ht : name₁ ∈ tables
  case pos => exact ⟨s, by simp only [fsOpen, h, ht, ok_bind, if_true, Found, true_or]; rfl, rfl⟩
  case neg =>
    have ⟨b₁, h₁⟩ := check_strcpy_ok (a := .fname) (b := s.fname) hl
    have ⟨b₂, h₂⟩ := check_strcpy_ok (a := .fileName) (b := s.fileName) hl
    refine ⟨{ s with fname := b₁, fileName := b₂ }, ?_, rfl⟩
    simp only [fsOpen, h, ht, h₁, h₂, ok_bind, if_false, Found, false_or]
    rfl

theorem fsOpen_long (h : authenticate ans s name constant = .ok name₁) (hl : ¬name₁.length < 32) :
    fsOpen ans s name constant = .error (.writes .fname) := by
  have ht : name₁ ∉ tables := fun hm => hl <| tables_short _ hm
  simp [fsOpen, h, ht, check_strcpy_error hl]

theorem fsOpen_of_error (h : authenticate ans s name constant = .error x) :
    fsOpen ans s name constant = .error x := by
  simp [fsOpen, h]

theorem authenticate_404 : authenticate ans s (ascii "/404.html") true =
    if ans.checkAuth s.authenUri then .ok (ascii "/404.html") else .error .constant := by
  have he : Auth.ekstenzija (ascii "/404.html") = some html := by decide
  rw [authenticate_ok (by decide) (by decide) (by decide) he]
  cases ans.checkAuth s.authenUri <;> rfl

theorem fsOpen_404 (h : name ∈ [ascii "/404.htm", ascii "/404.shtml"]) :
    ∃ s₁, fsOpen ans s name true = .ok (s₁, if Found ans name then some name else none) := by
  have hd : ∀ n ∈ [ascii "/404.htm", ascii "/404.shtml"], n.length < 32 ∧ 0 ∉ n ∧ n ≠ login ∧
      ∃ e ∈ Auth.ekstenzija n, e ≠ html := by
    decide
  have ⟨hs, h0, hl, e, he, hne⟩ := hd name h
  have ha : authenticate ans s name true = .ok name := by
    rw [authenticate_ok (by omega) h0 hl he, if_neg fun h => hne h.1]
  have ⟨s₁, ho, _⟩ := fsOpen_short ha hs
  exact ⟨s₁, ho⟩

-- The first of the three names is one of a page that needs a login, and it cannot be replaced.
theorem httpGet404File_iff :
    (∃ r, httpGet404File ans s = .ok r) ↔ ans.checkAuth s.authenUri := by
  have h₁ := @authenticate_404 ans s
  constructor
  case mp =>
    intro ⟨r, hr⟩
    refine Decidable.byContradiction fun ha => ?_
    rw [if_neg ha] at h₁
    simp [httpGet404File, fsOpen_of_error h₁] at hr
  case mpr =>
    intro ha
    rw [if_pos ha] at h₁
    have ⟨s₁, ho₁, _⟩ := fsOpen_short h₁ (by decide)
    have ⟨s₂, ho₂⟩ := @fsOpen_404 ans s₁ _ (.head _)
    have ⟨s₃, ho₃⟩ := @fsOpen_404 ans s₂ _ (.tail _ <| .head _)
    simp only [httpGet404File, ho₁, ok_bind]
    split
    case h_1 => exact ⟨_, rfl⟩
    case h_2 he =>
      cases (Prod.mk.inj he).1
      simp only [ho₂, ok_bind]
      split
      case h_1 => exact ⟨_, rfl⟩
      case h_2 he =>
        cases (Prod.mk.inj he).1
        exact ⟨_, ho₃⟩

-- What a GET needs
def Served (ans : Answers) (accepted : Bool) (name : Bytes) : Prop :=
  name = login ∨ ∃ e, Auth.ekstenzija name = some e ∧
    (e = html ∧ ¬accepted ∨ name.length < 32 ∧ (Found ans name ∨ accepted))

def Request.Within (ans : Answers) (s : State) : Request → Prop
  | post uri => uri.text.length < 64
  | get uri  => uri.text = root ∨ uri.text.length < 100 ∧
    Served ans ((s.authenUri.strcpy uri.text).any ans.checkAuth) (uri.text.takeWhile (· ≠ 63))

-- A request is handled within the bounds of memory
def Law (ans : Answers) (s : State) (r : Request) : Prop :=
  ∃ s₁, r.handle ans s = .ok s₁

theorem served_iff (hl : name ≠ login) (he : Auth.ekstenzija name = some e) : Served ans a name ↔
    e = html ∧ ¬a ∨ name.length < 32 ∧ (Found ans name ∨ a) := by
  simp [Served, hl, he]

-- What becomes of a name that `http_find_file` opens
theorem fsOpen_cases (hn : name.length < 255) (h0 : 0 ∉ name) (ha : ans.checkAuth s.authenUri = a) :
    (∃ r f, fsOpen ans s name false = .ok (r, some f)) ∧ Served ans a name ∨
    (∃ r, fsOpen ans s name false = .ok (r, none) ∧ r.authenUri = s.authenUri) ∧
      (Served ans a name ↔ a) ∨
    (∃ x, fsOpen ans s name false = .error x) ∧ ¬Served ans a name := by
  have found {name₁} (h : authenticate ans s name false = .ok name₁) (hs : name₁.length < 32)
      (hf : Found ans name₁) : ∃ r f, fsOpen ans s name false = .ok (r, some f) := by
    have ⟨r, ho, _⟩ := fsOpen_short h hs
    exact ⟨r, name₁, by rw [ho, if_pos hf]⟩
  have hlogin : Found ans login := .inr <| .inr <| by decide +kernel
  by_cases hl : name = login
  case pos =>
    have h : authenticate ans s name false = .ok login := by
      simp only [authenticate, hl, if_true]
      rfl
    exact .inl ⟨found h (by decide) hlogin, .inl hl⟩
  case neg =>
    cases he : Auth.ekstenzija name with
    | none =>
      have ⟨x, h⟩ : ∃ x, authenticate ans s name false = .error x := authenticate_error hn h0 hl he
      exact .inr <| .inr ⟨⟨x, fsOpen_of_error h⟩, by simp [Served, hl, he]⟩
    | some e =>
      have h : authenticate ans s name false = _ := authenticate_ok hn h0 hl he
      rw [ha] at h
      by_cases hc : e = html ∧ ¬a
      case pos =>
        rw [if_pos hc] at h
        exact .inl ⟨found h (by decide) hlogin, served_iff hl he |>.mpr <| .inl hc⟩
      case neg =>
        rw [if_neg hc] at h
        have hw : Served ans a name ↔ name.length < 32 ∧ (Found ans name ∨ a) :=
          served_iff hl he |>.trans <| or_iff_right hc
        by_cases hs : name.length < 32
        case neg => exact .inr <| .inr ⟨⟨_, fsOpen_long h hs⟩, by simp [hw, hs]⟩
        case pos =>
          by_cases hf : Found ans name
          case pos => exact .inl ⟨found h hs hf, hw.mpr ⟨hs, .inl hf⟩⟩
          case neg =>
            have ⟨r, ho, hr⟩ := fsOpen_short h hs
            rw [if_neg hf] at ho
            exact .inr <| .inl ⟨⟨r, ho, hr⟩, by simp [hw, hs, hf]⟩

theorem findBase_iff (hn : name.length < 255) (h0 : 0 ∉ name) :
    (∃ r, findBase ans s name = .ok r) ↔ Served ans (ans.checkAuth s.authenUri) name := by
  have hc := @fsOpen_cases ans s name _ hn h0 rfl
  obtain ⟨⟨r, f, ho⟩, hs⟩ | ⟨⟨r, ho, hr⟩, hs⟩ | ⟨⟨x, ho⟩, hs⟩ := hc
  · exact iff_of_true ⟨_, by simp only [findBase, ho, ok_bind]; rfl⟩ hs
  · rw [hs, ← hr, ← httpGet404File_iff]
    simp only [findBase, ho, ok_bind]
  · exact iff_of_false (by simp [findBase, ho]) hs

theorem handle_get {uri : Uri} :
    Law ans s (.get uri) ↔ ∃ r, httpFindFile ans s uri.text = .ok r := by
  simp only [Law, Request.handle]
  cases httpFindFile ans s uri.text with
  | ok r => exact iff_of_true ⟨r.1, rfl⟩ ⟨r, rfl⟩
  | error x => exact iff_of_false nofun nofun

-- A URI is handled within the bounds of memory exactly if it fits, and if its name has an extension
-- that fits, fits itself unless it is replaced, and is found unless the credentials are right.
theorem bounds_law {r : Request} : Law ans s r ↔ r.Within ans s := by
  cases r with
  | post uri =>
    simp only [Law, Request.handle, Request.Within, httpdPostBegin]
    by_cases h : uri.text.length < 64
    case pos =>
      have ⟨b, hb⟩ := check_strcpy_ok (a := .postFunkcija) (b := s.postFunkcija) h
      exact iff_of_true ⟨_, by rw [hb]; rfl⟩ h
    case neg => exact iff_of_false (by simp [check_strcpy_error h]) h
  | get uri =>
    rw [handle_get]
    simp only [Request.Within, httpFindFile]
    by_cases hr : uri.text = root
    case pos =>
      rw [if_pos hr, findBase_iff (by decide) (by decide)]
      exact iff_of_true (.inl rfl) (.inl hr)
    case neg =>
      rw [if_neg hr, or_iff_right hr]
      by_cases h : uri.text.length < 100
      case pos =>
        have ⟨b, hb⟩ := Buffer.strcpy_eq_some (b := s.authenUri) h
        have hs : (uri.text.takeWhile (· ≠ 63)).length ≤ uri.text.length :=
          (List.takeWhile_sublist _).length_le
        simp only [hb, check, ok_bind, Option.any_some, h, true_and]
        exact findBase_iff (by omega) fun hm => uri.nul_not_mem <| List.takeWhile_subset _ hm
      case neg => exact iff_of_false (by simp [check_strcpy_error h]) fun hw => h hw.1

def State.start : State :=
  ⟨.zero 100, .zero 64, .zero 32, .zero 32⟩

def nothing : Answers :=
  ⟨.zero 10, fun _ => false, fun _ => false⟩

-- A name without a dot is read on behind its NUL.
theorem status_reads : Request.handle nothing .start (.get ⟨ascii "/status", by decide⟩) =
    .error .reads ∧ ¬Law nothing .start (.get ⟨ascii "/status", by decide⟩) := by
  have h : Request.handle nothing .start (.get ⟨ascii "/status", by decide⟩) = .error .reads := by
    rfl
  exact ⟨h, fun ⟨_, hs⟩ => nomatch h.symm.trans hs⟩

end Path
