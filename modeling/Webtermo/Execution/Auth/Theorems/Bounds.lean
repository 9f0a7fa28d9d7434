import Webtermo.Execution.Auth.Bounds
import Webtermo.Execution.Auth.Theorems.CheckAuth

namespace Auth

variable {pbuf : Buffer 100} {tbuf : Buffer 80} {ubuf : Buffer 40} {u p a b l s d : Bytes} {c : UInt8}

theorem searchIn_separator (h : c ∉ a) (hl : a.length < len) :
    searchIn c len i (a ++ c :: b) = some ((i + a.length : Nat) : Int) := by
  induction a generalizing len i with
  | nil =>
    obtain ⟨n, rfl⟩ := Nat.exists_eq_add_one.mpr hl
    simp [searchIn]
  | cons d a ih =>
    obtain ⟨hd, ha⟩ : c ≠ d ∧ c ∉ a := by simpa using h
    obtain ⟨n, rfl⟩ := Nat.exists_eq_add_one.mpr <| Nat.zero_lt_of_lt hl
    rw [List.cons_append, searchIn, if_neg hd.symm, ih ha <| Nat.lt_of_succ_lt_succ hl, List.length_cons,
      Nat.add_assoc, Nat.add_comm 1]

-- A character that is not there is looked for behind the end.
theorem searchIn_of_not_mem (h : c ∉ l) (hl : l.length < len) : searchIn c len i l = none := by
  induction l generalizing len i with
  | nil =>
    obtain ⟨n, rfl⟩ := Nat.exists_eq_add_one.mpr hl
    rfl
  | cons b l ih =>
    obtain ⟨hb, hs⟩ : c ≠ b ∧ c ∉ l := by simpa using h
    obtain ⟨n, rfl⟩ := Nat.exists_eq_add_one.mpr <| Nat.zero_lt_of_lt hl
    rw [searchIn, if_neg hb.symm]
    exact ih hs <| Nat.lt_of_succ_lt_succ hl

-- The name up to the colon is copied as a whole, which needs a place for each of its bytes.
theorem copyName_eq (hl : tbuf.bytes.drop k = l) (hk : k ≤ 40) : copyName tbuf k ubuf =
    (ubuf.write k (l.takeWhile (· ≠ colon))).map fun ubuf =>
      some (k + (l.takeWhile (· ≠ colon)).length, ubuf) := by
  induction l generalizing k ubuf with
  | nil =>
    have := List.drop_eq_nil_iff.mp hl
    have := tbuf.length_eq
    omega
  | cons c l ih =>
    have hg : tbuf.bytes[k]? = some c := by
      rw [← List.head?_drop, hl]
      rfl
    have hd : tbuf.bytes.drop (k + 1) = l := by
      rw [← List.drop_drop, hl]
      rfl
    rw [copyName, hg]
    by_cases hc : c = colon
    case pos =>
      obtain ⟨b, hb⟩ : ∃ b, ubuf.write k [] = some b := Buffer.write_eq_some hk
      have he : b = ubuf := Buffer.write_eq_self hb |>.mpr rfl
      simp [hc, hb, he]
    case neg =>
      have ht : (c :: l).takeWhile (· ≠ colon) = [c] ++ l.takeWhile (· ≠ colon) := by
        simp [hc]
      rw [ht, Buffer.write_append]
      simp only [hc, if_false]
      cases hw : ubuf.write k [c] with
      | none => rfl
      | some b =>
        have := Buffer.write_fits hw
        simp only [List.length_singleton] at this
        have hn : ¬80 < k + 1 := by omega
        simp only [hn, if_false, ih hd this, Option.bind_some, List.length_append, List.length_singleton,
          Nat.add_assoc]

theorem copyPassword_eq (hl : (tbuf.bytes.take n).drop k = l) (hn : n ≤ 80) (hi : i ≤ 40) :
    copyPassword tbuf n k i ubuf = (ubuf.write i l).map fun ubuf => some (i + l.length, ubuf) := by
  induction l generalizing k i ubuf with
  | nil =>
    have hk := List.drop_eq_nil_iff.mp hl
    rw [List.length_take, tbuf.length_eq, Nat.min_eq_left hn] at hk
    obtain ⟨b, hb⟩ : ∃ b, ubuf.write i [] = some b := Buffer.write_eq_some hi
    have he : b = ubuf := Buffer.write_eq_self hb |>.mpr rfl
    rw [copyPassword, if_neg <| Nat.not_lt_of_le hk, hb, he]
    rfl
  | cons c l ih =>
    have hk : k < n := by
      have := congrArg List.length hl
      simp only [List.length_drop, List.length_take, List.length_cons] at this
      omega
    have hg : tbuf.bytes[k]? = some c := by
      have := congrArg List.head? hl
      rwa [List.head?_drop, List.getElem?_take_of_lt hk] at this
    have hd : (tbuf.bytes.take n).drop (k + 1) = l := by
      rw [← List.drop_drop, hl]
      rfl
    have hl : c :: l = [c] ++ l := rfl
    rw [copyPassword, if_pos hk, hg, hl, Buffer.write_append]
    cases hw : ubuf.write i [c] with
    | none => simp [hw]
    | some b =>
      have := Buffer.write_fits hw
      simp only [List.length_singleton] at this
      have hn₁ : ¬80 < k + 1 := by omega
      simp only [hw, hn₁, if_false, ih hd this, Option.bind_some, List.length_append,
        List.length_singleton, Nat.add_assoc]

-- The text that `strcmp` finds in a copy
theorem strcpy_cstr {b b₁ : Buffer cap} (h : b.strcpy s = some b₁) :
    cstr b₁.bytes = some (s.takeWhile (· ≠ 0)) := by
  obtain ⟨r, hr⟩ := Buffer.strcpy_prefix h
  rw [← hr, List.append_assoc]
  exact cstr_nul

theorem compareIn_eq (hn : n ≤ 80) : compareIn tbuf n ubuf u p =
    (ubuf.strcpy (tbuf.bytes.takeWhile (· ≠ colon))).bind fun ubuf =>
      if cstr ubuf.bytes ≠ some u then some false
      else
        (ubuf.strcpy ((tbuf.bytes.take n).drop ((tbuf.bytes.takeWhile (· ≠ colon)).length + 1))).map
          fun ubuf => cstr ubuf.bytes = some p := by
  rw [compareIn, copyName_eq (l := tbuf.bytes) rfl (by decide), Buffer.strcpy, Buffer.write_append]
  cases ubuf.write 0 (tbuf.bytes.takeWhile (· ≠ colon)) with
  | none => rfl
  | some ubuf =>
    simp only [Option.map_some, Option.bind_eq_bind, Option.bind_some, Nat.zero_add]
    cases ubuf.write (tbuf.bytes.takeWhile (· ≠ colon)).length [0] with
    | none => rfl
    | some ubuf =>
      simp only [Option.bind_some]
      split
      case isTrue => rfl
      case isFalse =>
        rw [copyPassword_eq rfl hn (by decide), Buffer.strcpy, Buffer.write_append]
        generalize (tbuf.bytes.take n).drop ((tbuf.bytes.takeWhile (· ≠ colon)).length + 1) = l
        cases ubuf.write 0 l with
        | none => rfl
        | some ubuf =>
          simp only [Option.map_some, Option.bind_some, Nat.zero_add]
          cases ubuf.write l.length [0] <;> rfl

-- The name and, if it is the right one, the rest behind the colon must have room in `ubuf`.
theorem compareIn_isSome_iff (hn : n ≤ 80) : (compareIn tbuf n ubuf u p).isSome ↔
    (tbuf.bytes.takeWhile (· ≠ colon)).length < 40 ∧
      ((tbuf.bytes.takeWhile (· ≠ colon)).takeWhile (· ≠ 0) = u →
        ((tbuf.bytes.take n).drop ((tbuf.bytes.takeWhile (· ≠ colon)).length + 1)).length < 40) := by
  rw [compareIn_eq hn, ← Buffer.strcpy_isSome_iff (b := ubuf)]
  cases hc : ubuf.strcpy (tbuf.bytes.takeWhile (· ≠ colon)) with
  | none => simp
  | some b =>
    rw [Option.bind_some, strcpy_cstr hc, ← Buffer.strcpy_isSome_iff (b := b)]
    generalize (tbuf.bytes.takeWhile (· ≠ colon)).takeWhile (· ≠ 0) = t
    by_cases h : t = u <;> simp [h]

-- The bytes that a segment is decoded to, as far as `tbuf` has room for them
def decoded (s : Bytes) : Bytes :=
  (decode s ++ leftover s).take 80

-- The request has its first character for a separator, or two of them around a segment in which the
-- name ends early enough. If it is the name of the user, what follows is short enough as well.
def Inside (uri u : Bytes) : Prop :=
  uri.head? = some amp ∨ ∃ s ∈ between amp uri, colon ∈ (decoded s).take 40 ∧
    (((decoded s).takeWhile (· ≠ colon)).takeWhile (· ≠ 0) = u →
      ((decoded s).dropWhile (· ≠ colon)).length ≤ 40)

-- `checkAuth` stays inside of its arrays and of `authen_uri`, whatever the stack holds.
def Bounded (pbuf : Buffer 100) (u p : Bytes) : Prop :=
  ∀ tbuf ubuf, (checkAuthIn pbuf tbuf ubuf u p).isSome

theorem base64Decode_amp : base64Decode (amp :: s) 80 = decoded s := by
  rw [base64Decode_eq_take, Base64.sextets_cons_none rfl]
  rfl

theorem decoded_length : (decoded s).length ≤ 80 :=
  List.length_take_le _ _

-- A list in which the character stands among the first `n`
theorem mem_take_iff : c ∈ d.take n ↔ ∃ a b, d = a ++ c :: b ∧ c ∉ a ∧ a.length < n := by
  constructor
  case mp =>
    intro h
    obtain ⟨a, b, hd, ha⟩ := List.eq_append_cons_of_mem h
    refine ⟨a, b ++ d.drop n, ?_, ha, ?_⟩
    · have := congrArg (· ++ d.drop n) hd
      simpa using this
    · have := congrArg List.length hd
      simp only [List.length_take, List.length_append, List.length_cons] at this
      omega
  case mpr =>
    rintro ⟨a, b, rfl, -, hl⟩
    obtain ⟨k, rfl⟩ : ∃ k, n = a.length + (k + 1) := ⟨n - a.length - 1, by omega⟩
    rw [List.take_length_add_append]
    simp

-- A name that ends early has its end among the first characters.
theorem mem_take_of_takeWhile (h : (l.takeWhile (· ≠ c)).length < n) (hl : n ≤ l.length) :
    c ∈ l.take n := by
  by_contra hc
  have : (l.take n ++ l.drop n).takeWhile (· ≠ c) = _ :=
    List.takeWhile_append_of_pos <| ne_separator hc
  rw [List.take_append_drop] at this
  rw [this, List.length_append, List.length_take] at h
  omega

theorem write_decoded : ∃ t : Buffer 80, tbuf.write 0 (decoded s) = some t ∧
    t.bytes = decoded s ++ tbuf.bytes.drop (decoded s).length := by
  obtain ⟨t, ht⟩ : ∃ t, tbuf.write 0 (decoded s) = some t := Buffer.write_eq_some <| by
    have := @decoded_length s
    omega
  exact ⟨t, ht, by simpa using Buffer.write_bytes ht⟩

-- What is decoded is compared with the name and the password.
theorem compareIn_decoded_iff :
    (∀ (tbuf : Buffer 80) (ubuf : Buffer 40), ((tbuf.write 0 (decoded s)).bind fun t =>
      compareIn t (decoded s).length ubuf u p).isSome) ↔
    colon ∈ (decoded s).take 40 ∧ (((decoded s).takeWhile (· ≠ colon)).takeWhile (· ≠ 0) = u →
      ((decoded s).dropWhile (· ≠ colon)).length ≤ 40) := by
  -- where the colon comes early enough, nothing depends on what lies on the stack
  have parts (tbuf : Buffer 80) (ubuf : Buffer 40) (h : colon ∈ (decoded s).take 40) :
      ((tbuf.write 0 (decoded s)).bind fun t => compareIn t (decoded s).length ubuf u p).isSome ↔
      (((decoded s).takeWhile (· ≠ colon)).takeWhile (· ≠ 0) = u →
        ((decoded s).dropWhile (· ≠ colon)).length ≤ 40) := by
    obtain ⟨t, ht, hb⟩ := @write_decoded tbuf s
    obtain ⟨n, q, hd, hn, hl⟩ := mem_take_iff.mp h
    have hw : t.bytes.takeWhile (· ≠ colon) = n := by
      rw [hb, hd, List.append_assoc]
      exact takeWhile_separator hn
    have hq : (t.bytes.take (decoded s).length).drop (n.length + 1) = q := by
      rw [hb, List.take_left, hd, List.drop_length_add_append]
      rfl
    rw [ht, Option.bind_some, compareIn_isSome_iff decoded_length, hw, hq, hd, takeWhile_separator hn,
      dropWhile_separator hn, List.length_cons]
    exact ⟨fun h => h.2, fun h => ⟨hl, h⟩⟩
  constructor
  case mp =>
    intro h
    have hc : colon ∈ (decoded s).take 40 := by
      obtain ⟨t, ht, hb⟩ := @write_decoded (.zero 80) s
      have hs := h (.zero 80) (.zero 40)
      rw [ht, Option.bind_some, compareIn_isSome_iff decoded_length] at hs
      have hm := mem_take_of_takeWhile hs.1 <| by rw [t.length_eq]; decide
      rw [hb, List.take_append] at hm
      refine List.mem_append.mp hm |>.resolve_right fun hz => ?_
      have := List.eq_of_mem_replicate <| List.mem_of_mem_drop <| List.mem_of_mem_take hz
      exact absurd this <| by decide
    exact ⟨hc, parts _ _ hc |>.mp <| h (.zero 80) (.zero 40)⟩
  case mpr =>
    rintro ⟨hc, hp⟩ tbuf ubuf
    exact parts _ _ hc |>.mpr hp

-- The part between the first two separators, which `checkAuth` looks for
theorem checkAuthIn_segment (hb : pbuf.bytes = a ++ amp :: (s ++ amp :: b)) (h₀ : a ≠ [])
    (ha : amp ∉ a) (hs : amp ∉ s) : checkAuthIn pbuf tbuf ubuf u p =
      (tbuf.write 0 (decoded s)).bind fun t => compareIn t (decoded s).length ubuf u p := by
  have hl := congrArg List.length hb
  simp only [pbuf.length_eq, List.length_append, List.length_cons] at hl
  have h₁ : searchIn amp 128 0 (a ++ amp :: (s ++ amp :: b)) = some (a.length : Int) := by
    rw [searchIn_separator ha (by omega), Nat.zero_add]
  have h₂ : searchIn amp 128 0 (s ++ amp :: b) = some (s.length : Int) := by
    rw [searchIn_separator hs (by omega), Nat.zero_add]
  have hn : (a.length : Int) ≠ 0 := by
    have := List.length_pos_of_ne_nil h₀
    omega
  have hp : ¬(s.length : Int) + a.length + 1 < 0 := by omega
  have hd : (a ++ amp :: (s ++ amp :: b)).drop ((a.length : Int) + 1).toNat = s ++ amp :: b := by
    rw [show ((a.length : Int) + 1).toNat = a.length + 1 by omega, List.drop_length_add_append]
    rfl
  have ht : ((a ++ amp :: (s ++ amp :: b)).drop (a.length : Int).toNat).take
      ((s.length : Int) + a.length + 1 - a.length).toNat = amp :: s := by
    rw [show ((s.length : Int) + a.length + 1 - a.length).toNat = s.length + 1 by omega]
    simp
  simp only [checkAuthIn, hb, h₁, h₂, hn, hp, hd, ht, if_false, base64Decode_amp,
    Option.bind_eq_bind, Option.bind_some]

theorem checkAuthIn_head (h : pbuf.bytes.head? = some amp) :
    checkAuthIn pbuf tbuf ubuf u p = some false := by
  obtain ⟨l, hl⟩ := List.head?_eq_some_iff.mp h
  simp [checkAuthIn, hl, searchIn]

-- Exactly the requests that have their credentials early enough are read inside of their array, and the
-- arrays on the stack are kept.
theorem inside_law : Bounded pbuf u p ↔ Inside pbuf.bytes u := by
  by_cases h₀ : pbuf.bytes.head? = some amp
  case pos => exact ⟨fun _ => .inl h₀, fun _ _ _ => checkAuthIn_head h₀ ▸ rfl⟩
  case neg =>
    rw [Inside, or_iff_right h₀]
    by_cases hs : ∃ s, between amp pbuf.bytes = some s
    case pos =>
      obtain ⟨s, hs⟩ := hs
      obtain ⟨a, b, hb, ha, hn⟩ := between_eq_some_iff.mp hs
      have ha₀ : a ≠ [] := by
        rintro rfl
        exact h₀ <| hb ▸ rfl
      simp only [Bounded, checkAuthIn_segment hb ha₀ ha hn, compareIn_decoded_iff, hs, Option.mem_def,
        Option.some.injEq, exists_eq_left']
    case neg =>
      refine ⟨fun h => ?_, fun ⟨s, h, _⟩ => absurd ⟨s, h⟩ hs⟩
      have hb := h (.zero 80) (.zero 40)
      have hl := pbuf.length_eq
      by_cases hm : amp ∈ pbuf.bytes
      case neg =>
        rw [checkAuthIn, searchIn_of_not_mem hm (by omega)] at hb
        cases hb
      case pos =>
        obtain ⟨a, r, hp, ha⟩ := List.eq_append_cons_of_mem hm
        have hr : amp ∉ r := by
          intro hr
          obtain ⟨s, b, rfl, hn⟩ := List.eq_append_cons_of_mem hr
          exact hs ⟨s, between_eq_some_iff.mpr ⟨a, b, hp, ha, hn⟩⟩
        have ha₀ : (a.length : Int) ≠ 0 := by
          intro h
          obtain rfl : a = [] := List.length_eq_zero_iff.mp <| by omega
          exact h₀ <| hp ▸ rfl
        have hn : a.length + (r.length + 1) = 100 := by
          rw [← hl, hp, List.length_append, List.length_cons]
        have h₁ : searchIn amp 128 0 (a ++ amp :: r) = some (a.length : Int) := by
          rw [searchIn_separator ha (by omega), Nat.zero_add]
        have hd : (a ++ amp :: r).drop ((a.length : Int) + 1).toNat = r := by
          rw [show ((a.length : Int) + 1).toNat = a.length + 1 by omega, List.drop_length_add_append]
          rfl
        have h₂ : searchIn amp 128 0 r = none := searchIn_of_not_mem hr (by omega)
        simp only [checkAuthIn, hp, h₁, ha₀, hd, h₂, if_false, Option.bind_eq_bind, Option.bind_some,
          Option.bind_none, Option.isSome_none] at hb
        exact absurd hb Bool.false_ne_true

-- A request with zeros behind it
def requested (t : Bytes) (h : t.length ≤ 100) : Buffer 100 where
  bytes     := t ++ List.replicate (100 - t.length) 0
  length_eq := by
    rw [List.length_append, List.length_replicate]
    omega

-- A request without credentials is searched for them beyond its end.
theorem bounds_home : ¬∀ pbuf u p, Bounded pbuf u p := by
  intro h
  have := h (requested (ascii "/home.html") (by decide)) [] [] (.zero 80) (.zero 40)
  rw [checkAuthIn, searchIn_of_not_mem (by decide +kernel) (by decide +kernel)] at this
  cases this

end Auth
