import Webtermo.Execution.Pages.Theorems.Parts

open Define

namespace Pages

open Xml (Clean Name Piece)

variable {env : Env} {ans : Answers} {arr arr₁ : Arrays} {s s₁ : State} {qs : List Piece}
  {page : Page} {x : Pointer} {r : Served} {e : Info}

-- The header, and content between the tags of one element
def Document (l : Bytes) : Prop :=
  ∃ d, l = header ++ d ∧ Xml.Element d

-- A page is a document with clean texts that fits into `XMLBuf`, and its length is returned.
def Law (page : Page) (s : State) (ans : Answers) (x : Pointer) : Prop :=
  ∃ s₁ r, page.generate s ans x = some (s₁, r) ∧ Document s₁.xmlBuf.bytes ∧ Texts Clean r.calls ∧
    r.len.toNat = s₁.xmlBuf.bytes.length

namespace Page

theorem table (page : Page) : Name page.root ∧ (∀ p ∈ page.body, p.Static) ∧
    (page.body.flatMap Part.shape).foldlM Piece.track [] = some [] ∧
    header.length + 2 * page.root.length + 5 + (page.body.map Part.bound).sum < Wcl.xmlCap := by
  revert page
  decide +kernel

theorem root_name : Name page.root :=
  (table page).1

theorem body_static : ∀ p ∈ page.body, p.Static :=
  (table page).2.1

theorem body_track : (page.body.flatMap Part.shape).foldlM Piece.track [] = some [] :=
  (table page).2.2.1

-- The pages without a list of files fit into `XMLBuf` whatever the strings are.
theorem body_bound : header.length + 2 * page.root.length + 5 + (page.body.map Part.bound).sum <
    Wcl.xmlCap :=
  (table page).2.2.2

theorem name_of_tag (h : t ∈ ["LF", "NM", "SZ", "DT", "TM", "LOG"]) : Name (ascii t) := by
  revert t
  decide +kernel

theorem fileDate_static {t : Lfs.FileTime} : (Value.fileDate t).Static := by
  have dot : Plain 1 (ascii ".") := by decide
  simpa [Value.fileDate, Value.Static, Plain.nil, dot.short] using ⟨dot, by decide⟩

theorem fileTime_static {t : Lfs.FileTime} : (Value.fileTime t).Static := by
  have colon : Plain 1 (ascii ":") := by decide
  simpa [Value.fileTime, Value.Static, Plain.nil, colon.short] using ⟨colon, by decide⟩

theorem disk_static : ∀ p ∈ e.disk, p.Static := by
  unfold Info.disk
  split
  case isTrue =>
    have lf := name_of_tag (t := "LF") (by decide)
    simp only [List.forall_mem_cons]
    exact ⟨lf, name_of_tag (by decide), ⟨name_of_tag (by decide), trivial⟩,
      ⟨name_of_tag (by decide), fileDate_static⟩, ⟨name_of_tag (by decide), fileTime_static⟩, lf,
      by simp⟩
  case isFalse => simp

theorem log_static : ∀ p ∈ e.log letter, p.Static := by
  unfold Info.log
  split
  case isTrue =>
    have lf := name_of_tag (t := "LF") (by decide)
    simp only [List.forall_mem_cons]
    exact ⟨lf, name_of_tag (by decide), lf, by simp⟩
  case isFalse => simp

theorem entry_static : ∀ p ∈ page.entry e, p.Static := by
  cases page with
  | disk0             => exact disk_static
  | logfile | haccp   => exact log_static
  | _                 => simp [entry]

theorem entry_track : ((page.entry e).flatMap Part.shape).foldlM Piece.track [] = some [] := by
  have log {letter} : ((e.log letter).flatMap Part.shape).foldlM Piece.track [] = some [] := by
    unfold Info.log
    split <;> rfl
  cases page with
  | disk0           => simp only [entry, Info.disk]; split <;> rfl
  | logfile | haccp => exact log
  | _               => rfl

theorem parts_static : ∀ p ∈ page.parts ans, p.Static := by
  unfold parts
  split
  case isTrue =>
    refine List.forall_mem_append.mpr ⟨body_static, fun p hp => ?_⟩
    have ⟨_, _, hp⟩ := List.mem_flatMap.mp hp
    exact entry_static p hp
  case isFalse => simpa using body_static

theorem parts_track : ((page.parts ans).flatMap Part.shape).foldlM Piece.track [] = some [] := by
  have entries {l : List Info} :
      ((l.flatMap (page.entry ·)).flatMap Part.shape).foldlM Piece.track [] = some [] := by
    induction l with
    | nil => rfl
    | cons e l ih => simp [List.flatMap_append, List.foldlM_append, entry_track, ih]
  unfold parts
  split
  case isTrue => simp [List.flatMap_append, List.foldlM_append, body_track, entries]
  case isFalse => simpa using body_track

-- Whether a page is left before its end
def Fails (page : Page) (ans : Answers) : Prop :=
  page.lists ∧ ans.listing.res < 0

instance : Decidable (page.Fails ans) :=
  inferInstanceAs <| Decidable (_ ∧ _)

-- The text in `XMLBuf` after the calls between the outer tags
def text (page : Page) (ans : Answers) (qs : List Piece) : Bytes :=
  header ++ Xml.opening page.root ++ qs.flatMap Piece.bytes ++
    if page.Fails ans then [] else Xml.closing page.root

-- A page that has been generated
structure Result (page : Page) (s : State) (ans : Answers) (x : Pointer) (qs : List Piece)
    (s₁ : State) (r : Served) : Prop where
  env    : s₁.toEnv = page.enter s.toEnv ans
  bytes  : s₁.xmlBuf.bytes = page.text ans qs
  len    : r.len = if page.Fails ans then UInt16.ofInt ans.listing.res
    else s₁.xmlBuf.bytes.length.toUInt16
  copied : r.copied = if page.Fails ans then none else page.copies x
  texts  : ∀ P, Texts P r.calls ↔ Texts P qs

theorem generate_spec (h : page.generate s ans x = some (s₁, r)) : ∃ arr qs,
    calls (page.enter s.toEnv ans) ans s.arr (page.parts ans) = some (arr, qs) ∧
      page.Result s ans x qs s₁ r := by
  simp only [generate, addParts_eq, calls, Part.call, Option.bind_eq_bind,
    Option.bind_eq_some_iff] at h
  obtain ⟨xml₀, h₀, _, ⟨_, ⟨_, hr, ⟨arr, qs⟩, hc, he⟩, hm⟩, h⟩ := h
  cases hr
  cases he
  obtain ⟨xml, hx, hs⟩ := Option.map_eq_some_iff.mp hm
  cases hs
  have hb : xml.bytes = header ++ Xml.opening page.root ++ qs.flatMap Piece.bytes := by
    rw [CString.strcats_bytes hx, CString.strcpy_bytes h₀, strings_flatten]
    simp [Piece.bytes]
  refine ⟨arr, qs, hc, ?_⟩
  split at h
  case isTrue hf =>
    have hf : page.Fails ans := hf
    cases h
    exact ⟨rfl, by simp [text, hf, hb], by simp [hf], by simp [hf],
      fun P => by rw [texts_append]; simp⟩
  case isFalse hf =>
    have hf : ¬page.Fails ans := hf
    simp only [Part.add, Part.call, Option.bind_eq_bind, Option.bind_some,
      Option.bind_eq_some_iff] at h
    obtain ⟨_, ⟨xml₁, h₁, he⟩, h⟩ := h
    cases he
    cases h
    have hb₁ : xml₁.bytes = page.text ans qs := by
      rw [CString.strcats_bytes h₁, hb, strings_flatten]
      simp [text, hf, Piece.bytes]
    exact ⟨rfl, hb₁, by simp [hf], by simp [hf],
      fun P => by rw [texts_append, texts_append]; simp⟩

theorem generate_total
    (hc : calls (page.enter s.toEnv ans) ans s.arr (page.parts ans) = some (arr, qs))
    (hl : (page.text ans qs).length < Wcl.xmlCap) :
    ∃ s₁ r, page.generate s ans x = some (s₁, r) ∧ page.Result s ans x qs s₁ r := by
  suffices h : ∃ s₁ r, page.generate s ans x = some (s₁, r) by
    obtain ⟨s₁, r, h⟩ := h
    obtain ⟨_, _, hc₁, hr⟩ := generate_spec h
    cases hc.symm.trans hc₁
    exact ⟨s₁, r, h, hr⟩
  have hh : header.length < Wcl.xmlCap := by decide +kernel
  have h₀ : CString.strcpy header = some (⟨header, hh⟩ : CString Wcl.xmlCap) := dif_pos hh
  have hs : (([Piece.opening page.root] ++ qs).flatMap strings).flatten =
      Xml.opening page.root ++ qs.flatMap Piece.bytes := by
    rw [strings_flatten]
    rfl
  simp only [text, List.append_assoc, List.length_append] at hl
  obtain ⟨xml, hx⟩ : ∃ xml, (⟨header, hh⟩ : CString Wcl.xmlCap).strcats
      (([Piece.opening page.root] ++ qs).flatMap strings) = some xml := by
    refine CString.strcats_eq_some ?_
    change header.length + _ < _
    rw [hs, List.length_append]
    omega
  have hb : xml.bytes = header ++ (Xml.opening page.root ++ qs.flatMap Piece.bytes) := by
    rw [CString.strcats_bytes hx, hs]
  simp only [generate, h₀, addParts_eq, calls, Part.call, Option.bind_eq_bind, Option.bind_some, hc,
    hx, Option.map_some]
  split
  case isTrue => exact ⟨_, _, rfl⟩
  case isFalse hf =>
    have hf : ¬page.Fails ans := hf
    have he : (strings (.closing page.root)).flatten = Xml.closing page.root := by
      simpa [Piece.bytes] using strings_flatten [Piece.closing page.root]
    obtain ⟨xml₁, h₁⟩ : ∃ xml₁, xml.strcats (strings <| .closing page.root) = some xml₁ := by
      refine CString.strcats_eq_some ?_
      rw [he, hb, List.length_append, List.length_append]
      rw [if_neg hf] at hl
      omega
    simp [Part.add, Part.call, h₁]

-- The length of a page: that of its header, of its tags and of the strings that it shows
def size (page : Page) (s : State) (ans : Answers) : Nat :=
  header.length + (page.root.length + 2) +
    sizes (page.enter s.toEnv ans) ans s.arr (page.parts ans) +
    if page.Fails ans then 0 else page.root.length + 3

theorem text_length
    (hc : calls (page.enter s.toEnv ans) ans s.arr (page.parts ans) = some (arr, qs)) :
    (page.text ans qs).length = page.size s ans := by
  rw [text, size, List.length_append, List.length_append, List.length_append,
    calls_sizes parts_static hc]
  split <;> simp [Xml.opening, Xml.closing]

theorem size_lt (h : page.lists = false) : page.size s ans < Wcl.xmlCap := by
  have hb := @body_bound page
  have hs : sizes (page.enter s.toEnv ans) ans s.arr page.body ≤ (page.body.map Part.bound).sum :=
    sizes_le body_static
  have hp : page.parts ans = page.body := by simp [parts, h]
  rw [size, hp]
  split <;> omega

end Page

theorem header_depth : Xml.depth header = 0 := by
  decide +kernel

-- A page that is left before its end has its outer element open.
theorem text_depth (hf : page.Fails ans)
    (hc : calls (page.enter s.toEnv ans) ans s.arr (page.parts ans) = some (arr, qs))
    (ht : Texts Clean qs) : Xml.depth (page.text ans qs) = 1 := by
  have hq := calls_sound Page.parts_static hc ht
  have hk : qs.foldlM Piece.track [] = some [] := by
    rw [← Piece.track_map_blank, calls_blank hc, Page.parts_track]
  have hh : header.getLast? ≠ some 60 := by decide +kernel
  rw [Page.text, if_pos hf, List.append_nil,
    Xml.depth_append (Xml.getLast_append hh Xml.opening_getLast), Xml.depth_append hh, header_depth,
    Xml.depth_opening Page.root_name, Piece.depth_flatMap hq hk]
  rfl

theorem text_document (hf : ¬page.Fails ans)
    (hc : calls (page.enter s.toEnv ans) ans s.arr (page.parts ans) = some (arr, qs))
    (ht : Texts Clean qs) : Document (page.text ans qs) := by
  have hk : qs.foldlM Piece.track [] = some [] := by
    rw [← Piece.track_map_blank, calls_blank hc, Page.parts_track]
  refine ⟨_, by simp [Page.text, hf], page.root, _, Page.root_name,
    .of_pieces (calls_sound Page.parts_static hc ht) hk, rfl⟩

theorem Document.depth_eq (h : Document l) : Xml.depth l = 0 := by
  have ⟨d, he, hd⟩ := h
  have hh : header.getLast? ≠ some 60 := by decide +kernel
  rw [he, Xml.depth_append hh, header_depth, hd.depth_eq]
  rfl

-- A page is as it should be exactly if the strings that it shows end in their arrays and contain no
-- markup, and a list of files comes to its end and is not too long.
theorem page_law : Law page s ans x ↔
    Shows Clean (page.enter s.toEnv ans) ans s.arr (page.parts ans) ∧
      (page.lists → ans.listing.res = 0 ∧ page.size s ans < Wcl.xmlCap) := by
  have hP (t : Bytes) (ht : Plain maxText t) : Clean t := ht.clean
  constructor
  case mp =>
    intro ⟨s₁, r, hg, hd, ht, hl⟩
    have ⟨arr, qs, hc, hr⟩ := Page.generate_spec hg
    have ht := hr.texts _ |>.mp ht
    refine ⟨shows_iff Page.parts_static hP |>.mpr ⟨arr, qs, hc, ht⟩, fun hp => ?_⟩
    have hf : ¬page.Fails ans := fun hf => by
      have h₁ := text_depth hf hc ht
      rw [← hr.bytes, hd.depth_eq] at h₁
      exact absurd h₁ (by decide)
    have hres : ans.listing.res = 0 := by
      have := ans.listing.last
      have : ¬ans.listing.res < 0 := fun h => hf ⟨hp, h⟩
      omega
    exact ⟨hres, Page.text_length hc ▸ hr.bytes ▸ s₁.xmlBuf.fits⟩
  case mpr =>
    intro ⟨hs, hp⟩
    have ⟨arr, qs, hc, ht⟩ := shows_iff Page.parts_static hP |>.mp hs
    have hf : ¬page.Fails ans := fun ⟨hl, hres⟩ => by
      have := (hp hl).1
      omega
    have hl : page.size s ans < Wcl.xmlCap := by
      cases h : page.lists with
      | false => exact Page.size_lt h
      | true => exact (hp h).2
    have ⟨s₁, r, hg, hr⟩ := Page.generate_total (x := x) hc <| Page.text_length hc ▸ hl
    refine ⟨s₁, r, hg, hr.bytes ▸ text_document hf hc ht, hr.texts _ |>.mpr ht, ?_⟩
    have := s₁.xmlBuf.fits
    have : Wcl.xmlCap < 2 ^ 16 := by decide
    rw [hr.len, if_neg hf, Nat.toUInt16_eq, UInt16.toNat_ofNat']
    omega

-- `XMLWapp` reads 64 bytes of a name into `lstr`.
theorem wapp_not_shows (hP : ∀ t, Plain maxText t → P t) :
    ¬Shows P env ans arr (Page.wapp.parts ans) := by
  intro h
  have hm : Part.stored (numbered "NAME" (0 : Fin 5)) .lstr eeWapp1Name 64 ∈
      Page.wapp.parts ans :=
    List.mem_append_left _ <| List.mem_flatMap.mpr ⟨0, List.mem_finRange 0, by simp⟩
  have ⟨arr₁, _, _, he, _⟩ := h.mem Page.parts_static hP hm
  have ⟨_, hw, _⟩ := Option.map_eq_some_iff.mp he
  have hf := Buffer.write_fits hw
  rw [Memory.read_length] at hf
  exact absurd hf (by decide)

-- A device with the given settings
def State.start (eeprom : Memory) : State where
  eeprom
  senzor _     := default
  temp _       := 0
  state _      := 0
  dinput _     := default
  delaySen _   := 0
  delayIn _    := 0
  macAddr      := .zero 6
  pins _       := false
  credit       := .zero 16
  status       := .zero 32
  creditActive := false
  clock        := ⟨0, 0, 0, 0, 0, 0, 0⟩
  totsect      := 0
  freesect     := 0
  arr _        := .zero _
  xmlBuf       := ⟨[], Wcl.nil_lt_xmlCap⟩
  xLen         := 0

-- `lfs_dir_read` fails with `LFS_ERR_IO` before the first entry.
def ioError : Answers where
  clock      := ⟨0, 0, 0, 1, 1, 23, 1⟩
  code       := .zero 8
  blockCount := 4096
  usedBlocks := 2
  listing    := ⟨[], -5, by decide⟩
  cnt        := 0

-- The error is returned as a length, and the document is left open.
theorem disk0_unclosed : ∃ c s r, Config.initParam false (.reset fun _ => 0xFF) = some c ∧
    Page.generate (.start c.eeprom) ioError .null .disk0 = some (s, r) ∧ r.len = 65531 ∧
    ¬Document s.xmlBuf.bytes := by
  have hd : (Config.initParam false (.reset fun _ => 0xFF)).any fun c =>
      (Page.generate (.start c.eeprom) ioError .null .disk0).any fun x =>
        x.2.len = 65531 ∧ Xml.depth x.1.xmlBuf.bytes = 1 := by
    decide +kernel
  obtain ⟨c, hc, hd⟩ := (Option.any_eq_true ..).mp hd
  obtain ⟨⟨s, r⟩, hg, hd⟩ := (Option.any_eq_true ..).mp hd
  obtain ⟨hl, hd⟩ := of_decide_eq_true hd
  exact ⟨c, s, r, hc, hg, hl, fun h => absurd (h.depth_eq.symm.trans hd) (by decide)⟩

end Pages
