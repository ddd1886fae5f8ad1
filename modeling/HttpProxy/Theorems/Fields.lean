import HttpProxy.Socket
import HttpProxy.Http
import Mathlib.Data.List.DropRight

/-! The functions of `utils.cpp` on any text: where they find a word, what `parse_field` cuts out of a header, and
    how it trims that. -/

namespace HttpProxy
open Search

/-! ### Letters -/

/-- What is not a letter is the lowered form of itself only. -/
theorem tolower_eq_iff {c d : Byte} (hd : Http.isAlpha d = false) : tolower c = d ↔ c = d := by
  have upper : ∀ {c : Byte}, 65 ≤ c ∧ c ≤ 90 → 97 ≤ c + 32 ∧ c + 32 ≤ 122 := by
    intro c h
    simp only [UInt8.le_iff_toNat_le, UInt8.toNat_add] at h ⊢
    simp only [UInt8.reduceToNat] at h ⊢
    omega
  have plain : ¬(65 ≤ d ∧ d ≤ 90) ∧ ¬(97 ≤ d ∧ d ≤ 122) := by
    rw [Http.isAlpha, tolower] at hd
    split at hd
    · rename_i h
      simp [upper h] at hd
    · rename_i h
      exact ⟨h, fun h' => by simp [h'] at hd⟩
  constructor
  · intro h
    rw [tolower] at h
    split at h
    · rename_i hc
      exact absurd (h ▸ upper hc) plain.2
    · exact h
  · rintro rfl
    exact if_neg plain.1

@[simp] theorem toLowercase_append (s t : Bytes) : toLowercase (s ++ t) = toLowercase s ++ toLowercase t :=
  List.map_append

@[simp] theorem length_toLowercase (s : Bytes) : (toLowercase s).length = s.length := List.length_map _

theorem toLowercase_cons (c : Byte) (s : Bytes) : toLowercase (c :: s) = tolower c :: toLowercase s := rfl

@[simp] theorem toLowercase_crlf : toLowercase crlf = crlf := by decide

@[simp] theorem toLowercase_colon : toLowercase [58] = [58] := by decide

theorem toLowercase_eq_nil_iff {s : Bytes} : toLowercase s = [] ↔ s = [] := List.map_eq_nil_iff

theorem cr_mem_toLowercase {s : Bytes} : 13 ∈ toLowercase s ↔ 13 ∈ s := by
  simp only [toLowercase, List.mem_map, tolower_eq_iff (d := 13) (by decide), exists_eq_right]

theorem lf_mem_toLowercase {s : Bytes} : 10 ∈ toLowercase s ↔ 10 ∈ s := by
  simp only [toLowercase, List.mem_map, tolower_eq_iff (d := 10) (by decide), exists_eq_right]

/-! ### The two searches -/

theorem startsWithBy_iff {needle : Bytes} : ∀ {l : Bytes},
    startsWithBy (fun ch1 ch2 => tolower ch1 == tolower ch2) needle l = true ↔
      toLowercase needle <+: toLowercase l := by
  induction needle with
  | nil => exact fun {l} => iff_of_true (by simp [startsWithBy]) List.nil_prefix
  | cons c needle ih =>
    intro l
    cases l with
    | nil => simp [startsWithBy, toLowercase]
    | cons d l =>
      rw [startsWithBy, Bool.and_eq_true, beq_iff_eq, ih, toLowercase_cons, toLowercase_cons, List.cons_prefix_cons,
        eq_comm]

/-- `std::search` under the predicate of `find_ci` finds what `find` finds in the lowered text. -/
theorem search_eq {needle : Bytes} (hn : needle ≠ []) : ∀ l : Bytes,
    search (fun ch1 ch2 => tolower ch1 == tolower ch2) needle l =
      (find? (toLowercase needle) (toLowercase l)).getD l.length
  | [] => by
    have hnone : (toLowercase needle).isEmpty = false := by
      rw [List.isEmpty_eq_false_iff]
      exact fun h => hn (toLowercase_eq_nil_iff.mp h)
    simp [search, toLowercase, find?] at hnone ⊢
    simp [hnone]
  | c :: l => by
    rw [search, toLowercase_cons]
    split
    · rename_i h
      rw [find?_cons_here (toLowercase_cons c l ▸ startsWithBy_iff.mp h)]
      rfl
    · rename_i h
      have later : ¬toLowercase needle <+: tolower c :: toLowercase l := fun h' => h (startsWithBy_iff.mpr h')
      rw [find?_cons_later later, search_eq hn l]
      cases find? (toLowercase needle) (toLowercase l) <;> rfl

/-- `find_ci` is true exactly when `find` finds the lowered word in the lowered text. -/
theorem findCi_iff {haystack needle : Bytes} (hn : needle ≠ []) :
    findCi haystack needle = true ↔ (find? (toLowercase needle) (toLowercase haystack)).isSome = true := by
  rw [findCi, search_eq hn, bne_iff_ne]
  cases h : find? (toLowercase needle) (toLowercase haystack) with
  | none => simp
  | some i =>
    have hle := find?_add_length_le h
    have hpos := List.length_pos_iff.mpr hn
    simp only [length_toLowercase] at hle
    simp only [Option.getD_some, Option.isSome_some, iff_true]
    omega

theorem findCi_iff_occurs {haystack needle : Bytes} (hn : needle ≠ []) :
    findCi haystack needle = true ↔ toLowercase needle <:+: toLowercase haystack :=
  (findCi_iff hn).trans find?_isSome_iff

/-! ### The text that is cut out -/

/-- What is cut out from a position up to the next line break. -/
def cutFrom (text : Bytes) (start : Nat) : Except Fault Bytes :=
  substr text start ((findFrom? crlf text start).map (· - start))

theorem cutField_found {header field : Bytes} {pos : Nat}
    (h : find? (toLowercase field) (toLowercase header) = some pos) :
    cutField header field = cutFrom (toLowercase header) (pos + field.length + 1) := by
  simp only [cutField, cutFrom, h, length_toLowercase]

theorem cutFrom_line {before text : Bytes} (ht : 13 ∉ text) (after : Bytes) :
    cutFrom (before ++ (text ++ (crlf ++ after))) before.length = .ok text := by
  have here : find? crlf (crlf ++ after) = some 0 := find?_cons_here ⟨after, rfl⟩
  rw [Http.crlf_eq] at here
  have stop : findFrom? crlf (before ++ (text ++ (crlf ++ after))) before.length =
      some (text.length + before.length) := by
    rw [findFrom?_append_length, Http.crlf_eq, find?_append_of_not_mem ht, here, Option.map_some, Option.map_some,
      Nat.zero_add]
  simp only [cutFrom, stop, substr, Option.map_some, List.length_append]
  rw [if_pos (by omega), List.drop_left, Nat.add_sub_cancel, List.take_left]

/-- A field that is found before a stretch of text without line breaks has that stretch, up to the next line
    break, for its text. -/
theorem cutField_of_line {header field before text after : Bytes} {pos : Nat}
    (h : toLowercase header = before ++ (text ++ (crlf ++ after)))
    (hpos : find? (toLowercase field) (toLowercase header) = some pos)
    (hstart : pos + field.length + 1 = before.length) (ht : 13 ∉ text) : cutField header field = .ok text := by
  rw [cutField_found hpos, hstart, h]
  exact cutFrom_line ht after

/-- A cut that ends at a line break. -/
theorem cutFrom_found {text : Bytes} {start stop : Nat} (h : findFrom? crlf text start = some stop) :
    start ≤ stop ∧ ∃ cut, cutFrom text start = .ok cut ∧ cut.length = stop - start ∧ ¬crlf <:+: cut := by
  obtain ⟨hle, ⟨hstop, -⟩, -⟩ := findFrom?_eq_some_iff.mp h
  refine ⟨hle, (text.drop start).take (stop - start), ?_, ?_, fun hin => ?_⟩
  · simp only [cutFrom, h, substr, Option.map_some]
    rw [if_pos (by omega)]
  · rw [List.length_take, List.length_drop]
    omega
  · -- A line break in the cut would have been found first.
    obtain ⟨i, hi⟩ := Option.isSome_iff_exists.mp (find?_isSome_iff.mpr hin)
    have hlen := find?_add_length_le hi
    have first := find?_append hi ((text.drop start).drop (stop - start))
    rw [List.take_append_drop] at first
    rw [findFrom?, if_pos (by omega), first, Option.map_some, Option.some.injEq] at h
    have hcrlf : crlf.length = 2 := rfl
    rw [List.length_take] at hlen
    omega

theorem cutFrom_append {text : Bytes} {start stop : Nat} (h : findFrom? crlf text start = some stop) (more : Bytes) :
    cutFrom (text ++ more) start = cutFrom text start := by
  obtain ⟨hle, ⟨hstop, -⟩, -⟩ := findFrom?_eq_some_iff.mp h
  have first : start ≤ text.length := by omega
  have whole : start ≤ (text ++ more).length := by
    rw [List.length_append]
    omega
  simp only [cutFrom, h, findFrom?_append h more, substr, Option.map_some]
  rw [if_pos first, if_pos whole, List.drop_append_of_le_length first, List.take_append_of_le_length]
  rw [List.length_drop]
  omega

/-- `parse_field` cuts its text out of the header: it starts inside it and ends at the first line break after
    that, which is there. -/
structure Extracts (header field : Bytes) (pos stop : Nat) (text : Bytes) : Prop where
  found : find? (toLowercase field) (toLowercase header) = some pos
  inside : pos + field.length + 1 ≤ header.length
  ended : findFrom? crlf (toLowercase header) (pos + field.length + 1) = some stop
  ordered : pos + field.length + 1 ≤ stop
  cut : cutField header field = .ok text
  length : text.length = stop - (pos + field.length + 1)
  oneLine : ¬crlf <:+: text

/-- A word without line breaks occurs in a header before the line breaks that end it. -/
theorem find?_lines_of_header {lines word : Bytes} (hne : word ≠ []) (hcr : 13 ∉ word) (hlf : 10 ∉ word) :
    find? word (lines ++ headerEnd) = find? word lines := by
  have none : find? word [10, 13, 10] = none := by
    rw [find?_eq_none_iff]
    intro h
    have letters : ∀ c ∈ ([10, 13, 10] : Bytes), c ∉ word := by
      intro c hc
      simp only [List.mem_cons, List.not_mem_nil, or_false] at hc
      rcases hc with rfl | rfl | rfl <;> assumption
    have alone := infix_append_right_iff (r := []) letters hne
    rw [List.append_nil, List.infix_nil] at alone
    exact hne (alone.mp h)
  have split : lines ++ headerEnd = lines ++ 13 :: [10, 13, 10] := rfl
  rw [split, find?_append_cons hcr hne, none, Option.map_none, Option.or_none]

/-- A word that is found in a header leaves room for one more byte and a line break. -/
theorem extracts_of_found {header field : Bytes} {pos : Nat} (hh : headerEnd <:+ header)
    (hf : field ≠ [] ∧ 13 ∉ field ∧ 10 ∉ field)
    (hpos : find? (toLowercase field) (toLowercase header) = some pos) :
    ∃ stop text, Extracts header field pos stop text := by
  obtain ⟨lines, rfl⟩ := hh
  have hlower : toLowercase (lines ++ headerEnd) = toLowercase lines ++ headerEnd := toLowercase_append _ _
  have inLines : pos + field.length ≤ lines.length := by
    rw [hlower, find?_lines_of_header (fun h => hf.1 (toLowercase_eq_nil_iff.mp h))
      (fun h => hf.2.1 (cr_mem_toLowercase.mp h)) fun h => hf.2.2 (lf_mem_toLowercase.mp h)] at hpos
    simpa using find?_add_length_le hpos
  have hlen : (toLowercase lines ++ headerEnd).length = lines.length + 4 := by simp [headerEnd, ascii]
  have last : crlf <:+: (toLowercase lines ++ headerEnd).drop (pos + field.length + 1) := by
    have rest : (toLowercase lines ++ headerEnd).drop (lines.length + 1) = [10, 13, 10] := by
      rw [List.drop_append, length_toLowercase, List.drop_eq_nil_of_le (by simp), Nat.add_sub_cancel_left]
      rfl
    have suffix := List.drop_suffix_drop_left (toLowercase lines ++ headerEnd) (Nat.succ_le_succ inLines)
    rw [rest] at suffix
    exact List.IsInfix.trans ⟨[10], [], rfl⟩ suffix.isInfix
  obtain ⟨i, hi⟩ := Option.isSome_iff_exists.mp (find?_isSome_iff.mpr last)
  have hstop : findFrom? crlf (toLowercase (lines ++ headerEnd)) (pos + field.length + 1) =
      some (i + (pos + field.length + 1)) := by
    rw [findFrom?, hlower, if_pos (by omega), hi, Option.map_some]
  obtain ⟨hle, text, hcut, htext, hline⟩ := cutFrom_found hstop
  have inside : pos + field.length + 1 ≤ (lines ++ headerEnd).length := by
    rw [← length_toLowercase (lines ++ headerEnd), hlower]
    omega
  exact ⟨_, text, hpos, inside, hstop, hle, (cutField_found hpos).trans hcut, htext, hline⟩

/-- The two searches accept the same words, and where they do the text of the field is cut out of the header. -/
theorem searches_agree (header field : Bytes) (hh : headerEnd <:+ header)
    (hf : field ≠ [] ∧ 13 ∉ field ∧ 10 ∉ field) :
    (findCi header field = true ↔ find? (toLowercase field) (toLowercase header) ≠ none) ∧
      (findCi header field = true → ∃ pos stop text, Extracts header field pos stop text) ∧
      (identifyBody header = .contentLength →
        ∃ pos stop text, Extracts header (ascii "content-length") pos stop text) := by
  have extracts : ∀ {word : Bytes}, word ≠ [] ∧ 13 ∉ word ∧ 10 ∉ word → findCi header word = true →
      ∃ pos stop text, Extracts header word pos stop text := by
    intro word hw hc
    obtain ⟨pos, hpos⟩ := Option.isSome_iff_exists.mp ((findCi_iff hw.1).mp hc)
    obtain ⟨stop, text, h⟩ := extracts_of_found hh hw hpos
    exact ⟨pos, stop, text, h⟩
  refine ⟨(findCi_iff hf.1).trans Option.isSome_iff_ne_none, extracts hf, fun hb => extracts (by decide) ?_⟩
  unfold identifyBody at hb
  split at hb
  · assumption
  · split at hb <;> cases hb

/-- A request header with a length. -/
def sampleHeader : Bytes := ascii "POST / HTTP/1.1\r\nHost: a\r\nContent-Length: 3\r\n\r\n"

theorem searches_agree_sample : (findCi sampleHeader (ascii "content-length") = true ↔
      find? (toLowercase (ascii "content-length")) (toLowercase sampleHeader) ≠ none) ∧
    ∃ pos stop text, Extracts sampleHeader (ascii "content-length") pos stop text := by
  have hh : headerEnd <:+ sampleHeader := by decide +kernel
  have agree := searches_agree sampleHeader (ascii "content-length") hh (by decide)
  exact ⟨agree.1, agree.2.1 (by decide +kernel)⟩

/-! ### Text behind the header -/

/-- What stands behind a header does not change the text of a field that is found in it. -/
theorem cutField_append (header field tail : Bytes) (hh : headerEnd <:+ header)
    (hf : field ≠ [] ∧ 13 ∉ field ∧ 10 ∉ field) (hin : toLowercase field <:+: toLowercase header) :
    cutField (header ++ tail) field = cutField header field := by
  obtain ⟨pos, hpos⟩ := Option.isSome_iff_exists.mp (find?_isSome_iff.mpr hin)
  obtain ⟨stop, text, ext⟩ := extracts_of_found hh hf hpos
  have found : find? (toLowercase field) (toLowercase (header ++ tail)) = some pos := by
    rw [toLowercase_append]
    exact find?_append hpos _
  rw [cutField_found found, cutField_found hpos, toLowercase_append]
  exact cutFrom_append ext.ended _

/-- A field that is not found in a header is taken from behind it when it is the first thing there. -/
theorem cutField_behind {header field text : Bytes} (hh : headerEnd <:+ header)
    (hf : field ≠ [] ∧ 13 ∉ field ∧ 10 ∉ field) (hin : ¬toLowercase field <:+: toLowercase header) (ht : 13 ∉ text) :
    cutField (header ++ (field ++ [58] ++ text ++ crlf)) field = .ok (toLowercase text) := by
  have hne : toLowercase field ≠ [] := fun h => hf.1 (toLowercase_eq_nil_iff.mp h)
  have hlf : 10 ∉ toLowercase field := fun h => hf.2.2 (lf_mem_toLowercase.mp h)
  -- No occurrence reaches over the line break that ends the header.
  obtain ⟨lines, hlines⟩ : ∃ lines, toLowercase header = lines ++ [10] := by
    obtain ⟨lines, rfl⟩ := hh
    refine ⟨toLowercase lines ++ [13, 10, 13], ?_⟩
    rw [toLowercase_append, List.append_assoc]
    rfl
  have hnone : find? (toLowercase field) lines = none :=
    find?_eq_none_iff.mpr fun h => hin (h.trans (hlines ▸ (List.prefix_append _ _).isInfix))
  have here : find? (toLowercase field) (toLowercase field ++ ([58] ++ toLowercase text ++ crlf)) = some 0 :=
    find?_eq_some_iff.mpr ⟨⟨Nat.zero_le _, List.prefix_append _ _⟩, fun _ hj => absurd hj (Nat.not_lt_zero _)⟩
  have hlower : toLowercase (header ++ (field ++ [58] ++ text ++ crlf)) =
      lines ++ 10 :: (toLowercase field ++ ([58] ++ toLowercase text ++ crlf)) := by
    rw [toLowercase_append, toLowercase_append, toLowercase_append, toLowercase_append, hlines, toLowercase_colon,
      toLowercase_crlf]
    simp
  have hpos : find? (toLowercase field) (toLowercase (header ++ (field ++ [58] ++ text ++ crlf))) =
      some (lines.length + 1) := by
    rw [hlower, find?_append_cons hlf hne, hnone, here, Option.none_or, Option.map_some, Nat.zero_add]
  have hcut : toLowercase (header ++ (field ++ [58] ++ text ++ crlf)) =
      lines ++ [10] ++ toLowercase field ++ [58] ++ (toLowercase text ++ (crlf ++ [])) := by
    rw [hlower]
    simp
  refine cutField_of_line hcut hpos ?_ fun h => ht (cr_mem_toLowercase.mp h)
  simp only [List.length_append, List.length_singleton, length_toLowercase]

/-- The host that is found for a request does not depend on what is buffered behind its header exactly when the
    word occurs in the header. -/
theorem routing_ignores_tail (header : Bytes) (hh : headerEnd <:+ header) :
    (∀ tail₁ tail₂, parseField (header ++ tail₁) (ascii "host") = parseField (header ++ tail₂) (ascii "host")) ↔
      ascii "host" <:+: toLowercase header := by
  have word : toLowercase (ascii "host") = ascii "host" := by decide
  constructor
  · intro same
    by_contra hin
    have behind : ∀ text, 13 ∉ text → cutField (header ++ (ascii "host" ++ [58] ++ text ++ crlf)) (ascii "host") =
        .ok (toLowercase text) := fun text ht => cutField_behind hh (by decide) (word.symm ▸ hin) ht
    have differ := same (ascii "host" ++ [58] ++ ascii "a" ++ crlf) (ascii "host" ++ [58] ++ ascii "b" ++ crlf)
    rw [parseField, parseField, behind (ascii "a") (by decide), behind (ascii "b") (by decide)] at differ
    exact absurd differ (by decide)
  · intro hin tail₁ tail₂
    have kept := fun tail => cutField_append header (ascii "host") tail hh (by decide) (word.symm ▸ hin)
    rw [parseField, parseField, kept tail₁, kept tail₂]

/-- A request without a host, in whose body there is one. -/
def hostless : Bytes := ascii "POST / HTTP/1.0\r\nContent-Length: 12\r\n\r\n"

theorem routing_ignores_tail_sample : ¬∀ tail₁ tail₂,
    parseField (hostless ++ tail₁) (ascii "host") = parseField (hostless ++ tail₂) (ascii "host") := by
  rw [routing_ignores_tail hostless (by decide +kernel), ← find?_isSome_iff]
  decide +kernel

theorem body_chooses_host : ¬∀ header tail₁ tail₂,
    (∃ n, find? headerEnd header = some n ∧ n + headerEnd.length = header.length) →
      parseField (header ++ tail₁) (ascii "host") = parseField (header ++ tail₂) (ascii "host") := by
  intro same
  have found : parseField (hostless ++ ascii "host:a.com\r\n") (ascii "host") = .ok (ascii "a.com") ∧
      parseField (hostless ++ ascii "host:b.com\r\n") (ascii "host") = .ok (ascii "b.com") := by decide +kernel
  have equal := same hostless (ascii "host:a.com\r\n") (ascii "host:b.com\r\n") (by decide +kernel)
  rw [found.1, found.2] at equal
  exact absurd equal (by decide)

/-! ### Trimming -/

/-- A text without the spaces around it. -/
def trimSpaces (v : Bytes) : Bytes := (v.dropWhile (· = 32)).rdropWhile (· = 32)

/-- Both erasures of `parse_field` get a range of the string that they are called on, and what they leave is the
    text without the spaces around it. -/
structure Trims (v : Bytes) : Prop where
  position : ∀ pos, find? (ascii " ") v = some pos → pos ≤ v.length
  range : ∀ first, find? (ascii " ") (eraseSpaces v) = some first →
    ∃ last, findFirstNotOf (eraseSpaces v) 32 = some last ∧ first ≤ last ∧ last ≤ (eraseSpaces v).length
  result : eraseSpaceRange (eraseSpaces v) = .ok (trimSpaces v)

theorem find?_space_eq_none_iff {v : Bytes} : find? (ascii " ") v = none ↔ 32 ∉ v := by
  rw [find?_eq_none_iff]
  exact not_congr (List.singleton_infix_iff 32 v)

/-- The position up to which a text is made of spaces. -/
theorem findFirstNotOf_eq {v : Bytes} : findFirstNotOf v 32 =
    if v.dropWhile (· = 32) = [] then none else some (v.takeWhile (· = 32)).length := by
  induction v with
  | nil => rfl
  | cons c v ih =>
    rw [findFirstNotOf] at ih ⊢
    rw [List.findIdx?_cons, ih]
    by_cases hc : c = 32
    · by_cases hv : v.dropWhile (· = 32) = [] <;> simp [hc, hv]
    · simp [hc]

/-- The first erasure takes the leading spaces, and nothing where there are none. -/
theorem eraseSpaces_eq (v : Bytes) : eraseSpaces v = v.dropWhile (· = 32) := by
  have split := List.takeWhile_append_dropWhile (p := (· = 32)) (l := v)
  unfold eraseSpaces
  rw [findFirstNotOf_eq]
  by_cases hlead : v.head? = some 32
  · obtain ⟨rest, rfl⟩ := List.head?_eq_some_iff.mp hlead
    have here : find? (ascii " ") (32 :: rest) = some 0 := find?_cons_here ⟨rest, rfl⟩
    rw [here]
    by_cases hall : (32 :: rest).dropWhile (· = 32) = []
    · simp only [hall, ↓reduceIte, List.take_zero]
    · simp only [hall, ↓reduceIte, List.take_zero, Nat.zero_add, List.nil_append]
      exact (congrArg (List.drop _) split).symm.trans List.drop_left
  · have hself : v.dropWhile (· = 32) = v ∧ v.takeWhile (· = 32) = [] := by
      cases v with
      | nil => exact ⟨rfl, rfl⟩
      | cons c v =>
        have hc : c ≠ 32 := fun h => hlead (by rw [h]; rfl)
        simp [hc]
    rw [hself.1, hself.2]
    split
    · split
      · rename_i count hcount
        have h0 : count = 0 := by
          split at hcount
          · cases hcount
          · exact (Option.some.inj hcount).symm
        rw [h0, Nat.add_zero, List.take_append_drop]
      · rename_i pos hpos hcount
        have hnil : v = [] := by
          by_contra hne
          rw [if_neg hne] at hcount
          cases hcount
        rw [hnil, List.take_nil]
    · rfl

/-- The second erasure has a range only where there is no space left: the first of them stands behind the first
    byte, which is not one. -/
theorem eraseSpaceRange_of_head {v : Bytes} (h : v.head? ≠ some 32) :
    eraseSpaceRange v = if 32 ∈ v then .error .undefined else .ok v := by
  unfold eraseSpaceRange
  split
  · rename_i first hfirst
    have hmem : 32 ∈ v := by
      by_contra hnot
      rw [find?_space_eq_none_iff.mpr hnot] at hfirst
      cases hfirst
    rw [if_pos hmem]
    obtain ⟨c, v, rfl⟩ := List.exists_cons_of_ne_nil (List.ne_nil_of_mem hmem)
    have hc : c ≠ 32 := fun he => h (by rw [he]; rfl)
    have later : ¬ascii " " <+: c :: v := fun hp => hc (List.cons_prefix_cons.mp hp).1.symm
    rw [find?_cons_later later] at hfirst
    obtain ⟨i, -, rfl⟩ := Option.map_eq_some_iff.mp hfirst
    have zero : findFirstNotOf (c :: v) 32 = some 0 := by simp [findFirstNotOf_eq, hc]
    rw [zero]
    simp
  · rename_i hnone
    rw [if_neg (find?_space_eq_none_iff.mp hnone)]

theorem head?_dropWhile_spaces (v : Bytes) : (v.dropWhile (· = 32)).head? ≠ some 32 := by
  intro h
  have hnot := List.head?_dropWhile_not (· = (32 : Byte)) v
  rw [h] at hnot
  simp at hnot

/-- The trimming is right exactly when no space stands behind another byte. -/
theorem trimming_correct (v : Bytes) : Trims v ↔ 32 ∉ v.dropWhile (· = 32) := by
  have range := eraseSpaceRange_of_head (head?_dropWhile_spaces v)
  constructor
  · intro trims hmem
    have result := trims.result
    rw [eraseSpaces_eq, range, if_pos hmem] at result
    cases result
  · intro hnot
    have hnone : find? (ascii " ") (eraseSpaces v) = none := by
      rw [eraseSpaces_eq]
      exact find?_space_eq_none_iff.mpr hnot
    refine ⟨fun pos hpos => ?_, fun first hfirst => ?_, ?_⟩
    · have := find?_add_length_le hpos
      omega
    · rw [hnone] at hfirst
      cases hfirst
    · rw [eraseSpaces_eq, range, if_neg hnot]
      refine congrArg Except.ok (List.rdropWhile_eq_self_iff.mpr fun hne hlast => ?_).symm
      have hmem := List.getLast_mem hne
      rw [of_decide_eq_true hlast] at hmem
      exact hnot hmem

theorem trimming_undefined : ¬∀ v : Bytes, 13 ∉ v ∧ 10 ∉ v → Trims v := by
  intro trims
  have result := (trims (ascii " a.com ") (by decide)).result
  rw [eraseSpaces_eq] at result
  exact absurd result (by decide +kernel)

end HttpProxy
