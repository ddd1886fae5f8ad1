import HttpProxy.Theorems.Fields

/-! Header sections: a start line, field lines and an empty line. `identify_body` and `parse_field` look for a word
    anywhere in the text of the section; here is when that comes to the same as reading its fields. -/

namespace HttpProxy
open Search

/-! ### Words in a section -/

/-- A word is written in the start line, in the name of a field or in its value, in any case. -/
def Mentions (word start : Bytes) (fields : List Http.Field) : Prop :=
  word <:+: toLowercase start ∨ ∃ f ∈ fields, word <:+: toLowercase f.name ∨ word <:+: toLowercase f.value

/-- A word that has no line break, no colon and no blank, and no capital. -/
structure IsWord (word : Bytes) : Prop where
  ne_nil : word ≠ []
  cr : 13 ∉ word
  lf : 10 ∉ word
  colon : 58 ∉ word
  blank : ∀ c ∈ word, Http.isBlank c = false

theorem isWord_contentLength : IsWord (ascii "content-length") := by
  constructor <;> decide +kernel

theorem isWord_chunked : IsWord (ascii "chunked") := by
  constructor <;> decide +kernel

theorem toLowercase_blanks {s : Bytes} (h : ∀ c ∈ s, Http.isBlank c = true) : toLowercase s = s := by
  have keep : ∀ c ∈ s, tolower c = c := by
    intro c hc
    have blank := h c hc
    simp only [Http.isBlank, Bool.or_eq_true, decide_eq_true_eq] at blank
    rcases blank with rfl | rfl <;> rfl
  exact (List.map_congr_left keep).trans (List.map_id s)

/-- A word occurs in the lines of a text when it occurs in one of them. -/
theorem infix_lines_iff {word : Bytes} (hne : word ≠ []) (hcr : 13 ∉ word) (hlf : 10 ∉ word) (rest : Bytes) :
    ∀ lines : List Bytes, word <:+: lines.flatMap (· ++ crlf) ++ rest ↔ (∃ l ∈ lines, word <:+: l) ∨ word <:+: rest
  | [] => by simp
  | l :: lines => by
    have hlines : (l :: lines).flatMap (· ++ crlf) ++ rest =
        l ++ 13 :: ([] ++ 10 :: (lines.flatMap (· ++ crlf) ++ rest)) := by
      simp [Http.crlf_eq]
    have hnil : ¬word <:+: [] := fun h => hne (List.infix_nil.mp h)
    rw [hlines, infix_append_cons_iff hcr hne, infix_append_cons_iff hlf hne, or_iff_right hnil,
      infix_lines_iff hne hcr hlf rest lines, List.exists_mem_cons_iff, or_assoc]

theorem toLowercase_lines (lines : List Bytes) :
    toLowercase (lines.flatMap (· ++ crlf)) = (lines.map toLowercase).flatMap (· ++ crlf) := by
  induction lines with
  | nil => rfl
  | cons l lines ih => rw [List.flatMap_cons, toLowercase_append, toLowercase_append, ih, toLowercase_crlf]; rfl

/-- The lines of a section, lowered. -/
def loweredLines (start : Bytes) (fields : List Http.Field) : List Bytes :=
  (start :: fields.map Http.Field.line).map toLowercase

theorem toLowercase_head (start : Bytes) (fields : List Http.Field) :
    toLowercase (Http.head start fields) = (loweredLines start fields).flatMap (· ++ crlf) ++ crlf := by
  rw [Http.head, toLowercase_append, toLowercase_lines, toLowercase_crlf]
  rfl

/-- The text of a field line behind the colon. -/
def Http.Field.text (f : Http.Field) : Bytes := f.before ++ f.value ++ f.after

theorem toLowercase_line (f : Http.Field) : toLowercase f.line = toLowercase f.name ++ 58 :: toLowercase f.text := by
  rw [Http.Field.line, Http.Field.text]
  simp only [toLowercase_append, toLowercase_colon]
  simp

/-- A word in a field line is in the name or in the value: the colon and the blanks separate them. -/
theorem infix_field_iff {word : Bytes} (h : IsWord word) (f : Http.Field) :
    word <:+: toLowercase f.line ↔ word <:+: toLowercase f.name ∨ word <:+: toLowercase f.value := by
  have before : ∀ c ∈ f.before, Http.isBlank c = true := fun c hc => f.blanks c (List.mem_append_left _ hc)
  have after : ∀ c ∈ f.after, Http.isBlank c = true := fun c hc => f.blanks c (List.mem_append_right _ hc)
  have apart : ∀ {s : Bytes}, (∀ c ∈ s, Http.isBlank c = true) → ∀ c ∈ s, c ∉ word := by
    intro s hs c hc hw
    exact absurd ((hs c hc).symm.trans (h.blank c hw)) Bool.true_eq_false.mp
  have text : toLowercase f.text = f.before ++ (toLowercase f.value ++ f.after) := by
    rw [Http.Field.text, toLowercase_append, toLowercase_append, toLowercase_blanks before, toLowercase_blanks after,
      List.append_assoc]
  rw [toLowercase_line, text, infix_append_cons_iff h.colon h.ne_nil, infix_append_right_iff (apart before) h.ne_nil,
    infix_append_left_iff (apart after) h.ne_nil]

/-- `find_ci` finds a word in a section exactly where the section mentions it. -/
theorem findCi_head_iff {word : Bytes} (start : Bytes) (fields : List Http.Field) (h : IsWord word)
    (hlow : toLowercase word = word) : findCi (Http.head start fields) word = true ↔ Mentions word start fields := by
  have hcrlf : ¬word <:+: crlf := by
    have apart := infix_append_cons_iff (l := []) (r := [10]) h.cr h.ne_nil
    have apart' := infix_append_cons_iff (l := []) (r := []) h.lf h.ne_nil
    have hnil : ¬word <:+: [] := fun hin => h.ne_nil (List.infix_nil.mp hin)
    exact fun hin => (apart.mp hin).elim hnil fun hin => (apart'.mp hin).elim hnil hnil
  rw [findCi_iff_occurs h.ne_nil, hlow, toLowercase_head, infix_lines_iff h.ne_nil h.cr h.lf, or_iff_left hcrlf,
    loweredLines, List.map_cons, List.exists_mem_cons_iff, Mentions]
  refine or_congr_right ?_
  simp only [List.mem_map, exists_exists_and_eq_and, infix_field_iff h]

/-! ### The class of a body -/

/-- A text without the blanks around it. -/
def trimBlanks (v : Bytes) : Bytes := (v.dropWhile Http.isBlank).rdropWhile Http.isBlank

/-- The codings that a value lists: what stands between the commas, without the blanks around it. Empty elements
    of the list do not count. -/
def codings (value : Bytes) : List Bytes := ((value.splitOn 44).map trimBlanks).filter (· ≠ [])

/-- A field says that the body is chunked: the last of its codings is the chunked one. -/
def HasChunked (fields : List Http.Field) : Prop :=
  ∃ f ∈ fields, toLowercase f.name = ascii "transfer-encoding" ∧
    (codings f.value).getLast?.map toLowercase = some (ascii "chunked")

/-- A field says how long the body is. -/
def HasLength (fields : List Http.Field) : Prop := ∃ f ∈ fields, toLowercase f.name = ascii "content-length"

/-- The class of the body is read off the fields of the section. -/
structure ClassifiedByFields (start : Bytes) (fields : List Http.Field) : Prop where
  chunked : identifyBody (Http.head start fields) = .chunked ↔ HasChunked fields
  contentLength : identifyBody (Http.head start fields) = .contentLength ↔ ¬HasChunked fields ∧ HasLength fields
  none : identifyBody (Http.head start fields) = .none ↔ ¬HasChunked fields ∧ ¬HasLength fields

/-- The two words are written nowhere that leads the search astray: a section with a chunked body has no
    content-length in it, and one with neither field has neither word. -/
def Unambiguous (start : Bytes) (fields : List Http.Field) : Prop :=
  (HasChunked fields → ¬Mentions (ascii "content-length") start fields) ∧
    (¬HasChunked fields → ¬HasLength fields →
      ¬Mentions (ascii "content-length") start fields ∧ ¬Mentions (ascii "chunked") start fields)

theorem infix_intercalate {s x : Bytes} : ∀ {parts : List Bytes}, x ∈ parts → x <:+: s.intercalate parts
  | [y], h => by
    rw [List.mem_singleton.mp h]
    simp
  | y :: z :: parts, h => by
    have rest : s.intercalate (y :: z :: parts) = y ++ (s ++ s.intercalate (z :: parts)) := by
      simp [List.intercalate]
    rw [rest]
    rcases List.mem_cons.mp h with rfl | h
    · exact (List.prefix_append _ _).isInfix
    · exact (infix_intercalate h).trans ((List.suffix_append _ _).trans (List.suffix_append _ _)).isInfix

theorem infix_of_mem_splitOn {v x : Bytes} {sep : Byte} (h : x ∈ v.splitOn sep) : x <:+: v := by
  have joined := infix_intercalate (s := [sep]) h
  rwa [List.intercalate_splitOn] at joined

theorem infix_of_mem_codings {value coding : Bytes} (h : coding ∈ codings value) : coding <:+: value := by
  obtain ⟨h, -⟩ := List.mem_filter.mp h
  obtain ⟨part, hpart, rfl⟩ := List.mem_map.mp h
  have trimmed : trimBlanks part <:+: part :=
    (List.rdropWhile_prefix _ _).isInfix.trans (List.dropWhile_suffix _).isInfix
  exact trimmed.trans (infix_of_mem_splitOn hpart)

theorem HasLength.mentions {fields : List Http.Field} (h : HasLength fields) (start : Bytes) :
    Mentions (ascii "content-length") start fields := by
  obtain ⟨f, hf, hname⟩ := h
  exact Or.inr ⟨f, hf, Or.inl (hname ▸ List.infix_rfl)⟩

theorem HasChunked.mentions {fields : List Http.Field} (h : HasChunked fields) (start : Bytes) :
    Mentions (ascii "chunked") start fields := by
  obtain ⟨f, hf, -, hlast⟩ := h
  obtain ⟨coding, hcoding, hlower⟩ := Option.map_eq_some_iff.mp hlast
  refine Or.inr ⟨f, hf, Or.inr ?_⟩
  rw [← hlower]
  exact (infix_of_mem_codings (List.mem_of_getLast? hcoding)).map tolower

/-- What `identify_body` makes of a section depends on the words that it mentions. -/
theorem identifyBody_head (start : Bytes) (fields : List Http.Field) :
    (Mentions (ascii "content-length") start fields → identifyBody (Http.head start fields) = .contentLength) ∧
    (¬Mentions (ascii "content-length") start fields → Mentions (ascii "chunked") start fields →
      identifyBody (Http.head start fields) = .chunked) ∧
    (¬Mentions (ascii "content-length") start fields → ¬Mentions (ascii "chunked") start fields →
      identifyBody (Http.head start fields) = .none) := by
  have length := not_congr (findCi_head_iff start fields isWord_contentLength (by decide))
  have chunked := not_congr (findCi_head_iff start fields isWord_chunked (by decide))
  refine ⟨fun hl => ?_, fun hl hc => ?_, fun hl hc => ?_⟩
  · exact if_pos (not_not.mp fun h => length.mp h hl)
  · exact (if_neg (length.mpr hl)).trans (if_pos (not_not.mp fun h => chunked.mp h hc))
  · exact (if_neg (length.mpr hl)).trans (if_neg (chunked.mpr hc))

theorem ClassifiedByFields.of_eq {start : Bytes} {fields : List Http.Field} {body : Body}
    (h : identifyBody (Http.head start fields) = body) (hc : body = .chunked ↔ HasChunked fields)
    (hl : body = .contentLength ↔ ¬HasChunked fields ∧ HasLength fields) : ClassifiedByFields start fields where
  chunked := h ▸ hc
  contentLength := h ▸ hl
  none := by
    rw [h]
    cases body <;> simp at hc hl <;> simp [*]

/-- `identify_body` reads the fields of a section exactly where nothing else leads it astray. -/
theorem classified_by_fields (start : Bytes) (fields : List Http.Field) :
    ClassifiedByFields start fields ↔ Unambiguous start fields := by
  obtain ⟨long, chunky, plain⟩ := identifyBody_head start fields
  constructor
  · intro h
    refine ⟨fun hc hm => ?_, fun hc hl => ?_⟩
    · have class_eq := h.chunked.mpr hc
      rw [long hm] at class_eq
      cases class_eq
    · have class_eq := h.none.mpr ⟨hc, hl⟩
      have noLength : ¬Mentions (ascii "content-length") start fields := by
        intro hm
        rw [long hm] at class_eq
        cases class_eq
      refine ⟨noLength, fun hm => ?_⟩
      rw [chunky noLength hm] at class_eq
      cases class_eq
  · intro h
    by_cases hc : HasChunked fields
    · exact .of_eq (chunky (h.1 hc) (hc.mentions start)) (by simp [hc]) (by simp [hc])
    · by_cases hl : HasLength fields
      · exact .of_eq (long (hl.mentions start)) (by simp [hc]) (by simp [hc, hl])
      · obtain ⟨noLength, noChunked⟩ := h.2 hc hl
        exact .of_eq (plain noLength noChunked) (by simp [hc]) (by simp [hl])

/-- A request without a body whose target has the word in it. -/
def chunkedTarget : Bytes := ascii "GET /chunked HTTP/1.1"

def hostField : Http.Field := .plain (ascii "Host") (ascii "a.com") (by decide +kernel)

theorem target_misread : ¬∀ start fields, ClassifiedByFields start fields := by
  intro classified
  obtain ⟨f, hf, hname, -⟩ := (classified chunkedTarget [hostField]).chunked.mp (by decide +kernel)
  rw [List.mem_singleton.mp hf] at hname
  exact absurd hname (by decide)

/-! ### The line that a lookup picks -/

/-- The first of some lowered lines that contains a word leaves `text` behind the word and one more byte; there
    is nothing to ask where no line contains it. -/
def Leaves (word text : Bytes) (lines : List Bytes) : Prop :=
  ∀ line, lines.find? (fun l => (find? word l).isSome) = some line →
    ∃ i, find? word line = some i ∧ i + word.length < line.length ∧ line.drop (i + word.length + 1) = text

/-- Lines without the word are skipped. -/
theorem find?_skip_lines {word : Bytes} (hne : word ≠ []) (hcr : 13 ∉ word) (hlf : 10 ∉ word) (rest : Bytes) :
    ∀ lines : List Bytes, (∀ l ∈ lines, find? word l = none) →
      find? word (lines.flatMap (· ++ crlf) ++ rest) =
        (find? word rest).map (· + (lines.flatMap (· ++ crlf)).length)
  | [], _ => by simp
  | l :: lines, h => by
    have hlines : (l :: lines).flatMap (· ++ crlf) ++ rest =
        l ++ 13 :: ([] ++ 10 :: (lines.flatMap (· ++ crlf) ++ rest)) := by
      simp [Http.crlf_eq]
    have hnil : find? word [] = none := find?_eq_none_iff.mpr fun h => hne (List.infix_nil.mp h)
    rw [hlines, find?_append_cons hcr hne, find?_append_cons hlf hne, h l List.mem_cons_self, hnil, Option.none_or,
      Option.none_or, find?_skip_lines hne hcr hlf rest lines fun x hx => h x (List.mem_cons_of_mem _ hx),
      Option.map_map, Option.map_map]
    refine congrArg (fun f => Option.map f _) (funext fun i => ?_)
    simp only [Function.comp_apply, List.flatMap_cons, List.length_append, Http.crlf_eq, List.length_cons,
      List.length_nil]
    omega

/-- A word in a line is found there when the lines before it do not have it. -/
theorem find?_in_line {word line : Bytes} {before : List Bytes} {i : Nat} (hne : word ≠ []) (hcr : 13 ∉ word)
    (hlf : 10 ∉ word) (hb : ∀ l ∈ before, find? word l = none) (hi : find? word line = some i) (rest : Bytes) :
    find? word (before.flatMap (· ++ crlf) ++ (line ++ crlf ++ rest)) =
      some (i + (before.flatMap (· ++ crlf)).length) := by
  rw [find?_skip_lines hne hcr hlf _ before hb, List.append_assoc, find?_append hi, Option.map_some]

/-- A cut that starts inside a line ends with it. -/
theorem cutFrom_in_line {before line : Bytes} {n : Nat} (hcr : 13 ∉ line) (hn : n ≤ line.length) (after : Bytes) :
    cutFrom (before ++ (line ++ crlf ++ after)) (before.length + n) = .ok (line.drop n) := by
  have split : before ++ (line ++ crlf ++ after) = before ++ line.take n ++ (line.drop n ++ (crlf ++ after)) := by
    rw [List.append_assoc, List.append_assoc, ← List.append_assoc (line.take n), List.take_append_drop]
  have start : before.length + n = (before ++ line.take n).length := by
    rw [List.length_append, List.length_take, Nat.min_eq_left hn]
  rw [split, start]
  exact cutFrom_line (fun h => hcr (List.mem_of_mem_drop h)) after

/-- A cut that starts between the two bytes of a line break starts with the second. -/
theorem cutFrom_at_break {before line text after : Bytes}
    (h : cutFrom (before ++ (line ++ crlf ++ after)) (before.length + (line.length + 1)) = .ok text) : 10 ∈ text := by
  have split : before ++ (line ++ crlf ++ after) = before ++ line ++ [13] ++ 10 :: after := by simp [Http.crlf_eq]
  have start : before.length + (line.length + 1) = (before ++ line ++ [13]).length := by
    simp only [List.length_append, List.length_singleton]
    omega
  have later : ¬crlf <+: 10 :: after := fun hp => absurd (List.cons_prefix_cons.mp hp).1 (by decide)
  rw [split, start, cutFrom, findFrom?_append_length, find?_cons_later later] at h
  have inside : (before ++ line ++ [13]).length ≤ (before ++ line ++ [13] ++ 10 :: after).length :=
    (List.prefix_append _ _).length_le
  unfold substr at h
  rw [if_pos inside] at h
  rw [← Except.ok.inj h, List.drop_left]
  cases find? crlf after with
  | none => exact List.mem_cons_self
  | some n =>
    simp only [Option.map_some, Nat.add_sub_cancel, List.take_succ_cons]
    exact List.mem_cons_self

/-! ### Lookups -/

theorem lf_not_mem_text (f : Http.Field) : 10 ∉ toLowercase f.text := by
  intro h
  have text := lf_mem_toLowercase.mp h
  simp only [Http.Field.text, List.append_assoc, List.mem_append] at text
  rcases text with h | h | h
  · exact absurd (f.blanks 10 (List.mem_append_left _ h)) (by decide)
  · exact absurd (f.value_text 10 h) (by decide)
  · exact absurd (f.blanks 10 (List.mem_append_right _ h)) (by decide)

theorem lf_not_mem_name (f : Http.Field) : 10 ∉ toLowercase f.name := fun h =>
  absurd (f.name_token.2 10 (lf_mem_toLowercase.mp h)) (by decide)

theorem cr_not_mem_line (f : Http.Field) : 13 ∉ toLowercase f.line := fun h => f.line_plain.2 (cr_mem_toLowercase.mp h)

/-- The text that is cut out when the first of the lines that has the field is known. -/
theorem cutField_in_line {header field line rest : Bytes} {before : List Bytes} {i : Nat}
    (h : toLowercase header = before.flatMap (· ++ crlf) ++ (line ++ crlf ++ rest))
    (hne : toLowercase field ≠ []) (hcr : 13 ∉ toLowercase field) (hlf : 10 ∉ toLowercase field) (hline : 13 ∉ line)
    (hb : ∀ l ∈ before, find? (toLowercase field) l = none) (hi : find? (toLowercase field) line = some i) :
    (i + field.length < line.length → cutField header field = .ok (line.drop (i + field.length + 1))) ∧
      (i + field.length = line.length → ∀ text, cutField header field = .ok text → 10 ∈ text) := by
  have hpos : find? (toLowercase field) (toLowercase header) = some (i + (before.flatMap (· ++ crlf)).length) := by
    rw [h]
    exact find?_in_line hne hcr hlf hb hi rest
  have start : i + (before.flatMap (· ++ crlf)).length + field.length + 1 =
      (before.flatMap (· ++ crlf)).length + (i + field.length + 1) := by omega
  rw [cutField_found hpos, start, h]
  refine ⟨fun hlt => cutFrom_in_line hline hlt rest, fun heq text htext => ?_⟩
  rw [heq] at htext
  exact cutFrom_at_break htext

theorem toLowercase_head_append (start : Bytes) (earlier later : List Http.Field) (f : Http.Field) :
    toLowercase (Http.head start (earlier ++ f :: later)) = (loweredLines start earlier).flatMap (· ++ crlf) ++
      (toLowercase f.line ++ crlf ++ ((later.map fun g => toLowercase g.line).flatMap (· ++ crlf) ++ crlf)) := by
  rw [toLowercase_head, loweredLines, loweredLines]
  simp [List.flatMap_append, Function.comp_def]

theorem cr_not_mem_loweredLines {start : Bytes} (fields : List Http.Field) (hs : 13 ∉ start) :
    ∀ line ∈ loweredLines start fields, 13 ∉ line := by
  intro line hline
  rcases List.mem_cons.mp hline with rfl | hline
  · exact fun h => hs (cr_mem_toLowercase.mp h)
  · obtain ⟨l, hl, rfl⟩ := List.mem_map.mp hline
    obtain ⟨f, -, rfl⟩ := List.mem_map.mp hl
    exact cr_not_mem_line f

section Lookup
variable {start field : Bytes} {earlier later : List Http.Field} {f : Http.Field}

/-- The name of a field, written in any case, has no line break. -/
theorem name_plain (hname : toLowercase f.name = toLowercase field) :
    toLowercase field ≠ [] ∧ 13 ∉ toLowercase field ∧ 10 ∉ toLowercase field := by
  refine ⟨?_, ?_, hname ▸ lf_not_mem_name f⟩ <;> rw [← hname]
  · exact fun h => f.name_token.1 (toLowercase_eq_nil_iff.mp h)
  · rw [cr_mem_toLowercase]
    exact fun h => Http.cr_not_token (f.name_token.2 13 h) rfl

/-- Where no line before it has its name, the text of a field is cut out. -/
theorem cutField_own_line (later : List Http.Field) (hname : toLowercase f.name = toLowercase field)
    (clear : ∀ l ∈ loweredLines start earlier, find? (toLowercase field) l = none) :
    cutField (Http.head start (earlier ++ f :: later)) field = .ok (toLowercase f.text) := by
  obtain ⟨hne, hcr, hlf⟩ := name_plain hname
  have line := toLowercase_line f
  rw [hname] at line
  have here : find? (toLowercase field) (toLowercase f.line) = some 0 := by
    rw [line]
    exact find?_eq_some_iff.mpr ⟨⟨Nat.zero_le _, List.prefix_append _ _⟩, fun _ hj => absurd hj (Nat.not_lt_zero _)⟩
  have inside := (cutField_in_line (toLowercase_head_append start earlier later f) hne hcr hlf (cr_not_mem_line f)
    clear here).1
  have drop : (toLowercase f.line).drop (0 + field.length + 1) = toLowercase f.text := by
    have hlen : 0 + field.length + 1 = (toLowercase field ++ [58]).length := by simp
    have colon : toLowercase f.line = toLowercase field ++ [58] ++ toLowercase f.text := by rw [line]; simp
    rw [hlen, colon, List.drop_left]
  rw [drop] at inside
  refine inside ?_
  rw [line]
  simp

/-- Where a line before it has its name, the text of a field is cut out if that line leaves it. -/
theorem cutField_other_line (later : List Http.Field) {before after : List Bytes} {line : Bytes} {i : Nat}
    (hs : 13 ∉ start) (hname : toLowercase f.name = toLowercase field)
    (hlines : loweredLines start earlier = before ++ line :: after)
    (clear : ∀ l ∈ before, find? (toLowercase field) l = none) (hi : find? (toLowercase field) line = some i) :
    cutField (Http.head start (earlier ++ f :: later)) field = .ok (toLowercase f.text) ↔
      i + field.length < line.length ∧ line.drop (i + field.length + 1) = toLowercase f.text := by
  obtain ⟨hne, hcr, hlf⟩ := name_plain hname
  have split : toLowercase (Http.head start (earlier ++ f :: later)) = before.flatMap (· ++ crlf) ++
      (line ++ crlf ++ (after.flatMap (· ++ crlf) ++ (toLowercase f.line ++ crlf ++
        ((later.map fun g => toLowercase g.line).flatMap (· ++ crlf) ++ crlf)))) := by
    rw [toLowercase_head_append, hlines]
    simp [List.flatMap_append]
  have hline := cr_not_mem_loweredLines earlier hs line (by rw [hlines]; simp)
  obtain ⟨inside, atBreak⟩ := cutField_in_line split hne hcr hlf hline clear hi
  have hle := find?_add_length_le hi
  rw [length_toLowercase] at hle
  rcases Nat.lt_or_eq_of_le hle with hlt | heq
  · rw [inside hlt, Except.ok.injEq, and_iff_right hlt]
  · -- The cut starts between the bytes of the line break, and a text has none of them.
    refine iff_of_false (fun hcut => ?_) fun h => by omega
    exact lf_not_mem_text f (atBreak heq _ hcut)

end Lookup

/-- `parse_field` cuts out the text of a field, the first of its name, exactly when no line before it has the name
    in it, or the first that has leaves the same text. -/
theorem lookup_picks_line (start : Bytes) (earlier later : List Http.Field) (f : Http.Field) (field : Bytes)
    (hs : 13 ∉ start) (hname : toLowercase f.name = toLowercase field) :
    cutField (Http.head start (earlier ++ f :: later)) field = .ok (toLowercase f.text) ↔
      Leaves (toLowercase field) (toLowercase f.text) (loweredLines start earlier) := by
  cases hshadow : (loweredLines start earlier).find? (fun l => (find? (toLowercase field) l).isSome) with
  | none =>
    have clear : ∀ l ∈ loweredLines start earlier, find? (toLowercase field) l = none := fun l hl => by
      simpa using List.find?_eq_none.mp hshadow l hl
    exact iff_of_true (cutField_own_line later hname clear) fun line hline =>
      absurd (hshadow.symm.trans hline) (Option.some_ne_none line).symm
  | some line =>
    obtain ⟨hfound, before, after, hlines, hbefore⟩ := List.find?_eq_some_iff_append.mp hshadow
    obtain ⟨i, hi⟩ := Option.isSome_iff_exists.mp hfound
    have clear : ∀ l ∈ before, find? (toLowercase field) l = none := fun l hl => by simpa using hbefore l hl
    rw [cutField_other_line later hs hname hlines clear hi]
    constructor
    · rintro ⟨hlt, hdrop⟩ line' hline'
      cases hshadow.symm.trans hline'
      rw [length_toLowercase]
      exact ⟨i, hi, hlt, hdrop⟩
    · intro leaves
      obtain ⟨j, hj, hlt, hdrop⟩ := leaves line hshadow
      cases hi.symm.trans hj
      rw [length_toLowercase] at hlt hdrop
      exact ⟨hlt, hdrop⟩

theorem lookup_picks_line_sample :
    cutField (Http.head (ascii "GET http://a.com/ HTTP/1.1") ([] ++ hostField :: [])) (ascii "host") =
      .ok (toLowercase hostField.text) := by
  have unnamed : (loweredLines (ascii "GET http://a.com/ HTTP/1.1") []).find?
      (fun l => (find? (toLowercase (ascii "host")) l).isSome) = none := by decide +kernel
  refine (lookup_picks_line _ [] [] hostField (ascii "host") (by decide) (by decide)).mpr fun line hline => ?_
  cases unnamed.symm.trans hline

/-- The name of the field in the target of the request. -/
def hostTarget : Bytes := ascii "GET http://host.com/ HTTP/1.1"

theorem lookup_misled : ¬∀ (start : Bytes) (earlier later : List Http.Field) (f : Http.Field) (field : Bytes),
    13 ∉ start → 10 ∉ start → toLowercase f.name = toLowercase field →
      (∀ g ∈ earlier, toLowercase g.name ≠ toLowercase field) →
        cutField (Http.head start (earlier ++ f :: later)) field = .ok (toLowercase f.text) := by
  intro picks
  have cut : cutField (Http.head hostTarget [hostField]) (ascii "host") = .ok (ascii "com/ http/1.1") := by
    decide +kernel
  have claimed := picks hostTarget [] [] hostField (ascii "host") (by decide) (by decide) (by decide) nofun
  rw [List.nil_append, cut] at claimed
  exact absurd claimed (by decide)

end HttpProxy
