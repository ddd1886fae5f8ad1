import HttpProxy.Theorems.Exchange
import HttpProxy.Theorems.Sections

/-! Clear messages. What `parse_field` and the version check read of a message that is written out as HTTP says, and
    when a session reads all of it as it is meant. -/

namespace HttpProxy
open Search

theorem headerEnd_suffix_head {start : Bytes} (hs : start ≠ [] ∧ 13 ∉ start) (fields : List Http.Field) :
    headerEnd <:+ Http.head start fields := by
  obtain ⟨n, hn, hlen⟩ := Http.find?_head hs fields []
  rw [List.append_nil] at hn
  have last : headerEnd <+: (Http.head start fields).drop n := prefix_drop_of_find? hn
  have whole : headerEnd = (Http.head start fields).drop n := by
    refine last.eq_of_length ?_
    rw [List.length_drop]
    have : headerEnd.length = 4 := rfl
    omega
  rw [whole]
  exact List.drop_suffix _ _

/-! ### Fields that are read back -/

section Lookup
variable {start field : Bytes} {earlier : List Http.Field} {f : Http.Field}

/-- What the first erasure leaves of blanks, a value and blanks. -/
theorem dropWhile_field {before value : Bytes} (hv : value ≠ []) (head : ∀ c ∈ value.head?, Http.isBlank c = false)
    (after : Bytes) :
    (before ++ (value ++ after)).dropWhile (· = 32) = before.dropWhile (· = 32) ++ (value ++ after) := by
  induction before with
  | nil =>
    obtain ⟨c, rest, rfl⟩ := List.exists_cons_of_ne_nil hv
    have hc : c ≠ 32 := by
      rintro rfl
      exact absurd (head 32 rfl) (by decide)
    simp [hc]
  | cons c before ih =>
    by_cases hc : c = 32
    · simpa [hc] using ih
    · simp [hc]

/-- A value that begins with no blank is read back exactly when there are only spaces before it, none in it, and nothing
    behind it. -/
theorem trim_field {before value after : Bytes} (hv : value ≠ []) (head : ∀ c ∈ value.head?, Http.isBlank c = false) :
    eraseSpaceRange (eraseSpaces (before ++ (value ++ after))) = .ok value ↔
      (∀ c ∈ before, c = 32) ∧ after = [] ∧ 32 ∉ value := by
  have spaces : before.dropWhile (· = 32) = [] ↔ ∀ c ∈ before, c = 32 :=
    List.dropWhile_eq_nil_iff.trans (forall₂_congr fun c _ => decide_eq_true_iff)
  rw [eraseSpaces_eq, eraseSpaceRange_of_head (head?_dropWhile_spaces _), dropWhile_field hv head, ← spaces]
  constructor
  · intro h
    split at h
    · cases h
    · rename_i hspace
      have whole := congrArg List.length (Except.ok.inj h)
      simp only [List.length_append] at whole
      have lead : before.dropWhile (· = 32) = [] := List.eq_nil_of_length_eq_zero (by omega)
      have rest : after = [] := List.eq_nil_of_length_eq_zero (by omega)
      exact ⟨lead, rest, fun hmem => hspace (List.mem_append_right _ (List.mem_append_left _ hmem))⟩
  · rintro ⟨lead, rfl, hspace⟩
    rw [lead, List.nil_append, List.append_nil, if_neg hspace]

theorem isBlank_tolower (c : Byte) : Http.isBlank (tolower c) = Http.isBlank c := by
  simp only [Http.isBlank, tolower_eq_iff (d := 32) (by decide), tolower_eq_iff (d := 9) (by decide)]

theorem mem_toLowercase_space {s : Bytes} : 32 ∈ toLowercase s ↔ 32 ∈ s := by
  simp only [toLowercase, List.mem_map, tolower_eq_iff (d := 32) (by decide), exists_eq_right]

/-- What `parse_field` trims is the text of the field, when no line before it has the name in it. -/
theorem parseField_own_line (hs : start ≠ [] ∧ 13 ∉ start) (later : List Http.Field) (tail : Bytes)
    (hname : toLowercase f.name = toLowercase field)
    (clear : ∀ l ∈ loweredLines start earlier, find? (toLowercase field) l = none) :
    parseField (Http.head start (earlier ++ f :: later) ++ tail) field =
      eraseSpaceRange (eraseSpaces (f.before ++ (toLowercase f.value ++ f.after))) := by
  obtain ⟨hne, hcr, hlf⟩ := name_plain hname
  have word : field ≠ [] ∧ 13 ∉ field ∧ 10 ∉ field :=
    ⟨fun h => hne (toLowercase_eq_nil_iff.mpr h), fun h => hcr (cr_mem_toLowercase.mpr h),
      fun h => hlf (lf_mem_toLowercase.mpr h)⟩
  have inside : toLowercase field <:+: toLowercase (Http.head start (earlier ++ f :: later)) := by
    rw [toLowercase_head_append, toLowercase_line, hname]
    simp only [List.append_assoc]
    exact (List.prefix_append _ _).isInfix.trans (List.suffix_append _ _).isInfix
  have before : ∀ c ∈ f.before, Http.isBlank c = true := fun c hc => f.blanks c (List.mem_append_left _ hc)
  have after : ∀ c ∈ f.after, Http.isBlank c = true := fun c hc => f.blanks c (List.mem_append_right _ hc)
  have text : toLowercase f.text = f.before ++ (toLowercase f.value ++ f.after) := by
    rw [Http.Field.text, toLowercase_append, toLowercase_append, toLowercase_blanks before, toLowercase_blanks after,
      List.append_assoc]
  have cut : cutField (Http.head start (earlier ++ f :: later) ++ tail) field =
      .ok (f.before ++ (toLowercase f.value ++ f.after)) := by
    rw [cutField_append _ _ _ (headerEnd_suffix_head hs _) word inside, cutField_own_line later hname clear, text]
  rw [parseField, cut]
  rfl

theorem head_toLowercase_value (f : Http.Field) : ∀ c ∈ (toLowercase f.value).head?, Http.isBlank c = false := by
  intro c hc
  rw [toLowercase, List.head?_map] at hc
  obtain ⟨d, hd, rfl⟩ := Option.map_eq_some_iff.mp hc
  rw [isBlank_tolower]
  exact f.trimmed.1 d hd

theorem trim_value (hv : f.value ≠ []) :
    eraseSpaceRange (eraseSpaces (f.before ++ (toLowercase f.value ++ f.after))) = .ok (toLowercase f.value) ↔
      (∀ c ∈ f.before, c = 32) ∧ f.after = [] ∧ 32 ∉ f.value := by
  rw [trim_field (fun h => hv (toLowercase_eq_nil_iff.mp h)) (head_toLowercase_value f), mem_toLowercase_space]

/-- What `parse_field` makes of a field whose value is not empty, when no line before it has the name in it, whatever
    comes after it: the value is read back, in lower case, exactly when there are only spaces before it, none in it, and
    nothing behind it; the outcome is undefined exactly when a space stands behind a byte that is not a space; there is
    no other fault. -/
theorem field_read_back (hs : start ≠ [] ∧ 13 ∉ start) (later : List Http.Field) (tail : Bytes)
    (hname : toLowercase f.name = toLowercase field)
    (clear : ∀ l ∈ loweredLines start earlier, find? (toLowercase field) l = none) (hv : f.value ≠ []) :
    (parseField (Http.head start (earlier ++ f :: later) ++ tail) field = .ok (toLowercase f.value) ↔
      (∀ c ∈ f.before, c = 32) ∧ f.after = [] ∧ 32 ∉ f.value) ∧
    (parseField (Http.head start (earlier ++ f :: later) ++ tail) field = .error .undefined ↔
      32 ∈ f.before.dropWhile (· = 32) ∨ 32 ∈ f.value ∨ 32 ∈ f.after) ∧
    ∀ fault, parseField (Http.head start (earlier ++ f :: later) ++ tail) field = .error fault →
      fault = .undefined := by
  rw [parseField_own_line hs later tail hname clear]
  refine ⟨trim_value hv, ?_⟩
  rw [eraseSpaces_eq, eraseSpaceRange_of_head (head?_dropWhile_spaces _),
    dropWhile_field (fun h => hv (toLowercase_eq_nil_iff.mp h)) (head_toLowercase_value f)]
  simp only [List.mem_append, mem_toLowercase_space]
  split
  · rename_i hspace
    exact ⟨iff_of_true rfl hspace, fun fault h => (Except.error.inj h).symm⟩
  · rename_i hspace
    exact ⟨iff_of_false (fun h => by cases h) hspace, fun fault h => by cases h⟩

theorem field_read_back_sample :
    parseField (Http.head (ascii "GET / HTTP/1.1") ([] ++ hostField :: []) ++ ascii "abc") (ascii "host") =
      .ok (toLowercase hostField.value) := by
  have clear : ∀ l ∈ loweredLines (ascii "GET / HTTP/1.1") [], find? (toLowercase (ascii "host")) l = none := by
    decide +kernel
  have back := field_read_back (f := hostField) (by decide +kernel) [] (ascii "abc") (by decide +kernel) clear
    (by decide +kernel)
  exact back.1.mpr (by decide +kernel)

end Lookup

/-! ### The version of a request -/

theorem isspace_cases {c : Byte} (h : isspace c = true) : c ∈ ([9, 10, 11, 12, 13, 32] : Bytes) := by
  simp only [isspace, Bool.or_eq_true, decide_eq_true_eq, Bool.and_eq_true, UInt8.le_iff_toNat_le] at h
  have value : c.toNat = 9 ∨ c.toNat = 10 ∨ c.toNat = 11 ∨ c.toNat = 12 ∨ c.toNat = 13 ∨ c.toNat = 32 := by
    rcases h with rfl | ⟨hlow, hhigh⟩
    · simp
    · simp only [UInt8.reduceToNat] at hlow hhigh
      omega
  simp only [List.mem_cons, List.not_mem_nil, or_false, ← UInt8.toNat_inj, UInt8.reduceToNat]
  exact value

/-- A class of bytes that has none of the six blanks. -/
theorem isspace_of_class {p : Byte → Bool} (hp : ∀ d ∈ ([9, 10, 11, 12, 13, 32] : Bytes), p d = false) {c : Byte}
    (h : p c = true) : isspace c = false := by
  by_contra hspace
  rw [hp c (isspace_cases (Bool.not_eq_false _ ▸ hspace))] at h
  cases h

theorem isspace_of_token {c : Byte} (h : Http.isTokenByte c = true) : isspace c = false :=
  isspace_of_class (by decide +kernel) h

theorem isspace_of_visible {c : Byte} (h : Http.isVisible c = true) : isspace c = false :=
  isspace_of_class (by decide +kernel) h

theorem isspace_of_digit {c : Byte} (h : isdigit c = true) : isspace c = false :=
  isspace_of_class (by decide +kernel) h

/-- A word ends with the next blank. -/
theorem getWord_append {w rest : Bytes} (hne : w ≠ []) (hw : ∀ c ∈ w, isspace c = false)
    (hr : ∀ c ∈ rest.head?, isspace c = true) : getWord (w ++ rest) = (w, rest) := by
  have lead : (w ++ rest).dropWhile isspace = w ++ rest := by
    obtain ⟨c, w, rfl⟩ := List.exists_cons_of_ne_nil hne
    simp [hw c List.mem_cons_self]
  have stop : rest.takeWhile (!isspace ·) = [] ∧ rest.dropWhile (!isspace ·) = rest := by
    cases rest with
    | nil => exact ⟨rfl, rfl⟩
    | cons c rest => simp [hr c rfl]
  have word : ∀ c ∈ w, (!isspace c) = true := fun c hc => by simp [hw c hc]
  simp only [getWord, lead]
  rw [List.takeWhile_append_of_pos word, List.dropWhile_append_of_pos word, stop.1, stop.2, List.append_nil]

theorem getWord_space (s : Bytes) : getWord (32 :: s) = getWord s := rfl

theorem head_eq_line (start : Bytes) (fields : List Http.Field) :
    ∃ rest, Http.head start fields = start ++ (crlf ++ rest) := by
  refine ⟨(fields.map Http.Field.line).flatMap (· ++ crlf) ++ crlf, ?_⟩
  rw [Http.head, List.flatMap_cons]
  simp only [List.append_assoc]

/-- The version of a request is what stands behind the slash, whatever its method and its target are. -/
theorem httpVersion_request (r : Http.Request) (tail : Bytes) :
    Socket.httpVersion (r.head ++ tail) = ascii "1." ++ [r.minor] := by
  obtain ⟨⟨hmethod, method⟩, ⟨htarget, target⟩, minor⟩ := r.line_words
  obtain ⟨rest, hrest⟩ := head_eq_line r.line r.fields
  have text : r.head ++ tail = r.line ++ (crlf ++ (rest ++ tail)) := by
    rw [Http.Request.head, hrest]
    simp only [List.append_assoc]
  have first : find? crlf (r.line ++ (crlf ++ (rest ++ tail))) = some r.line.length := by
    have here : find? [13, 10] (crlf ++ (rest ++ tail)) = some 0 := find?_cons_here ⟨rest ++ tail, rfl⟩
    rw [Http.crlf_eq] at here ⊢
    rw [find?_append_of_not_mem r.line_plain.2, here, Option.map_some, Nat.zero_add]
  have words : r.line = r.method ++ (32 :: (r.target ++ (32 :: (ascii "HTTP/1." ++ [r.minor])))) := by
    simp only [Http.Request.line, List.append_assoc]
    rfl
  have version : getWord (ascii "HTTP/1." ++ [r.minor]) = (ascii "HTTP/1." ++ [r.minor], []) := by
    have plain : ∀ c ∈ ascii "HTTP/1." ++ [r.minor], isspace c = false := by
      intro c hc
      rcases List.mem_append.mp hc with hc | hc
      · have letters : ∀ d ∈ ascii "HTTP/1.", isspace d = false := by decide +kernel
        exact letters c hc
      · rw [List.mem_singleton.mp hc]
        exact isspace_of_digit minor
    have whole : getWord (ascii "HTTP/1." ++ [r.minor] ++ []) = (ascii "HTTP/1." ++ [r.minor], []) :=
      getWord_append (by simp) plain fun c hc => by cases hc
    rwa [List.append_nil] at whole
  have blank : ∀ s : Bytes, ∀ c ∈ (32 :: s : Bytes).head?, isspace c = true := fun s c hc => Option.some.inj hc ▸ rfl
  have slash : find? (ascii "/") (ascii "HTTP/1." ++ [r.minor]) = some 4 :=
    find?_append (show find? (ascii "/") (ascii "HTTP/1.") = some 4 by decide) _
  simp only [Socket.httpVersion, text, first, List.take_left]
  rw [words, getWord_append hmethod (fun c hc => isspace_of_token (method c hc)) (blank _)]
  simp only [getWord_space]
  rw [getWord_append htarget (fun c hc => isspace_of_visible (target c hc)) (blank _)]
  simp only [getWord_space, version, slash]
  rfl

/-- The version of a request can be read, and is not above 1.1 exactly when it is 1.0 or 1.1: both are read to the
    nearest double, and that of 1.1 is the literal of the source. -/
theorem version_request (r : Http.Request) (tail : Bytes) : ∃ version,
    stod (Socket.httpVersion (r.head ++ tail)) = .ok version ∧
      (version.gt onePointOne = false ↔ r.minor = 48 ∨ r.minor = 49) := by
  have gate : ∀ d < 10, (stod (ascii "1." ++ [48 + d.toUInt8])).toOption.map (·.gt onePointOne) =
      some (decide ¬(48 + d.toUInt8 = 48 ∨ 48 + d.toUInt8 = 49)) := by decide +kernel
  have digit : ∃ d < 10, r.minor = 48 + d.toUInt8 := by
    have hdigit := r.line_words.2.2
    simp only [isdigit, Bool.and_eq_true, decide_eq_true_eq, UInt8.le_iff_toNat_le] at hdigit
    simp only [UInt8.reduceToNat] at hdigit
    refine ⟨r.minor.toNat - 48, by omega, ?_⟩
    rw [← UInt8.toNat_inj, UInt8.toNat_add]
    simp
    omega
  obtain ⟨d, hd, hminor⟩ := digit
  have passes := gate d hd
  rw [httpVersion_request, hminor]
  cases hread : stod (ascii "1." ++ [48 + d.toUInt8]) with
  | ok version =>
    rw [hread] at passes
    refine ⟨version, rfl, ?_⟩
    rw [show version.gt onePointOne = _ from Option.some.inj passes, decide_eq_false_iff_not, not_not]
  | error =>
    rw [hread] at passes
    cases passes

theorem supported_request (r : Http.Request) (tail : Bytes) :
    supported (r.head ++ tail) = true ↔ r.minor = 48 ∨ r.minor = 49 := by
  obtain ⟨version, hread, hle⟩ := version_request r tail
  simp only [supported, hread, Bool.not_eq_true', hle]

/-! ### The length of a body -/

/-- Digits are read as the number that they denote, as long as it is one of the word size. -/
theorem stoul_digits {ds : Bytes} (hne : ds ≠ []) (hd : ∀ c ∈ ds, isdigit c = true)
    (hlt : natOfDigits 10 ds < sizeMod) : stoul ds = .ok (natOfDigits 10 ds) := by
  obtain ⟨c, rest, hcons⟩ := List.exists_cons_of_ne_nil hne
  have first : isdigit c = true := hd c (hcons ▸ List.mem_cons_self)
  have lead : ds.dropWhile isspace = ds := by
    rw [hcons, List.dropWhile_cons_of_neg (by simp [isspace_of_digit first])]
  have unsigned : takeSign ds = (false, ds) := by
    rw [hcons]
    unfold takeSign
    split
    · rename_i heq
      rw [(List.cons.inj heq).1] at first
      exact absurd first (by decide)
    · rename_i heq
      rw [(List.cons.inj heq).1] at first
      exact absurd first (by decide)
    · rfl
  have all : ds.takeWhile isdigit = ds := List.takeWhile_eq_self_iff.mpr hd
  simp only [stoul, lead, unsigned, all]
  rw [if_neg hne, if_neg (Nat.not_le.mpr hlt)]
  rfl

theorem toLowercase_digits {ds : Bytes} (hd : ∀ c ∈ ds, isdigit c = true) : toLowercase ds = ds := by
  have keep : ∀ c ∈ ds, tolower c = c := by
    intro c hc
    have digit := hd c hc
    simp only [isdigit, Bool.and_eq_true, decide_eq_true_eq, UInt8.le_iff_toNat_le] at digit
    refine if_neg fun upper => ?_
    simp only [UInt8.le_iff_toNat_le] at upper
    simp only [UInt8.reduceToNat] at digit upper
    omega
  exact (List.map_congr_left keep).trans (List.map_id ds)

/-! ### Clear messages -/

/-- A field of the name, given in lower case, whose value `parse_field` reads back: no line before it has the name in
    it, there are only spaces before the value, none in it, and nothing behind it. -/
def ReadsBack (name start : Bytes) (fields : List Http.Field) : Prop :=
  ∃ earlier f later, fields = earlier ++ f :: later ∧ toLowercase f.name = name ∧ f.value ≠ [] ∧
    (∀ l ∈ loweredLines start earlier, find? name l = none) ∧ (∀ c ∈ f.before, c = 32) ∧ f.after = [] ∧ 32 ∉ f.value

instance {word start : Bytes} {fields : List Http.Field} : Decidable (Mentions word start fields) :=
  inferInstanceAs (Decidable (_ ∨ ∃ f ∈ fields, _ ∨ _))

/-- A body that a header leaves in no doubt: the words of `identify_body` are written only where they belong, and the
    terminator of the chunks stands only at their end. -/
def Http.Payload.Clear (start : Bytes) (fields : List Http.Field) : Http.Payload → Prop
  | .none => ¬Mentions (ascii "content-length") start fields ∧ ¬Mentions (ascii "chunked") start fields
  | .sized data => ReadsBack (ascii "content-length") start fields ∧ data.length < sizeMod
  | .chunked chunks last => ¬Mentions (ascii "content-length") start fields ∧
    ∃ n, find? lastChunk (Http.Payload.chunked chunks last).render = some n ∧
      n + lastChunk.length = (Http.Payload.chunked chunks last).render.length
  | .untilClose _ => False

section Clear
variable {start : Bytes} {fields : List Http.Field}

theorem mem_values {name : Bytes} {f : Http.Field} (hf : f ∈ fields) (hname : toLowercase f.name = name) :
    f.value ∈ Http.values name fields :=
  List.mem_map.mpr ⟨f, List.mem_filter.mpr ⟨hf, decide_eq_true hname⟩, rfl⟩

/-- The only value of a field is read back from a header, whatever follows it. -/
theorem ReadsBack.parseField {name value : Bytes} (h : ReadsBack name start fields) (hs : start ≠ [] ∧ 13 ∉ start)
    (hlow : toLowercase name = name) (hvalue : Http.values name fields = [value]) (tail : Bytes) :
    parseField (Http.head start fields ++ tail) name = .ok (toLowercase value) := by
  obtain ⟨earlier, f, later, rfl, hname, hv, clear, trimmed⟩ := h
  have only : f.value = value := by
    have mem : f.value ∈ Http.values name (earlier ++ f :: later) := mem_values (by simp) hname
    rw [hvalue] at mem
    exact List.mem_singleton.mp mem
  rw [← only, parseField_own_line hs later tail (hname.trans hlow.symm) (by rwa [hlow])]
  exact (trim_value hv).mpr trimmed

/-- A clear message is recognised. -/
theorem recognised_of_clear {payload : Http.Payload} (hs : start ≠ [] ∧ 13 ∉ start)
    (framed : payload ≠ .none → payload.FramedBy fields) (clear : payload.Clear start fields) :
    payload.Recognised (Http.head start fields) := by
  obtain ⟨long, chunky, plain⟩ := identifyBody_head start fields
  cases payload with
  | none => exact plain clear.1 clear.2
  | sized data =>
    obtain ⟨-, digits, hvalue, hne, hdigits, hlen⟩ := framed (by simp)
    obtain ⟨back, hlt⟩ := clear
    have mentions : Mentions (ascii "content-length") start fields := by
      obtain ⟨earlier, f, later, hfields, hname, -⟩ := back
      exact Or.inr ⟨f, by simp [hfields], Or.inl (hname ▸ List.infix_rfl)⟩
    refine ⟨long mentions, bind_eq_ok.mpr ⟨digits, ?_, ?_⟩⟩
    · have parsed := back.parseField hs (by decide) hvalue []
      rwa [List.append_nil, toLowercase_digits hdigits] at parsed
    · rw [← hlen] at hlt ⊢
      exact stoul_digits hne hdigits hlt
  | chunked chunks last =>
    obtain ⟨-, coding, hvalue, others, hcoding, -⟩ := framed (by simp)
    refine ⟨chunky clear.1 ?_, clear.2⟩
    have mem : coding ∈ Http.values (ascii "transfer-encoding") fields := hvalue ▸ List.mem_singleton_self _
    obtain ⟨f, hf, rfl⟩ := List.mem_map.mp mem
    refine Or.inr ⟨f, (List.mem_filter.mp hf).1, Or.inr ?_⟩
    rw [toLowercase, hcoding]
    exact (List.suffix_append _ _).isInfix
  | untilClose => exact clear.elim

end Clear

/-- A request and its answer that leave nothing in doubt. -/
structure ClearExchange where
  request : Http.Request
  answer : Http.Answer request
  version : request.minor = 48 ∨ request.minor = 49
  host : ReadsBack (ascii "host") request.line request.fields
  body : request.payload.Clear request.line request.fields
  alone : answer.interims = []
  reply : answer.final.payload.Clear (Http.statusLine answer.final.status answer.final.reason) answer.final.fields

namespace ClearExchange

theorem answer_render (x : ClearExchange) :
    x.answer.render = x.answer.final.head ++ x.answer.final.payload.render := by
  rw [Http.Answer.render, x.alone]
  rfl

def exchange (x : ClearExchange) : Exchange where
  request := {
    head := x.request.head
    payload := x.request.payload
    ends := x.request.find?_head _
    recognised := recognised_of_clear x.request.line_plain (fun _ => x.request.framed) x.body }
  reply := {
    head := x.answer.final.head
    payload := x.answer.final.payload
    ends := x.answer.final.find?_head _
    recognised := by
      refine recognised_of_clear (Http.statusLine_plain _ x.answer.final.reason_text x.answer.final.final.2)
        (fun hne => ?_) x.reply
      cases hend : Http.endsWithHeader x.request.method x.answer.final.status with
      | true => exact absurd (x.answer.final.bodiless hend) hne
      | false => exact (x.answer.final.framed hend).2 }
  host := toLowercase x.request.host
  accepted plus hp hfound := by
    obtain ⟨pos, hpos⟩ := Option.isSome_iff_exists.mp hfound
    obtain ⟨n, hn, hlen⟩ := x.request.find?_head x.request.payload.render
    have header := take_header hn hlen hp hpos
    have split : plus = x.request.head ++ plus.drop (pos + headerEnd.length) := by
      conv => lhs; rw [← List.take_append_drop (pos + headerEnd.length) plus, header]
    rw [split]
    exact ⟨(supported_request x.request _).mpr x.version,
      x.host.parseField x.request.line_plain (by decide) x.request.named.1 _⟩

end ClearExchange

end HttpProxy
