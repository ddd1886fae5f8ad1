import HttpProxy.Theorems.Recognition

/-! The end of a chunked body. `read_body` takes the first occurrence of `0`, a line break and an empty line for it;
    here is for which bodies of the grammar that is the end. -/

namespace HttpProxy
open Search

/-- The completion test of `read_body` comes true with the last byte of a body, and not before. -/
def EndDetected (header body : Bytes) : Prop :=
  ∀ part, part <+: body → ((findFrom? lastChunk (header ++ part) header.length).isSome = true ↔ part = body)

/-- The data of a chunk has no terminator in it, does not complete one at its end, and does not complete one that
    the size line begins. -/
structure Http.Chunk.Plain (c : Http.Chunk) : Prop where
  inside : ¬lastChunk <:+: c.data
  atEnd : ¬ascii "0\r\n" <:+ c.data
  atStart : (c.size ++ c.ext).getLast? = some 48 → ¬crlf <+: c.data

/-- The lines from the chunk of size zero on. -/
def Http.LastChunk.lines (c : Http.LastChunk) : List Bytes := (c.zeros ++ c.ext) :: c.trailers.map Http.Field.line

/-- The line before the empty line that ends the body ends with a zero. -/
def Http.LastChunk.EndsInZero (c : Http.LastChunk) : Prop := ∀ line ∈ c.lines.getLast?, line.getLast? = some 48

theorem endDetected_iff {header body : Bytes} (hne : body ≠ []) :
    EndDetected header body ↔ lastChunk <:+: body ∧ ¬lastChunk <:+: body.dropLast := by
  rw [← infix_at_end_iff hne]
  refine forall₂_congr fun part _ => ?_
  rw [findFrom?_append_length, Option.isSome_map, find?_isSome_iff]

/-! ### The lines of the grammar -/

theorem ext_plain {ext : Bytes} (h : Http.IsExtension ext) : 13 ∉ ext := fun hmem =>
  Http.cr_not_text (h.1 13 hmem) rfl

theorem Http.Chunk.sizeLine_plain (c : Http.Chunk) : 13 ∉ c.size ++ c.ext := by
  intro h
  rcases List.mem_append.mp h with h | h
  · exact absurd (c.size_digits.2 13 h) (by decide)
  · exact ext_plain c.ext_text h

theorem Http.LastChunk.zeroLine_plain (c : Http.LastChunk) : c.zeros ++ c.ext ≠ [] ∧ 13 ∉ c.zeros ++ c.ext := by
  refine ⟨fun h => c.zeros_eq.1 (List.append_eq_nil_iff.mp h).1, fun h => ?_⟩
  rcases List.mem_append.mp h with h | h
  · exact absurd (c.zeros_eq.2 13 h) (by decide)
  · exact ext_plain c.ext_text h

/-! ### Chunks -/

theorem crlf_prefix_append {data : Bytes} (hne : data ≠ []) (rest : Bytes) (hr : rest.head? ≠ some 10) :
    crlf <+: data ++ rest ↔ crlf <+: data := by
  refine ⟨fun h => ?_, fun h => h.trans (List.prefix_append _ _)⟩
  obtain ⟨a, data, rfl⟩ := List.exists_cons_of_ne_nil hne
  cases data with
  | nil =>
    obtain ⟨t, ht⟩ := h
    cases rest with
    | nil => cases ht
    | cons b rest =>
      have hb : (10 : Byte) = b := (List.cons.inj (List.cons.inj ht).2).1
      exact absurd (congrArg some hb.symm) hr
  | cons b data =>
    exact List.prefix_of_prefix_length_le h (List.prefix_append _ _) (by simp [Http.crlf_eq])

/-- The terminator in the data of a chunk with the line break after it. -/
theorem infix_data_iff {data : Bytes} : lastChunk <:+: data ++ crlf ↔
    lastChunk <:+: data ∨ ascii "0\r\n" <:+ data := by
  rw [List.infix_append_iff_ne_nil]
  refine or_congr_right ⟨?_, fun h => Or.inr ⟨ascii "0\r\n", crlf, by decide, by decide, rfl, h, List.prefix_rfl⟩⟩
  rintro (h | ⟨x, y, -, hy, hT, hx, hpre⟩)
  · exact absurd h.length_le (by decide)
  · -- The part in the line break is a line break, as it ends with a line feed.
    have split : ∀ n < 6, lastChunk.drop n <+: crlf → lastChunk.drop n = [] ∨ lastChunk.take n = ascii "0\r\n" := by
      decide
    have take : lastChunk.take x.length = x := by rw [hT, List.take_left]
    have drop : lastChunk.drop x.length = y := by rw [hT, List.drop_left]
    have hlen : x.length ≤ lastChunk.length := by rw [hT, List.length_append]; exact Nat.le_add_right _ _
    rcases split x.length (Nat.lt_succ_of_le hlen) (drop ▸ hpre) with h | h
    · exact absurd (drop ▸ h) hy
    · exact h ▸ take.symm ▸ hx

/-- A line without a carriage return has at most the zero of the terminator. -/
theorem infix_line_iff {line : Bytes} (hcr : 13 ∉ line) (rest : Bytes) : lastChunk <:+: line ++ (crlf ++ rest) ↔
    line.getLast? = some 48 ∧ crlf <+: rest ∨ lastChunk <:+: rest := by
  have behind : lastChunk <:+: crlf ++ rest ↔ lastChunk <:+: rest := infix_append_iff_of_first (by decide)
  have next : crlf ++ crlf <+: crlf ++ rest ↔ crlf <+: rest := List.prefix_append_right_inj crlf
  rw [← behind, ← next]
  exact infix_append_iff_of_second hcr

/-- A chunk of the grammar that has a terminator in it. -/
theorem Http.Chunk.infix_render_iff (c : Http.Chunk) : lastChunk <:+: c.render ↔ ¬c.Plain := by
  have start : crlf <+: c.data ++ crlf ↔ crlf <+: c.data := crlf_prefix_append c.data_ne crlf (by decide)
  have lines : c.render = (c.size ++ c.ext) ++ (crlf ++ (c.data ++ crlf)) := by simp [Http.Chunk.render]
  rw [lines, infix_line_iff c.sizeLine_plain, start, infix_data_iff]
  constructor
  · rintro (⟨hzero, hpre⟩ | hin | hsuf) hplain
    · exact hplain.atStart hzero hpre
    · exact hplain.inside hin
    · exact hplain.atEnd hsuf
  · intro h
    by_contra hno
    exact h ⟨fun hin => hno (Or.inr (Or.inl hin)), fun hsuf => hno (Or.inr (Or.inr hsuf)),
      fun hzero hpre => hno (Or.inl ⟨hzero, hpre⟩)⟩

/-! ### The chunk of size zero -/

/-- The terminator in lines with an empty line behind them is the end of the last one. -/
theorem infix_trailer_iff : ∀ {lines : List Bytes}, (∀ line ∈ lines, line ≠ [] ∧ 13 ∉ line) →
    (lastChunk <:+: lines.flatMap (· ++ crlf) ++ crlf ↔ ∃ line ∈ lines.getLast?, line.getLast? = some 48)
  | [], _ => by simp only [List.flatMap_nil, List.nil_append, List.getLast?_nil]; decide
  | [line], h => by
    have last : ¬lastChunk <:+: crlf := by decide
    rw [List.flatMap_singleton, List.append_assoc, infix_line_iff (h line List.mem_cons_self).2, or_iff_left last]
    simp
  | line :: next :: lines, h => by
    obtain ⟨hne, hcr⟩ := h next (by simp)
    have more : ¬crlf <+: (next :: lines).flatMap (· ++ crlf) ++ crlf := by
      obtain ⟨a, tail, rfl⟩ := List.exists_cons_of_ne_nil hne
      rintro ⟨rest, hrest⟩
      have hcra : (13 : Byte) = a := (List.cons.inj hrest).1
      exact hcr (hcra ▸ List.mem_cons_self)
    rw [List.flatMap_cons, List.append_assoc, List.append_assoc, infix_line_iff (h line List.mem_cons_self).2,
      or_iff_right fun hpre => more hpre.2, infix_trailer_iff fun l hl => h l (List.mem_cons_of_mem line hl)]
    rfl

namespace Http.LastChunk
variable (c : Http.LastChunk)

theorem lines_plain : ∀ line ∈ c.lines, line ≠ [] ∧ 13 ∉ line := by
  intro line hline
  rcases List.mem_cons.mp hline with rfl | hline
  · exact c.zeroLine_plain
  · obtain ⟨f, -, rfl⟩ := List.mem_map.mp hline
    exact f.line_plain

theorem infix_render_iff : lastChunk <:+: c.render ↔ c.EndsInZero := by
  have hlast : ∃ line, c.lines.getLast? = some line := ⟨_, List.getLast?_eq_some_getLast (List.cons_ne_nil _ _)⟩
  obtain ⟨line, hline⟩ := hlast
  refine (infix_trailer_iff c.lines_plain).trans ?_
  simp only [EndsInZero, hline, Option.mem_some_iff, exists_eq_left', forall_eq']

/-- The empty line of the trailer is its end, so no terminator ends earlier. -/
theorem not_infix_dropLast : ¬lastChunk <:+: c.render.dropLast := by
  intro h
  obtain ⟨n, hn, hlen⟩ := Http.find?_head c.zeroLine_plain c.trailers []
  rw [List.append_nil] at hn
  have hin : [13, 10, 13, 10] <:+: c.render.dropLast := List.IsInfix.trans ⟨[48], [], rfl⟩ h
  obtain ⟨m, hm⟩ := Option.isSome_iff_exists.mp (find?_isSome_iff.mpr hin)
  have hne : c.render ≠ [] := List.append_ne_nil_of_right_ne_nil _ (by decide)
  have found := find?_append hm [c.render.getLast hne]
  rw [List.dropLast_append_getLast] at found
  have same : n = m := Option.some.inj (hn.symm.trans found)
  have hle : m + 4 ≤ c.render.dropLast.length := find?_add_length_le hm
  have hlen : n + 4 = c.render.length := hlen
  rw [List.length_dropLast] at hle
  omega

theorem head_zero (n : Nat) : ∀ a ∈ (c.render.take n).head?, a = 48 := by
  obtain ⟨hne, hzero⟩ := c.zeros_eq
  obtain ⟨z, zeros, hz⟩ := List.exists_cons_of_ne_nil hne
  have start : ∃ rest, c.render = z :: rest := by simp [render, head, hz]
  obtain ⟨rest, hrest⟩ := start
  intro a ha
  rw [hrest] at ha
  cases n with
  | zero => cases ha
  | succ n => exact Option.some.inj ha ▸ hzero z (hz ▸ List.mem_cons_self)

end Http.LastChunk

/-! ### Bodies -/

theorem Http.Chunk.head_hex (c : Http.Chunk) : ∀ a ∈ c.render.head?, isxdigit a = true := by
  obtain ⟨hne, hhex⟩ := c.size_digits
  obtain ⟨d, size, hd⟩ := List.exists_cons_of_ne_nil hne
  intro a ha
  rw [Http.Chunk.render, hd] at ha
  exact Option.some.inj ha ▸ hhex d (hd ▸ List.mem_cons_self)

theorem chunked_render_ne (chunks : List Http.Chunk) (last : Http.LastChunk) :
    (Http.Payload.chunked chunks last).render ≠ [] :=
  List.append_ne_nil_of_right_ne_nil _ (List.append_ne_nil_of_right_ne_nil _ (by decide))

/-- The bodies of the grammar whose first terminator is their end. -/
theorem chunked_ends_iff (chunks : List Http.Chunk) (last : Http.LastChunk) :
    (lastChunk <:+: (Http.Payload.chunked chunks last).render ∧
      ¬lastChunk <:+: (Http.Payload.chunked chunks last).render.dropLast) ↔
    (∀ c ∈ chunks, c.Plain) ∧ last.EndsInZero := by
  have hne : last.render ≠ [] := List.append_ne_nil_of_right_ne_nil _ (by decide)
  -- A chunk starts with a digit, and no digit of the terminator stands behind its first byte.
  have digit : ∀ a, isxdigit a = true → a ∉ lastChunk.tail := fun a ha hmem => by
    rcases hmem with _ | ⟨_, _ | ⟨_, _ | ⟨_, _ | ⟨_, ⟨⟩⟩⟩⟩⟩ <;> exact absurd ha (by decide)
  have border : ∀ n, ∀ a ∈ (last.render.take n).head?, a ∉ lastChunk.tail := fun n a ha =>
    last.head_zero n a ha ▸ by decide
  have whole := border last.render.length
  have before := border (last.render.length - 1)
  rw [List.take_length] at whole
  rw [← List.dropLast_eq_take] at before
  have inChunks : lastChunk <:+: chunks.flatMap Http.Chunk.render ↔ ¬∀ c ∈ chunks, c.Plain := by
    rw [List.flatMap_def, infix_flatten_iff (by decide) fun l hl a ha => ?_]
    · simp [Http.Chunk.infix_render_iff]
    · obtain ⟨c, -, rfl⟩ := List.mem_map.mp hl
      exact digit a (c.head_hex a ha)
  rw [Http.Payload.render, List.dropLast_append_of_ne_nil hne, infix_append_iff_of_head whole,
    infix_append_iff_of_head before, inChunks, last.infix_render_iff, or_iff_left last.not_infix_dropLast, not_not]
  constructor
  · intro ⟨either, plain⟩
    exact ⟨plain, either.resolve_left fun h => h plain⟩
  · intro ⟨plain, zero⟩
    exact ⟨Or.inr zero, plain⟩

/-- The completion test comes true with the last byte of a chunked body, and not before, exactly when its chunks are
    plain and the line before its last line break is one that ends with a zero. -/
theorem chunked_end_detected (header : Bytes) (chunks : List Http.Chunk) (last : Http.LastChunk) :
    EndDetected header (Http.Payload.chunked chunks last).render ↔ (∀ c ∈ chunks, c.Plain) ∧ last.EndsInZero := by
  rw [endDetected_iff (chunked_render_ne chunks last), chunked_ends_iff]

/-- A body in chunks is recognised by its header when `identify_body` says so and its first terminator is its end. -/
theorem recognised_chunked_iff (head : Bytes) (chunks : List Http.Chunk) (last : Http.LastChunk) :
    (Http.Payload.chunked chunks last).Recognised head ↔
      identifyBody head = .chunked ∧ (∀ c ∈ chunks, c.Plain) ∧ last.EndsInZero := by
  rw [← chunked_ends_iff, ← find?_at_end_iff (chunked_render_ne chunks last)]
  rfl

/-- Data that is the terminator. -/
def terminatorChunk : Http.Chunk where
  size := ascii "5"
  ext := []
  data := ascii "0\r\n\r\n"
  size_digits := by decide +kernel
  size_eq := rfl
  ext_text := Http.isExtension_nil
  data_ne := by decide

def plainLast : Http.LastChunk := ⟨ascii "0", [], [], by decide +kernel, Http.isExtension_nil⟩

/-- The header of a message with chunks. -/
def chunkedHeader : Bytes := ascii "POST / HTTP/1.1\r\nHost: a.com\r\nTransfer-Encoding: chunked\r\n\r\n"

/-- The test comes true within the data of a chunk. -/
theorem chunked_end_missed : identifyBody chunkedHeader = .chunked ∧
    ¬EndDetected chunkedHeader (Http.Payload.chunked [terminatorChunk] plainLast).render := by
  refine ⟨by decide +kernel, fun h => ?_⟩
  have early := (h (ascii "5\r\n0\r\n\r\n") (by decide +kernel)).mp (by decide +kernel)
  exact absurd early (by decide +kernel)

end HttpProxy
