import HttpProxy.Cpp
import HttpProxy.Library.Search

/-! HTTP/1.x messages: the byte strings that well-formed requests, and well-formed answers to them, are. The
    program has no notion of them; they are what the streams of the two peers consist of. Where the grammar
    restricts a part of a message, its structure has the restriction as a field. -/

namespace HttpProxy.Http
open Search

/-! ### Characters -/

def isBlank (c : Byte) : Bool := c = 32 || c = 9

def isVisible (c : Byte) : Bool := 32 < c && c ≠ 127

/-- A byte of a value or a reason phrase. -/
def isText (c : Byte) : Bool := isBlank c || isVisible c

def isAlpha (c : Byte) : Bool := 97 ≤ tolower c && tolower c ≤ 122

/-- The marks of a token, from the exclamation mark to the tilde. -/
def tokenMarks : Bytes := [33, 35, 36, 37, 38, 39, 42, 43, 45, 46, 94, 95, 96, 124, 126]

def isTokenByte (c : Byte) : Bool := isdigit c || isAlpha c || tokenMarks.contains c

/-! ### The head of a message -/

/-- A field line, with the blanks around its value. -/
structure Field where
  name : Bytes
  before : Bytes
  value : Bytes
  after : Bytes
  name_token : name ≠ [] ∧ ∀ c ∈ name, isTokenByte c = true
  blanks : ∀ c ∈ before ++ after, isBlank c = true
  value_text : ∀ c ∈ value, isText c = true
  trimmed : (∀ c ∈ value.head?, isBlank c = false) ∧ ∀ c ∈ value.getLast?, isBlank c = false

def Field.line (f : Field) : Bytes := f.name ++ [58] ++ f.before ++ f.value ++ f.after

/-- A field with one blank before its value. -/
def Field.plain (name value : Bytes) (h : (name ≠ [] ∧ ∀ c ∈ name, isTokenByte c = true) ∧ (∀ c ∈ value, isText c = true) ∧
    (∀ c ∈ value.head?, isBlank c = false) ∧ ∀ c ∈ value.getLast?, isBlank c = false) : Field where
  name := name
  before := [32]
  value := value
  after := []
  name_token := h.1
  blanks _ hc := List.mem_singleton.mp hc ▸ rfl
  value_text := h.2.1
  trimmed := h.2.2

/-- The values of the fields of a name, which is given in lower case. -/
def values (name : Bytes) (fields : List Field) : List Bytes :=
  (fields.filter fun f => f.name.map tolower = name).map Field.value

/-- The start line and the field lines, with the empty line after them. -/
def head (start : Bytes) (fields : List Field) : Bytes :=
  (start :: fields.map Field.line).flatMap (· ++ crlf) ++ crlf

/-! ### The body of a message -/

/-- An extension of a chunk, as far as it matters where it ends. -/
def IsExtension (ext : Bytes) : Prop :=
  (∀ c ∈ ext, isText c = true) ∧ ∀ c ∈ ext.head?, c = 59 ∨ isBlank c = true

theorem isExtension_nil : IsExtension [] := ⟨nofun, nofun⟩

structure Chunk where
  size : Bytes
  ext : Bytes
  data : Bytes
  size_digits : size ≠ [] ∧ ∀ c ∈ size, isxdigit c = true
  size_eq : natOfDigits 16 size = data.length
  ext_text : IsExtension ext
  data_ne : data ≠ []

def Chunk.render (c : Chunk) : Bytes := c.size ++ c.ext ++ crlf ++ c.data ++ crlf

/-- The chunk of size zero, with the trailer after it. -/
structure LastChunk where
  zeros : Bytes
  ext : Bytes
  trailers : List Field
  zeros_eq : zeros ≠ [] ∧ ∀ c ∈ zeros, c = 48
  ext_text : IsExtension ext

def LastChunk.render (c : LastChunk) : Bytes := head (c.zeros ++ c.ext) c.trailers

/-- What follows the head of a message. -/
inductive Payload where
  | none
  | sized (data : Bytes)
  | chunked (chunks : List Chunk) (last : LastChunk)
  | untilClose (data : Bytes)

namespace Payload

def render : Payload → Bytes
  | none => []
  | sized data | untilClose data => data
  | chunked chunks last => chunks.flatMap Chunk.render ++ last.render

/-- Whether a transfer coding ends with the chunked one. -/
def EndsChunked (coding : Bytes) : Prop :=
  ∃ others, coding.map tolower = others ++ ascii "chunked" ∧ ∀ c ∈ others.getLast?, c = 44 ∨ isBlank c = true

/-- The fields say where the body ends. -/
def FramedBy (fields : List Field) : Payload → Prop
  | none | untilClose _ => values (ascii "content-length") fields = [] ∧ values (ascii "transfer-encoding") fields = []
  | sized data => values (ascii "transfer-encoding") fields = [] ∧
    ∃ digits, values (ascii "content-length") fields = [digits] ∧ digits ≠ [] ∧ (∀ c ∈ digits, isdigit c = true) ∧
      natOfDigits 10 digits = data.length
  | chunked _ _ => values (ascii "content-length") fields = [] ∧
    ∃ coding, values (ascii "transfer-encoding") fields = [coding] ∧ EndsChunked coding

/-- Whether the message itself shows where it ends. -/
def delimited : Payload → Bool
  | untilClose _ => false
  | _ => true

end Payload

/-! ### Messages -/

structure Request where
  method : Bytes
  target : Bytes
  minor : Byte
  fields : List Field
  payload : Payload
  host : Bytes
  line_words : (method ≠ [] ∧ ∀ c ∈ method, isTokenByte c = true) ∧ (target ≠ [] ∧ ∀ c ∈ target, isVisible c = true) ∧
    isdigit minor = true
  framed : payload.FramedBy fields
  delimited : payload.delimited = true
  named : values (ascii "host") fields = [host] ∧ host ≠ [] ∧ ∀ c ∈ host, isVisible c = true

namespace Request

def line (r : Request) : Bytes := r.method ++ [32] ++ r.target ++ ascii " HTTP/1." ++ [r.minor]

def head (r : Request) : Bytes := Http.head r.line r.fields

def render (r : Request) : Bytes := r.head ++ r.payload.render

end Request

def statusLine (status : Nat) (reason : Bytes) : Bytes :=
  ascii "HTTP/1.1 " ++ [status / 100, status / 10 % 10, status % 10].map (fun d => 48 + d.toUInt8) ++ [32] ++ reason

/-- An informational response, after which another one follows. -/
structure Interim where
  status : Nat
  reason : Bytes
  fields : List Field
  informational : 100 ≤ status ∧ status < 200 ∧ status ≠ 101
  reason_text : ∀ c ∈ reason, isText c = true
  framed : Payload.none.FramedBy fields

def Interim.render (i : Interim) : Bytes := head (statusLine i.status i.reason) i.fields

/-- The responses that end with their header, whatever their fields say. -/
def endsWithHeader (method : Bytes) (status : Nat) : Bool := method = ascii "HEAD" || status = 204 || status = 304

/-- The final response to a request of a method. -/
structure Final (method : Bytes) where
  status : Nat
  reason : Bytes
  fields : List Field
  payload : Payload
  final : 200 ≤ status ∧ status < 1000
  reason_text : ∀ c ∈ reason, isText c = true
  bodiless : endsWithHeader method status = true → payload = .none
  framed : endsWithHeader method status = false → payload ≠ .none ∧ payload.FramedBy fields

namespace Final
variable {method : Bytes}

def head (f : Final method) : Bytes := Http.head (statusLine f.status f.reason) f.fields

def render (f : Final method) : Bytes := f.head ++ f.payload.render

end Final

/-- What a server sends for a request. -/
structure Answer (r : Request) where
  interims : List Interim
  final : Final r.method

def Answer.render {r : Request} (a : Answer r) : Bytes := a.interims.flatMap Interim.render ++ a.final.render

/-! ### The end of a head -/

theorem cr_not_text {c : Byte} (h : isText c = true) : c ≠ 13 := by
  rintro rfl
  exact absurd h (by decide)

theorem cr_not_token {c : Byte} (h : isTokenByte c = true) : c ≠ 13 := by
  rintro rfl
  exact absurd h (by decide)

theorem Field.line_plain (f : Field) : f.line ≠ [] ∧ 13 ∉ f.line := by
  refine ⟨by simp [line], fun h => ?_⟩
  simp only [line, List.append_assoc, List.mem_append, List.mem_singleton] at h
  rcases h with h | h | h | h | h
  · exact cr_not_token (f.name_token.2 13 h) rfl
  · exact absurd h (by decide)
  · exact absurd (f.blanks 13 (List.mem_append_left _ h)) (by decide)
  · exact cr_not_text (f.value_text 13 h) rfl
  · exact absurd (f.blanks 13 (List.mem_append_right _ h)) (by decide)

theorem crlf_eq : crlf = [13, 10] := rfl

theorem find?_emptyLine_here (rest : Bytes) : find? [13, 10, 13, 10] (crlf ++ (crlf ++ rest)) = some 0 :=
  find?_cons_here ⟨rest, rfl⟩

/-- A line break that is not followed by another one is skipped. -/
theorem find?_emptyLine_later {next : Bytes} (hne : next ≠ []) (hcr : 13 ∉ next) (rest : Bytes) :
    find? [13, 10, 13, 10] (crlf ++ (next ++ rest)) = (find? [13, 10, 13, 10] (next ++ rest)).map (· + 2) := by
  obtain ⟨c, tail, rfl⟩ := List.exists_cons_of_ne_nil hne
  have hc : 13 ≠ c := fun h => hcr (by simp [h])
  have first : ¬[13, 10, 13, 10] <+: (13 : Byte) :: 10 :: (c :: tail ++ rest) := by simp [hc]
  have second : ¬[13, 10, 13, 10] <+: (10 : Byte) :: (c :: tail ++ rest) := by simp
  rw [crlf_eq]
  refine (find?_cons_later first).trans ?_
  rw [find?_cons_later second, Option.map_map]
  rfl

/-- The first empty line of a head is its last line. -/
theorem find?_lines (rest : Bytes) : ∀ {lines : List Bytes}, lines ≠ [] → (∀ l ∈ lines, l ≠ [] ∧ 13 ∉ l) →
    ∃ n, find? [13, 10, 13, 10] (lines.flatMap (· ++ crlf) ++ (crlf ++ rest)) = some n ∧
      n + 2 = (lines.flatMap (· ++ crlf)).length
  | [], h, _ => absurd rfl h
  | [l], _, hl => by
    refine ⟨l.length, ?_, by simp [crlf_eq]⟩
    rw [List.flatMap_singleton, List.append_assoc, find?_append_of_not_mem (hl l List.mem_cons_self).2,
      find?_emptyLine_here]
    simp
  | l :: next :: lines, _, hl => by
    obtain ⟨n, hn, hlen⟩ := find?_lines rest (List.cons_ne_nil next lines) fun x hx => hl x (List.mem_cons_of_mem _ hx)
    obtain ⟨hne, hcr⟩ := hl next (by simp)
    refine ⟨l.length + 2 + n, ?_, ?_⟩
    · rw [List.flatMap_cons, List.append_assoc, List.append_assoc] at hn
      rw [List.flatMap_cons, List.append_assoc, List.append_assoc,
        find?_append_of_not_mem (hl l List.mem_cons_self).2, List.flatMap_cons, List.append_assoc, List.append_assoc,
        find?_emptyLine_later hne hcr, hn]
      simp only [Option.map_some, Option.some.injEq]
      omega
    · rw [List.flatMap_cons, List.length_append, ← hlen, List.length_append, crlf_eq, List.length_cons,
        List.length_singleton]
      omega

theorem Request.line_plain (r : Request) : r.line ≠ [] ∧ 13 ∉ r.line := by
  refine ⟨by simp [line], fun h => ?_⟩
  simp only [line, List.append_assoc, List.mem_append, List.mem_singleton] at h
  rcases h with h | h | h | h | h
  · exact cr_not_token (r.line_words.1.2 13 h) rfl
  · exact absurd h (by decide)
  · exact absurd (r.line_words.2.1.2 13 h) (by decide)
  · exact absurd h (by decide)
  · exact absurd r.line_words.2.2 (h ▸ by decide)

theorem statusLine_plain (status : Nat) {reason : Bytes} (h : ∀ c ∈ reason, isText c = true) (hs : status < 1000) :
    statusLine status reason ≠ [] ∧ 13 ∉ statusLine status reason := by
  refine ⟨by simp [statusLine], fun hmem => ?_⟩
  simp only [statusLine, List.append_assoc, List.mem_append, List.mem_singleton] at hmem
  have digit : ∀ d < 10, (13 : Byte) ≠ 48 + d.toUInt8 := by decide
  rcases hmem with hmem | hmem | hmem | hmem
  · exact absurd hmem (by decide)
  · obtain ⟨d, hd, hcr⟩ := List.mem_map.mp hmem
    refine digit d ?_ hcr.symm
    simp only [List.mem_cons, List.not_mem_nil, or_false] at hd
    omega
  · exact absurd hmem (by decide)
  · exact cr_not_text (h 13 hmem) rfl

/-- The first empty line of a message is the one that ends its head. -/
theorem find?_head {start : Bytes} (hs : start ≠ [] ∧ 13 ∉ start) (fields : List Field) (rest : Bytes) :
    ∃ n, find? [13, 10, 13, 10] (head start fields ++ rest) = some n ∧ n + 4 = (head start fields).length := by
  have plain : ∀ l ∈ start :: fields.map Field.line, l ≠ [] ∧ 13 ∉ l := by
    intro l hl
    rcases List.mem_cons.mp hl with rfl | hl
    · exact hs
    · obtain ⟨f, -, rfl⟩ := List.mem_map.mp hl
      exact f.line_plain
  obtain ⟨n, hn, hlen⟩ := find?_lines rest (List.cons_ne_nil _ _) plain
  refine ⟨n, ?_, ?_⟩
  · rw [head, List.append_assoc]
    exact hn
  · rw [head, List.length_append, ← hlen]
    rfl

theorem Request.find?_head (r : Request) (rest : Bytes) :
    ∃ n, find? [13, 10, 13, 10] (r.head ++ rest) = some n ∧ n + 4 = r.head.length :=
  Http.find?_head r.line_plain r.fields rest

theorem Final.find?_head {method : Bytes} (f : Final method) (rest : Bytes) :
    ∃ n, find? [13, 10, 13, 10] (f.head ++ rest) = some n ∧ n + 4 = f.head.length :=
  Http.find?_head (statusLine_plain f.status f.reason_text f.final.2) f.fields rest

end HttpProxy.Http
