import HttpProxy.Socket
import HttpProxy.Http

/-! Where a message ends. `read_body` decides it from the text of the header and from what was read along with it,
    the grammar of HTTP from the fields of the message and the request it belongs to. Here is what it means that
    the two agree, and which messages `read_body` recognises however they are cut. -/

namespace HttpProxy
open Search

/-- The branch of `read_body` for a header comes to the end of a message of `len` bytes. -/
def BodyEnds (len : Nat) (httpHeaderPlus httpHeader : Bytes) : Prop :=
  match identifyBody httpHeader with
  | .none => httpHeaderPlus.length = len
  | .contentLength =>
    match parseField httpHeader (ascii "content-length") >>= stoul with
    | .ok n => httpHeader.length + n = len
    | .error _ => False
  | .chunked => (findFrom? lastChunk httpHeaderPlus httpHeader.length).isSome = true ↔ httpHeaderPlus.length = len

/-- A read of a body up to its terminator ends where a message of `len` bytes does. -/
def ChunksEnd (len : Nat) (message httpBody : Bytes) : Prop :=
  message.length + httpBody.length ≤ len ∧
    ((find? lastChunk httpBody).isSome = true ↔ message.length + httpBody.length = len)

instance {len : Nat} {plus header : Bytes} : Decidable (BodyEnds len plus header) :=
  match hb : identifyBody header with
  | .none => decidable_of_iff (plus.length = len) (by simp only [BodyEnds, hb])
  | .contentLength =>
    match hn : parseField header (ascii "content-length") >>= stoul with
    | .ok n => decidable_of_iff (header.length + n = len) (by simp only [BodyEnds, hb, hn])
    | .error _ => .isFalse (by simp only [BodyEnds, hb, hn, not_false_eq_true])
  | .chunked => decidable_of_iff ((findFrom? lastChunk plus header.length).isSome = true ↔ plus.length = len)
    (by simp only [BodyEnds, hb])

instance {len : Nat} {message httpBody : Bytes} : Decidable (ChunksEnd len message httpBody) :=
  inferInstanceAs (Decidable (_ ∧ _))

/-! ### Messages that are recognised -/

/-- `identify_body` takes the head of a message for what its fields say; a length is read as it stands there, and
    the terminator of the chunks occurs nowhere but at the end. -/
def Http.Payload.Recognised (head : Bytes) : Http.Payload → Prop
  | .none => identifyBody head = .none
  | .sized data => identifyBody head = .contentLength ∧
    (parseField head (ascii "content-length") >>= stoul) = .ok data.length
  | .chunked chunks last => identifyBody head = .chunked ∧
    ∃ n, find? lastChunk (Http.Payload.chunked chunks last).render = some n ∧
      n + lastChunk.length = (Http.Payload.chunked chunks last).render.length
  | .untilClose _ => False

section Recognised
variable {head plus rest : Bytes} {payload : Http.Payload} {n pos : Nat}

/-- The header of a part of a message that holds it is the head of the message. -/
theorem take_header (hn : find? headerEnd (head ++ rest) = some n) (hlen : n + 4 = head.length)
    (hp : plus <+: head ++ rest) (hpos : find? headerEnd plus = some pos) :
    plus.take (pos + headerEnd.length) = head := by
  obtain ⟨more, hmore⟩ := hp
  have found := find?_append hpos more
  rw [hmore] at found
  obtain rfl : pos = n := Option.some.inj (found.symm.trans hn)
  have hle : pos + headerEnd.length ≤ plus.length := find?_add_length_le hpos
  have htake : plus.take (pos + headerEnd.length) = (head ++ rest).take (pos + headerEnd.length) := by
    rw [← hmore, List.take_append_of_le_length hle]
  have hhead : pos + headerEnd.length = head.length := hlen
  rw [htake, hhead, List.take_left]

/-- A terminator that stands only at the end is found in a first part exactly when that is everything. -/
theorem found_iff_whole {part whole : Bytes} (hn : find? lastChunk whole = some n)
    (hend : n + lastChunk.length = whole.length) (hp : part <+: whole) :
    (find? lastChunk part).isSome = true ↔ part.length = whole.length := by
  constructor
  · intro hfound
    obtain ⟨m, hm⟩ := Option.isSome_iff_exists.mp hfound
    obtain ⟨more, hmore⟩ := hp
    have found := find?_append hm more
    rw [hmore] at found
    obtain rfl : m = n := Option.some.inj (found.symm.trans hn)
    have hle := find?_add_length_le hm
    have hlen := congrArg List.length hmore
    rw [List.length_append] at hlen
    omega
  · intro hlen
    rw [hp.eq_of_length hlen, hn]
    rfl

/-- The branch for the header of a recognised message ends where the message does, however it is cut. -/
theorem bodyEnds_of_recognised (hr : payload.Recognised head) (hn : find? headerEnd (head ++ payload.render) = some n)
    (hlen : n + 4 = head.length) (hp : plus <+: head ++ payload.render) (hpos : find? headerEnd plus = some pos) :
    BodyEnds (head ++ payload.render).length plus (plus.take (pos + headerEnd.length)) := by
  have header := take_header hn hlen hp hpos
  have hsplit : plus = head ++ plus.drop (pos + headerEnd.length) := by
    conv => lhs; rw [← List.take_append_drop (pos + headerEnd.length) plus, header]
  rw [header]
  generalize plus.drop (pos + headerEnd.length) = read at hsplit
  subst hsplit
  have hread : read <+: payload.render := (List.prefix_append_right_inj head).mp hp
  have hmax := hread.length_le
  unfold BodyEnds
  rw [List.length_append, List.length_append]
  cases payload with
  | none =>
    have hbody : identifyBody head = .none := hr
    have h0 : Http.Payload.none.render.length = 0 := rfl
    simp only [hbody]
    omega
  | sized data =>
    obtain ⟨hbody, hvalue⟩ := hr
    simp only [hbody, hvalue]
    rfl
  | chunked chunks last =>
    obtain ⟨hbody, m, hm, hend⟩ := hr
    simp only [hbody, findFrom?_append_length, Option.isSome_map, Nat.add_left_cancel_iff]
    exact found_iff_whole hm hend hread
  | untilClose => exact hr.elim

/-- A read of the chunks ends where they do when it began before their terminator. -/
theorem chunksEnd_of_recognised {chunks : List Http.Chunk} {last : Http.LastChunk} {begun httpBody : Bytes}
    (hr : (Http.Payload.chunked chunks last).Recognised head)
    (hp : begun ++ httpBody <+: (Http.Payload.chunked chunks last).render)
    (hcut : begun.length + lastChunk.length ≤ (Http.Payload.chunked chunks last).render.length) :
    ChunksEnd (head ++ (Http.Payload.chunked chunks last).render).length (head ++ begun) httpBody := by
  obtain ⟨-, m, hm, hend⟩ := hr
  have hlen := hp.length_le
  rw [List.length_append] at hlen
  rw [ChunksEnd, List.length_append, List.length_append]
  refine ⟨by omega, ?_⟩
  have whole := found_iff_whole hm hend hp
  rw [List.length_append] at whole
  have before : (find? lastChunk httpBody).isSome = true ↔ (find? lastChunk (begun ++ httpBody)).isSome = true := by
    simp only [find?_isSome_iff]
    refine ⟨fun h => h.trans (List.suffix_append _ _).isInfix, fun h => ?_⟩
    -- The terminator of the whole is where it ends, after what was read before.
    have hfull := whole.mp (find?_isSome_iff.mpr h)
    have heq := hp.eq_of_length (by rw [List.length_append]; exact hfull)
    rw [← heq] at hm
    have hdrop := prefix_drop_of_find? hm
    rw [List.drop_append, List.drop_eq_nil_of_le (by omega), List.nil_append] at hdrop
    exact hdrop.isInfix.trans (List.drop_suffix _ _).isInfix
  rw [before, whole]
  omega

end Recognised

end HttpProxy
