import HttpProxy.Theorems.Refinement
import HttpProxy.Theorems.Framing

/-! What is said in a conversation. A client and the servers exchange messages that `read_body` recognises, one request
    and one reply in each round; here is what it means that they cooperate, and what a session is to come to. -/

namespace HttpProxy
open Search

/-! ### What is said -/

/-- A message that `read_body` recognises; its header ends with the first empty line. -/
structure Spoken where
  head : Bytes
  payload : Http.Payload
  ends : ∃ n, find? headerEnd (head ++ payload.render) = some n ∧ n + headerEnd.length = head.length
  recognised : payload.Recognised head

namespace Spoken

def text (m : Spoken) : Bytes := m.head ++ m.payload.render

/-- A part of the message that does not end within the terminator of its chunks. -/
def Uncut (m : Spoken) (part : Bytes) : Prop :=
  ∀ chunks last, m.payload = .chunked chunks last → part = m.text ∨ part.length + lastChunk.length ≤ m.text.length

theorem headerEnd_in_text (m : Spoken) : (find? headerEnd m.text).isSome = true := by
  obtain ⟨n, hn, -⟩ := m.ends
  exact Option.isSome_iff_exists.mpr ⟨n, hn⟩

/-- A part that holds the header and not the terminator of the chunks leaves all of the terminator to be read. -/
theorem chunks_begun (m : Spoken) {part : Bytes} {pos : Nat} (hbody : identifyBody m.head = .chunked)
    (hp : part <+: m.text) (hpos : find? headerEnd part = some pos) (uncut : m.Uncut part)
    (unfound : (findFrom? lastChunk part m.head.length).isSome = false) :
    ∃ chunks last begun, m.payload = .chunked chunks last ∧ part = m.head ++ begun ∧
      begun.length + lastChunk.length ≤ m.payload.render.length := by
  obtain ⟨n, hn, hlen⟩ := m.ends
  have header := take_header hn hlen hp hpos
  have ends := bodyEnds_of_recognised m.recognised hn hlen hp hpos
  have split : part = m.head ++ part.drop (pos + headerEnd.length) := by
    conv => lhs; rw [← List.take_append_drop (pos + headerEnd.length) part, header]
  rw [header] at ends
  simp only [BodyEnds, hbody, unfound, Bool.false_eq_true, false_iff] at ends
  have recognised := m.recognised
  cases hpayload : m.payload with
  | chunked chunks last =>
    rw [← hpayload]
    refine ⟨chunks, last, _, hpayload, split, ?_⟩
    rcases uncut chunks last hpayload with whole | cut
    · exact absurd (congrArg List.length whole) ends
    · have hlen' := congrArg List.length split
      rw [List.length_append] at hlen'
      rw [text, List.length_append] at cut
      omega
  | none | sized | untilClose =>
    rw [hpayload] at recognised
    simp [Http.Payload.Recognised, hbody] at recognised

theorem uncut_nil (m : Spoken) : m.Uncut [] := by
  intro chunks last hpayload
  have recognised := m.recognised
  rw [hpayload] at recognised
  obtain ⟨-, n, -, hlen⟩ := recognised
  right
  rw [text, hpayload, List.length_append, ← hlen]
  simp only [List.length_nil]
  omega

theorem text_ne_nil (m : Spoken) : m.text ≠ [] := by
  intro hnil
  have found := m.headerEnd_in_text
  rw [hnil] at found
  cases found

end Spoken

/-- A request and its reply. However much of the request is read with its header, its version is accepted and its
    host is found. -/
structure Exchange where
  request : Spoken
  reply : Spoken
  host : Bytes
  accepted : ∀ plus, plus <+: request.text → (find? headerEnd plus).isSome = true →
    supported plus = true ∧ parseField plus (ascii "host") = .ok host

def Exchange.said (x : Exchange) : Side → Spoken
  | .client => x.request
  | .server => x.reply

/-- All that a side says. -/
def texts (side : Side) (xs : List Exchange) : Bytes := xs.flatMap fun x => (x.said side).text

theorem texts_take_succ {side : Side} {xs : List Exchange} {k : Nat} {x : Exchange} (h : xs[k]? = some x) :
    texts side (xs.take (k + 1)) = texts side (xs.take k) ++ (x.said side).text := by
  simp [texts, List.take_add_one, h]

def Script.exchanges (xs : List Exchange) (side : Side) : Script where
  side := side
  len k := (xs[k]?.map fun x => (x.said side).text.length).getD 0
  host k :=
    match side with
    | .client => xs[k]?.map Exchange.host
    | .server => none

theorem Script.exchanges_len {xs : List Exchange} {k : Nat} {x : Exchange} (h : xs[k]? = some x) (side : Side) :
    (Script.exchanges xs side).len k = (x.said side).text.length := by
  simp [Script.exchanges, h]

/-- The header of a message of the conversation is read as its script says. -/
theorem headerFits {xs : List Exchange} {x : Exchange} {side : Side} {k pos : Nat} {plus : Bytes} (hx : xs[k]? = some x)
    (hp : plus <+: (x.said side).text) (hpos : find? headerEnd plus = some pos) :
    (Script.exchanges xs side).HeaderFits k plus (plus.take (pos + headerEnd.length)) := by
  obtain ⟨n, hn, hlen⟩ := (x.said side).ends
  have len := Script.exchanges_len hx side
  refine ⟨len ▸ hp.length_le, len ▸ bodyEnds_of_recognised (x.said side).recognised hn hlen hp hpos, fun host hh => ?_⟩
  cases side with
  | client =>
    obtain rfl : host = x.host := by simpa [Script.exchanges, hx, eq_comm] using hh
    exact (x.accepted plus hp (Option.isSome_iff_exists.mpr ⟨pos, hpos⟩)).2
  | server => cases hh

/-! ### The peers -/

/-- The completions of peers and a resolver that cooperate. A peer sends what it says in the round; the resolver finds
    endpoints, the last of which accepts. -/
def Op.Welcome (xs : List Exchange) (s : Socket) : Op → Completion → Prop
  | readHeader side k, .success data _ => ∀ x ∈ xs[k]?, takenSince side k s.trace ++ data <+: (x.said side).text ∧
    (x.said side).Uncut (takenSince side k s.trace ++ data)
  | readBody side k _ _, .success data _ => ∀ x ∈ xs[k]?, takenSince side k s.trace ++ data <+: (x.said side).text
  | resolve _ _, .success _ endpoints => endpoints ≠ []
  | connect _ _, .success _ _ | write _ _ _, .success _ _ => True
  | connect _ entries, .failure _ => 1 < entries.length
  | _, .failure _ => False

/-- What happens while the peers cooperate, before the deadline. -/
def Cooperates (xs : List Exchange) (s : Socket) : Event → Prop
  | .io i c => ∀ o ∈ s.outstanding[i]?, o.op.Welcome xs s c
  | .dispatch _ | .wait | .expire => True
  | .elapse d => 0 < d ∧ s.now + d < s.timer.expiry
  | .close | .disconnect => False

/-- All is said and sent on, and the session waits for another request. -/
def Concluded (xs : List Exchange) (s : Socket) : Prop :=
  s.outstanding = [⟨.readHeader .client xs.length, none⟩] ∧ ∀ side : Side, sent side.other s.trace = texts side xs

end HttpProxy
