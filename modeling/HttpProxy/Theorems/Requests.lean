import HttpProxy.Theorems.Framing
import HttpProxy.Theorems.Routing
import HttpProxy.Theorems.Transparency

/-! The stream of the client is a concatenation of requests. In a session whose reads of the client agree with
    them, round `k` hands on request `k` and nothing else, to a server found for its host. -/

namespace HttpProxy
open Search Log

/-- The requests that the client sends, one in each round. -/
def Script.requests (rs : List Http.Request) : Script where
  side := .client
  len k := (rs[k]?.map fun r => r.render.length).getD 0
  host k := rs[k]?.map fun r => toLowercase r.host

/-- The stream of a list of requests. -/
def stream (rs : List Http.Request) : Bytes := rs.flatMap Http.Request.render

variable {rs : List Http.Request} {r : Http.Request} {s : Socket} {k n : Nat}

theorem Http.Request.headerEnd_in_render (r : Http.Request) : (find? headerEnd r.render).isSome = true := by
  obtain ⟨n, hn, -⟩ := r.find?_head r.payload.render
  exact Option.isSome_iff_exists.mpr ⟨n, hn⟩

theorem stream_take_succ (h : rs[k]? = some r) : stream (rs.take (k + 1)) = stream (rs.take k) ++ r.render := by
  simp [stream, List.take_add_one, h]

/-- What follows the first `k` requests begins with request `k`. -/
theorem prefix_of_stream {msg : Bytes} (h : stream (rs.take k) ++ msg <+: stream rs) (hr : rs[k]? = some r) :
    msg <+: r.render ++ stream (rs.drop (k + 1)) := by
  obtain ⟨hlt, hget⟩ := List.getElem?_eq_some_iff.mp hr
  have split : stream rs = stream (rs.take k) ++ (r.render ++ stream (rs.drop (k + 1))) := by
    conv => lhs; rw [← List.take_append_drop k rs, List.drop_eq_getElem_cons hlt, hget]
    simp [stream]
  rw [split] at h
  exact (List.prefix_append_right_inj _).mp h

/-- A message that follows the first `k` requests and is as long as request `k` is that request. -/
theorem request_of_prefix {msg : Bytes} (h : stream (rs.take k) ++ msg <+: stream rs) (hne : msg ≠ [])
    (hlen : msg.length = (Script.requests rs).len k) : ∃ r, rs[k]? = some r ∧ msg = r.render := by
  cases hr : rs[k]? with
  | none =>
    have h0 : msg.length = 0 := by simpa [Script.requests, hr] using hlen
    exact absurd (List.eq_nil_of_length_eq_zero h0) hne
  | some r =>
    have hlen : msg.length = r.render.length := by simpa [Script.requests, hr] using hlen
    have hpre := List.prefix_of_prefix_length_le (prefix_of_stream h hr) (List.prefix_append _ _) (Nat.le_of_eq hlen)
    exact ⟨r, rfl, hpre.eq_of_length hlen⟩

theorem taken_grows (side : Side) (a : Action) (log : List Action) : taken side log <+: taken side (a :: log) := by
  cases a with
  | taken side' data =>
    rw [taken]
    split
    · exact List.prefix_append _ _
    · exact List.prefix_refl _
  | _ => exact List.prefix_refl _

theorem taken_grows_append (side : Side) (newer older : List Action) :
    taken side older <+: taken side (newer ++ older) := by
  induction newer with
  | nil => exact List.prefix_refl _
  | cons a newer ih => exact ih.trans (taken_grows side a _)

/-- The number of requests whose write to the server starts among the first `n` places. -/
def requestsIn (n : Nat) : Nat := (n + 3) / 5

/-- Only the place of such a write adds a request. -/
theorem requestsIn_succ (h : n % 5 ≠ 1) : requestsIn (n + 1) = requestsIn n := by
  simp only [requestsIn]
  omega

theorem requestsIn_of_lt (h : 5 * k + 1 < n) (h' : n ≤ 5 * k + 6) : requestsIn n = k + 1 := by
  simp only [requestsIn]
  omega

theorem requestsIn_write : requestsIn (5 * k + 1) = k := by
  simp only [requestsIn]
  omega

/-- An action that starts no write to the server passes no place of one. -/
theorem handed_server_cons {a : Action} (h : ∀ k msg, a ≠ .start (.write .server k msg)) (log : List Action) :
    handed .server (a :: log) = handed .server log ∧ ∀ m, milestone a = some m → m % 5 ≠ 1 := by
  constructor
  · cases a with
    | start op =>
      cases op with
      | write side k msg =>
        cases side
        · rfl
        · exact absurd rfl (h k msg)
      | _ => rfl
    | _ => rfl
  · intro m hm
    unfold milestone at hm
    split at hm
    case h_2 => exact absurd rfl (h _ _)
    case h_6 => cases hm
    all_goals
      rw [Option.some.injEq] at hm
      omega

/-- After `n` places, the requests handed on are those whose write is among the places. -/
theorem handed_requests : ∀ {log : List Action} {n : Nat}, milestones log = (List.range n).reverse →
    Always WriteExact log → (∀ a ∈ log, a.Fits (.requests rs)) → taken .client log <+: stream rs →
    handed .server log = stream (rs.take (requestsIn n))
  | [], n, hn, _, _, _ => by
    have h0 : n = 0 := by simpa [milestones] using (congrArg List.length hn).symm
    subst h0
    rfl
  | a :: log, n, hn, hw, hf, ht => by
    have ht' := (taken_grows .client a log).trans ht
    have hf' : ∀ b ∈ log, b.Fits (.requests rs) := fun b hb => hf b (List.mem_cons_of_mem a hb)
    by_cases hwrite : ∃ k msg, a = .start (.write .server k msg)
    · obtain ⟨k, msg, rfl⟩ := hwrite
      obtain ⟨hn', before⟩ := milestones_cons_inv (m := 5 * k + 1) hn rfl
      have ih := handed_requests before hw.2 hf' ht'
      rw [requestsIn_write] at ih
      -- The write takes the stream one request further.
      obtain ⟨hne, hlen⟩ := hf _ List.mem_cons_self rfl
      have hpre : stream (rs.take k) ++ msg <+: stream rs := by
        rw [← ih, hw.1.2]
        exact ht'
      obtain ⟨r, hr, rfl⟩ := request_of_prefix hpre hne hlen
      rw [hn', requestsIn_of_lt (k := k) (by omega) (by omega), stream_take_succ hr, ← ih]
      rfl
    · obtain ⟨hkeep, hplace⟩ := handed_server_cons (fun k msg ha => hwrite ⟨k, msg, ha⟩) log
      rw [hkeep]
      cases hm : milestone a with
      | none =>
        rw [milestones_cons_none hm] at hn
        exact handed_requests hn hw.2 hf' ht'
      | some m =>
        obtain ⟨hn', before⟩ := milestones_cons_inv hn hm
        rw [hn', requestsIn_succ (hplace m hm)]
        exact handed_requests before hw.2 hf' ht'

/-! ### A session that agrees with the requests -/

/-- What was handed on when the log passed `n` places. -/
theorem handed_before (h : session.Within (Framed (.requests rs)) s) (hs : taken .client s.trace <+: stream rs)
    (newer : List Action) {older : List Action} (hl : s.trace = newer ++ older)
    (hn : milestones older = (List.range n).reverse) : handed .server older = stream (rs.take (requestsIn n)) := by
  have ht := reachable_transparent h.reachable
  refine handed_requests hn (Always.of_append (hl ▸ ht.writes)) (fun a ha => (within_fitting h).log a ?_) ?_
  · rw [hl]
    exact List.mem_append_right _ ha
  · rw [hl] at hs
    exact (taken_grows_append .client newer older).trans hs

/-- A write to the server starts with the request of its round, after all requests before it. -/
theorem request_written (h : session.Within (Framed (.requests rs)) s) (hs : taken .client s.trace <+: stream rs)
    {newer older : List Action} {msg : Bytes} (hl : s.trace = newer ++ .start (.write .server k msg) :: older) :
    ∃ r, rs[k]? = some r ∧ msg = r.render ∧ handed .server older = stream (rs.take k) := by
  obtain ⟨n, hn, -⟩ := (reachable_chain h.reachable).schedule
  have before : milestones older = (List.range (5 * k + 1)).reverse := milestones_before hn hl rfl
  have handedOn := handed_before h hs (newer ++ [.start (.write .server k msg)]) (by simp [hl]) before
  rw [requestsIn_write] at handedOn
  obtain ⟨-, exact⟩ := (hl ▸ (reachable_transparent h.reachable).writes).split
  have hpre : stream (rs.take k) ++ msg <+: stream rs := by
    rw [← handedOn, exact]
    exact (taken_grows_append .client (newer ++ [.start (.write .server k msg)]) older).trans (by simpa [hl] using hs)
  obtain ⟨hne, hlen⟩ := (within_fitting h).log (.start (.write .server k msg)) (by rw [hl]; simp) rfl
  obtain ⟨r, hr, hmsg⟩ := request_of_prefix hpre hne hlen
  exact ⟨r, hr, hmsg, handedOn⟩

theorem start_of_milestone {a : Action} (h : milestone a = some (5 * k + 1)) :
    ∃ msg, a = .start (.write .server k msg) := by
  unfold milestone at h
  split at h <;> simp only [Option.some.injEq, reduceCtorEq] at h <;> first | omega | skip
  rename_i k' msg
  obtain rfl : k' = k := by omega
  exact ⟨msg, rfl⟩

/-- An outstanding write to the server is on the log. -/
theorem Chain.write_started (c : Chain s) {rest : Bytes} {q : Option Completion}
    (ho : ⟨.write .server k rest, q⟩ ∈ s.outstanding) :
    ∃ newer older msg, s.trace = newer ++ .start (.write .server k msg) :: older := by
  obtain ⟨n, hn, hr⟩ := c.schedule
  have hreached : 5 * k + 2 = n := hr _ ho
  have passed : 5 * k + 1 ∈ milestones s.trace := by
    rw [hn, ← hreached]
    simp
  obtain ⟨a, ha, ham⟩ := List.mem_filterMap.mp passed
  obtain ⟨msg, rfl⟩ := start_of_milestone ham
  obtain ⟨newer, older, hl⟩ := List.append_of_mem ha
  exact ⟨newer, older, msg, hl⟩

/-- The write of a request goes to an endpoint that was found for the host it names. -/
theorem request_routed (h : session.Within (Framed (.requests rs)) s) (hr : rs[k]? = some r) {rest : Bytes}
    {q : Option Completion} (ho : ⟨.write .server k rest, q⟩ ∈ s.outstanding) :
    ∃ entry entries, s.serverSocket = .connected entry ∧ entry ∈ entries ∧
      .resolved (toLowercase r.host) entries ∈ s.trace := by
  obtain ⟨⟨⟨request, hlog, -⟩, entry, hconn, hname, entries, hres, hmem⟩, -⟩ := reachable_routes h.reachable _ ho
  have host : s.currHost = toLowercase r.host :=
    (within_fitting h).log _ hlog rfl _ (by simp [Script.requests, hr])
  rw [hname, host] at hres
  exact ⟨entry, entries, hconn, hmem, hres⟩

theorem Op.reads_client {op : Op} (h : op.reads .client = true) :
    op.reached = 5 * op.msgId + 1 ∧ op.handedOn .client = false := by
  cases op with
  | readHeader side k | readBody side k =>
    cases side
    · exact ⟨rfl, rfl⟩
    · cases h
  | resolve | connect | write => cases h

/-- A read of the client that waits has taken a part of the request, and not all of it. -/
theorem request_awaited (h : session.Within (Framed (.requests rs)) s) (hs : taken .client s.trace <+: stream rs)
    {op : Op} (ho : ⟨op, none⟩ ∈ s.outstanding) (hop : op.reads .client = true) (hr : rs[op.msgId]? = some r) :
    takenSince .client op.msgId s.trace <+: r.render ∧ takenSince .client op.msgId s.trace ≠ r.render := by
  have ht := reachable_transparent h.reachable
  obtain ⟨n, hn, hreached⟩ := (reachable_chain h.reachable).schedule
  obtain ⟨hplaces, hon⟩ := Op.reads_client hop
  -- What was taken in this round follows the requests handed on.
  have handedOn := handed_before h hs [] rfl hn
  rw [← hreached _ ho, hplaces, requestsIn_write] at handedOn
  have total := ht.total _ ho .client
  rw [hon, if_neg Bool.false_ne_true, Side.other, handedOn] at total
  have follows := prefix_of_stream (total ▸ hs) hr
  have short : ¬r.render <+: takenSince .client op.msgId s.trace :=
    (within_fitting h).read_short ht ho hop (by simp [Script.requests, hr]) r.headerEnd_in_render
  rcases List.prefix_or_prefix_of_prefix follows (List.prefix_append _ _) with hpre | hpre
  · exact ⟨hpre, fun he => short (he ▸ List.prefix_refl _)⟩
  · exact absurd hpre short

/-- In a run whose reads of the client all agree with the requests it sends, the write of round `k` starts with
    exactly request `k`, over a connection to an endpoint found for the host it names; when the reply of round `k`
    is handed to the client, requests `0` to `k` are what was sent to servers, and the reply is what came since
    the round began; and a read of the client goes on only as long as its request is not complete. -/
theorem request_framing {rs : List Http.Request} {s : Socket} (h : session.Within (Framed (.requests rs)) s)
    (hs : taken .client s.trace <+: stream rs) :
    (∀ newer older k msg, s.trace = newer ++ .start (.write .server k msg) :: older →
      ∃ r, rs[k]? = some r ∧ msg = r.render ∧ handed .server older = stream (rs.take k)) ∧
    (∀ k rest q, ⟨.write .server k rest, q⟩ ∈ s.outstanding → ∃ r entry entries, rs[k]? = some r ∧
      s.serverSocket = .connected entry ∧ entry ∈ entries ∧ .resolved (toLowercase r.host) entries ∈ s.trace) ∧
    (∀ newer older k reply, s.trace = newer ++ .start (.write .client k reply) :: older →
      handed .server older = stream (rs.take (k + 1)) ∧ reply = takenSince .server k older) ∧
    ∀ op r, ⟨op, none⟩ ∈ s.outstanding → op.reads .client = true → rs[op.msgId]? = some r →
      takenSince .client op.msgId s.trace <+: r.render ∧ takenSince .client op.msgId s.trace ≠ r.render := by
  have c := reachable_chain h.reachable
  refine ⟨fun newer older k msg hl => request_written h hs hl, fun k rest q ho => ?_, fun newer older k reply hl => ?_,
    fun op r ho hop hr => request_awaited h hs ho hop hr⟩
  · obtain ⟨newer, older, msg, hl⟩ := c.write_started ho
    obtain ⟨r, hr, -⟩ := request_written h hs hl
    obtain ⟨entry, entries, route⟩ := request_routed h hr ho
    exact ⟨r, entry, entries, hr, route⟩
  · obtain ⟨n, hn, -⟩ := c.schedule
    have before : milestones older = (List.range (5 * k + 3)).reverse := milestones_before hn hl rfl
    have handedOn := handed_before h hs (newer ++ [.start (.write .client k reply)]) (by simp [hl]) before
    rw [requestsIn_of_lt (k := k) (by omega) (by omega)] at handedOn
    exact ⟨handedOn, (hl ▸ (reachable_transparent h.reachable).writes).split.1⟩

/-! ### Sample requests -/

def hostA : Http.Field := .plain (ascii "Host") (ascii "A.com") (by decide +kernel)

def hostB : Http.Field := .plain (ascii "Host") (ascii "b.com") (by decide +kernel)

def lengthThree : Http.Field := .plain (ascii "Content-Length") (ascii "3") (by decide +kernel)

/-- A request with a body of three bytes. -/
def samplePost : Http.Request where
  method := ascii "POST"
  target := ascii "http://a.com/"
  minor := 49
  fields := [hostA, lengthThree]
  payload := .sized (ascii "abc")
  host := ascii "A.com"
  line_words := by decide +kernel
  framed := ⟨rfl, ascii "3", by decide +kernel⟩
  delimited := rfl
  named := by decide +kernel

/-- A request without a body, for another host. -/
def sampleGet : Http.Request where
  method := ascii "GET"
  target := ascii "/"
  minor := 49
  fields := [hostB]
  payload := .none
  host := ascii "b.com"
  line_words := by decide +kernel
  framed := ⟨rfl, rfl⟩
  delimited := rfl
  named := by decide +kernel

/-- Two rounds: the first request comes in three segments, cut in its header and in its body. -/
def twoRequests : List Event :=
  [.io 0 (.success (samplePost.render.take 30) []), .dispatch 0,
    .io 0 (.success ((samplePost.render.drop 30).take 34) []), .dispatch 0,
    .io 0 (.success (samplePost.render.drop 64) []), .dispatch 0, .io 0 (.success [] [⟨1, 80⟩]), .dispatch 0,
    .io 0 (.success [] []), .dispatch 0, .io 0 (.success samplePost.render []), .dispatch 0,
    .io 0 (.success sampleReply []), .dispatch 0, .dispatch 0, .io 0 (.success sampleReply []), .dispatch 0,
    .io 0 (.success sampleGet.render []), .dispatch 0, .io 0 (.success [] [⟨2, 80⟩]), .dispatch 0,
    .io 0 (.success [] []), .dispatch 0]

def afterTwoRequests : Socket := (session.exec (Socket.new 0).start twoRequests).getD (Socket.new 0).start

theorem twoRequests_run :
    session.Run (Socket.new 0).start (session.trail (Socket.new 0).start twoRequests) afterTwoRequests := by
  refine .of_exec ?_
  decide +kernel

theorem request_framing_sample :
    handed .server afterTwoRequests.trace.tail = samplePost.render ∧
    ∃ entry entries, afterTwoRequests.serverSocket = .connected entry ∧ entry ∈ entries ∧
      .resolved (ascii "b.com") entries ∈ afterTwoRequests.trace := by
  have framed : ∀ p ∈ session.trail (Socket.new 0).start twoRequests,
      Framed (.requests [samplePost, sampleGet]) p.1 p.2 := by decide +kernel
  have within : session.Within (Framed (.requests [samplePost, sampleGet])) afterTwoRequests :=
    twoRequests_run.within ⟨0, rfl⟩ framed
  have fed : taken .client afterTwoRequests.trace <+: stream [samplePost, sampleGet] := by decide +kernel
  have last : afterTwoRequests.trace = [] ++ .start (.write .server 1 sampleGet.render) :: afterTwoRequests.trace.tail := by
    decide +kernel
  have writing : ⟨.write .server 1 sampleGet.render, none⟩ ∈ afterTwoRequests.outstanding := by decide +kernel
  obtain ⟨written, routed, -⟩ := request_framing within fed
  obtain ⟨-, -, -, before⟩ := written [] _ 1 _ last
  obtain ⟨r, entry, entries, hr, route⟩ := routed 1 _ _ writing
  cases Option.some.inj hr
  exact ⟨before, entry, entries, route⟩

/-- Two requests in one segment: both are written to the server of the first. -/
def pipelined : List Event :=
  [.io 0 (.success (stream [sampleGet, samplePost]) []), .dispatch 0, .io 0 (.success [] [⟨2, 80⟩]), .dispatch 0,
    .io 0 (.success [] []), .dispatch 0]

def afterPipelined : Socket := (session.exec (Socket.new 0).start pipelined).getD (Socket.new 0).start

theorem request_misframed : ¬∀ (rs : List Http.Request) s, session.Reachable s → taken .client s.trace <+: stream rs →
    ∀ newer older k msg, s.trace = newer ++ .start (.write .server k msg) :: older →
      ∃ r, rs[k]? = some r ∧ msg = r.render := by
  intro framed
  have reached : session.Reachable afterPipelined := (session_start 0).exec_getD
  have fed : taken .client afterPipelined.trace <+: stream [sampleGet, samplePost] := by decide +kernel
  have written : afterPipelined.trace =
      [] ++ .start (.write .server 0 (stream [sampleGet, samplePost])) :: afterPipelined.trace.tail := by decide +kernel
  obtain ⟨r, hr, hmsg⟩ := framed _ _ reached fed _ _ _ _ written
  cases Option.some.inj hr
  exact absurd hmsg (by decide +kernel)

/-! ### Requests that are recognised -/

/-- However a request that `read_body` recognises is cut, the branch for its header ends where it does, as long as
    no more is read. -/
theorem request_recognised {plus : Bytes} {pos : Nat} (hr : r.payload.Recognised r.head) (hp : plus <+: r.render)
    (hpos : find? headerEnd plus = some pos) :
    BodyEnds r.render.length plus (plus.take (pos + headerEnd.length)) := by
  obtain ⟨n, hn, hlen⟩ := r.find?_head r.payload.render
  exact bodyEnds_of_recognised hr hn hlen hp hpos

end HttpProxy
