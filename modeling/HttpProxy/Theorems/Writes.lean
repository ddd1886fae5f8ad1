import HttpProxy.Theorems.Outcome

/-! The writes of a session. When a write is done, all that it was given has been sent; and the writes alternate: a
    request is completely written before a byte of its reply is sent on, and the reply before the next request is
    read. -/

namespace HttpProxy
open Log

/-- The bytes sent to a side since the write of message `k` to it was started. -/
def sentSince (side : Side) (k : Nat) : List Action → Bytes
  | [] => []
  | .sent side' _ data :: log => if side' = side then sentSince side k log ++ data else sentSince side k log
  | .start (.write side' k' _) :: log => if side' = side ∧ k' = k then [] else sentSince side k log
  | _ :: log => sentSince side k log

/-- A write of message `k` was started, and what it was given is sent, apart from what is left. -/
def SentUpTo (side : Side) (k : Nat) (left : Bytes) (log : List Action) : Prop :=
  ∃ msg, .start (.write side k msg) ∈ log ∧ sentSince side k log ++ left = msg

/-- A write that is done has sent all that it was given. -/
def WroteAll : Action → List Action → Prop
  | .finish (.write side k []) none _, older => SentUpTo side k [] older
  | _, _ => True

/-- What an outstanding write has still to send. -/
def Outstanding.unsent : Outstanding → Bytes
  | ⟨.write _ _ rest, some (.success data _)⟩ => rest.drop data.length
  | ⟨.write _ _ rest, _⟩ => rest
  | _ => []

/-- An operation that goes on is a write only when it was one, and has still to send what was left. -/
theorem next_write {op : Op} {c : Completion} {side : Side} {k : Nat} {rest : Bytes} (h : op.next c = .write side k rest) :
    ∃ rest', op = .write side k rest' ∧ Outstanding.unsent ⟨op, some c⟩ = rest := by
  cases op with
  | write side' k' rest' => cases c <;> cases h <;> exact ⟨_, rfl, rfl⟩
  | connect k' entries => rcases entries with _ | ⟨entry, entries⟩ <;> cases c <;> cases h
  | readHeader | readBody | resolve => cases c <;> cases h

/-- A write is done when nothing is left. -/
theorem final_write {s : Socket} {op : Op} {c : Completion} {side : Side} {k : Nat} {rest : Bytes}
    (h : op.final s c = some (.write side k rest, none)) :
    ∃ rest', op = .write side k rest' ∧ Outstanding.unsent ⟨op, some c⟩ = [] := by
  cases op with
  | write side' k' rest' =>
    cases c with
    | success data endpoints =>
      simp only [Op.final] at h
      split at h
      · rename_i hrest
        cases h
        exact ⟨rest', rfl, hrest⟩
      · cases h
    | failure ec => cases h
  | readHeader | readBody =>
    cases c <;> simp only [Op.final] at h
    · split at h <;> cases h
    · cases h
  | connect k' entries => rcases entries with _ | ⟨entry, _ | ⟨next, entries⟩⟩ <;> cases c <;> cases h
  | resolve => cases c <;> cases h

structure Delivering (s : Socket) : Prop where
  done : Always WroteAll s.trace
  left : ∀ o ∈ s.outstanding, ∀ side k rest, o.op = .write side k rest → SentUpTo side k o.unsent s.trace

/-- An action of the timer or of `close`. -/
def Action.ofTimer : Action → Bool
  | .stop | .wait | .timedOut _ => true
  | _ => false

namespace SentUpTo
variable {side : Side} {k : Nat} {left : Bytes} {newer log : List Action}

/-- A write starts with all of its bytes left. -/
theorem start : SentUpTo side k left (.start (.write side k left) :: log) :=
  ⟨left, List.mem_cons_self, by simp [sentSince]⟩

theorem sent {data : Bytes} (h : SentUpTo side k left log) (hd : data <+: left) :
    SentUpTo side k (left.drop data.length) (.sent side k data :: log) := by
  obtain ⟨msg, hstart, hmsg⟩ := h
  have split : data ++ left.drop data.length = left := List.prefix_iff_eq_append.mp hd
  exact ⟨msg, List.mem_cons_of_mem _ hstart, by rw [sentSince, if_pos rfl, List.append_assoc, split, hmsg]⟩

theorem append (h : SentUpTo side k left log) (hn : ∀ a ∈ newer, a.ofTimer = true) :
    SentUpTo side k left (newer ++ log) := by
  obtain ⟨msg, hstart, hmsg⟩ := h
  refine ⟨msg, List.mem_append_right _ hstart, ?_⟩
  induction newer with
  | nil => exact hmsg
  | cons a newer ih =>
    have timed := hn a List.mem_cons_self
    have rest := ih fun b hb => hn b (List.mem_cons_of_mem _ hb)
    cases a with
    | stop | wait | timedOut => exact rest
    | start | finish | taken | sent | resolved | host => cases timed

end SentUpTo

/-- What neither ends an operation nor belongs to one leaves the writes that are done as they are. -/
theorem wroteAll_append {newer log : List Action} (h : Always WroteAll log)
    (hn : ∀ a ∈ newer, ∀ op ec time, a ≠ .finish op ec time) : Always WroteAll (newer ++ log) := by
  refine (always_append fun a ha older => ?_).mpr h
  cases a with
  | finish op ec time => exact absurd rfl (hn _ ha op ec time)
  | _ => trivial

theorem not_finish_of_passive {a : Action} (h : a.Passive) (op : Op) (ec : Option ErrorCode) (time : Nat) :
    a ≠ .finish op ec time := by
  rintro rfl
  exact h

namespace Delivering
variable {s t : Socket}

/-- A change that logs only what the timer or `close` does. -/
theorem frame (h : Delivering s) (newer : List Action) {f : Outstanding → Outstanding}
    (hf : ∀ o, (f o).op = o.op ∧ (f o).unsent = o.unsent) (ho : t.outstanding = s.outstanding.map f)
    (ht : t.trace = newer ++ s.trace) (hn : ∀ a ∈ newer, a.ofTimer = true) : Delivering t where
  done := by
    rw [ht]
    refine wroteAll_append h.done fun a ha op ec time he => ?_
    have timed := hn a ha
    rw [he] at timed
    cases timed
  left o ho' side k rest hop := by
    rw [ho] at ho'
    obtain ⟨o, hmem, rfl⟩ := List.mem_map.mp ho'
    rw [(hf o).1] at hop
    rw [(hf o).2, ht]
    exact (h.left o hmem side k rest hop).append hn

theorem quiet (h : Delivering s) (ho : t.outstanding = s.outstanding) (ht : t.trace = s.trace) : Delivering t :=
  h.frame [] (f := id) (fun _ => ⟨rfl, rfl⟩) (by rw [ho, List.map_id]) ht fun _ ha => absurd ha List.not_mem_nil

theorem closing_unsent (o : Outstanding) : (s.closing o).unsent = o.unsent := by
  obtain ⟨op, q⟩ := o
  rw [Socket.closing_eq]
  rcases Socket.closing_completion s ⟨op, q⟩ with hq | ⟨rfl, hq⟩ <;> rw [hq]
  cases op <;> rfl

theorem close (h : Delivering s) : Delivering s.close := by
  cases running : s.stopped
  · refine h.frame [.stop] (f := s.closing) (fun o => ⟨Socket.closing_op, closing_unsent o⟩) ?_ ?_
      fun a ha => ?_
    · rw [Socket.close_of_not_stopped running]
    · rw [Socket.close_of_not_stopped running]
      rfl
    · rw [List.mem_singleton.mp ha]
      rfl
  · rw [Socket.close_of_stopped running]
    exact h

theorem log (h : Delivering s) {a : Action} (ha : a.ofTimer = true) : Delivering (s.log a) :=
  h.frame [a] (f := id) (fun _ => ⟨rfl, rfl⟩) (List.map_id _).symm rfl fun b hb => by
    rw [List.mem_singleton.mp hb]
    exact ha

theorem handleWait (h : Delivering s) (ec : Option ErrorCode) : Delivering (s.handleWait ec) := by
  rcases Socket.handleWait_cases s ec with hw | ⟨-, -, hw⟩ | ⟨-, -, hw⟩ <;> rw [hw]
  · exact h
  · exact (h.log (a := .timedOut s.now) rfl).close
  · exact (h.log (a := .wait) rfl).quiet rfl rfl

/-- A step of a write sends a part of what is left. -/
theorem io (h : Delivering s) {op : Op} {c : Completion} (ho : s.outstanding = [⟨op, none⟩])
    (hc : op.allows c = true) :
    Delivering { s with outstanding := [⟨op, some c⟩], trace := op.shows c ++ s.trace } where
  done := wroteAll_append h.done fun a ha => not_finish_of_passive (shows_passive a ha)
  left o ho' side k rest hop := by
    rw [List.mem_singleton.mp ho'] at hop ⊢
    obtain rfl : op = .write side k rest := hop
    have left := h.left ⟨.write side k rest, none⟩ (ho ▸ List.mem_singleton_self _) side k rest rfl
    cases c with
    | failure ec => exact left
    | success data endpoints =>
      simp only [Op.allows, Bool.and_eq_true, List.isPrefixOf_iff_prefix] at hc
      exact left.sent hc.1.2

/-- A completion is of a write that goes on with what is left, or that is done, or another operation follows. -/
theorem dispatch (h : Delivering s) {op : Op} {c : Completion} (ho : s.outstanding = [⟨op, some c⟩])
    (hr : { s with outstanding := [] }.resume op c = .ok t) : Delivering t := by
  have left : ∀ side k rest, op = .write side k rest → SentUpTo side k (Outstanding.unsent ⟨op, some c⟩) s.trace :=
    fun side k rest hop => h.left ⟨op, some c⟩ (ho ▸ List.mem_singleton_self _) side k rest hop
  rcases Socket.resume_outcome rfl hr with ⟨-, hone, htr, -⟩ | ⟨op', ec, hfinal, out⟩
  · refine ⟨htr ▸ h.done, fun o ho' side k rest hop => ?_⟩
    rw [hone] at ho'
    rw [List.mem_singleton.mp ho'] at hop ⊢
    have hop : op.next c = .write side k rest := hop
    obtain ⟨rest', rfl, hrest⟩ := next_write hop
    rw [htr, hop]
    exact hrest ▸ left side k rest' rfl
  · have finished : Always WroteAll (.finish op' ec s.now :: s.trace) := by
      refine ⟨?_, h.done⟩
      unfold WroteAll
      split
      · rename_i side k time he
        cases he
        obtain ⟨rest', rfl, hrest⟩ := final_write hfinal
        exact hrest ▸ left side k rest' rfl
      · trivial
    cases out with
    | @returns newer hn htr _ _ _ hnil =>
      refine ⟨?_, fun o ho' => ?_⟩
      · rw [htr]
        exact wroteAll_append finished fun a ha => not_finish_of_passive (hn a ha)
      · rw [hnil] at ho'
        cases ho'
    | @closes newer hn htr _ _ _ _ hnil =>
      refine ⟨?_, fun o ho' => ?_⟩
      · rw [htr]
        exact ⟨trivial, wroteAll_append finished fun a ha => not_finish_of_passive (hn a ha)⟩
      · rw [hnil] at ho'
        cases ho'
    | @starts newer op'' q hn htr _ _ _ hone hq =>
      refine ⟨?_, fun o ho' side k rest hop => ?_⟩
      · rw [htr]
        exact ⟨trivial, wroteAll_append finished fun a ha => not_finish_of_passive (hn a ha)⟩
      · -- What starts has all of its bytes left, also when it has none.
        rw [hone] at ho'
        rw [List.mem_singleton.mp ho'] at hop ⊢
        obtain rfl : op'' = .write side k rest := hop
        have whole : Outstanding.unsent ⟨.write side k rest, q⟩ = rest := by
          cases q with
          | none => rfl
          | some c => rcases hq c rfl with rfl | rfl <;> rfl
        rw [htr, whole]
        exact .start

theorem step {e : Event} (h : Delivering s) (chain : Chain s) (hs : session.Step s e t) : Delivering t := by
  cases chain.move hs with
  | io ho hc => exact h.io ho hc
  | dispatch ho hr => exact h.dispatch ho hr
  | close => exact h.close
  | @wait ec queue =>
    exact (h.quiet (t := { s with timer := { s.timer with queue := queue } }) rfl rfl).handleWait ec
  | expire | elapse | disconnect => exact h.quiet rfl rfl

end Delivering

theorem start_delivering (now : Nat) : Delivering (Socket.new now).start where
  done := ⟨trivial, trivial, trivial⟩
  left o ho side k rest hop := by
    rw [List.mem_singleton.mp ho] at hop
    cases hop

theorem reachable_delivering {s : Socket} (h : session.Reachable s) : Delivering s :=
  h.invariant (fun _ ⟨now, hs⟩ => hs ▸ start_delivering now) fun _ _ _ hr hd hs => hd.step (reachable_chain hr) hs

/-! ### The order of the writes -/

/-- Message `k` is completely written to a side: its write is done, and by then all bytes that the write was given had
    been sent to that side. -/
def Written (side : Side) (k : Nat) (log : List Action) : Prop :=
  ∃ newer older msg time, log = newer ++ .finish (.write side k []) none time :: older ∧
    .start (.write side k msg) ∈ older ∧ sentSince side k older = msg

theorem finish_of_milestone {a : Action} {side : Side} {k : Nat}
    (h : milestone a = milestone (.finish (.write side k []) none 0)) :
    ∃ time, a = .finish (.write side k []) none time := by
  cases side
  · replace h : milestone a = some (5 * k + 4) := h
    unfold milestone at h
    split at h <;> simp only [Option.some.injEq, reduceCtorEq] at h <;> first | omega | skip
    rename_i k' time
    obtain rfl : k' = k := by omega
    exact ⟨time, rfl⟩
  · replace h : milestone a = some (5 * k + 2) := h
    unfold milestone at h
    split at h <;> simp only [Option.some.injEq, reduceCtorEq] at h <;> first | omega | skip
    rename_i k' time
    obtain rfl : k' = k := by omega
    exact ⟨time, rfl⟩

theorem written_of_milestones {side : Side} {k m n : Nat} {log : List Action} (done : Always WroteAll log)
    (hlog : milestones log = (List.range m).reverse) (hm : milestone (.finish (.write side k []) none 0) = some n)
    (hlt : n < m) : Written side k log := by
  have hmem : n ∈ milestones log := by
    rw [hlog]
    simpa using hlt
  obtain ⟨a, ha, han⟩ := List.mem_filterMap.mp hmem
  obtain ⟨time, rfl⟩ := finish_of_milestone (han.trans hm.symm)
  obtain ⟨newer, older, rfl⟩ := List.append_of_mem ha
  obtain ⟨msg, hstart, hmsg⟩ := done.split
  rw [List.append_nil] at hmsg
  exact ⟨newer, older, msg, time, rfl, hstart, hmsg⟩

/-- A session is a single chain: in every reachable state at most one operation is outstanding, and it is of the
    newest entry; an entry is added only in the handler of the outstanding operation, with no other one left;
    and the writes alternate. -/
theorem single_chain {s : Socket} (h : session.Reachable s) :
    (s.outstanding.length ≤ 1 ∧ ∀ o ∈ s.outstanding, o.op.msgId = s.messages.length - 1) ∧
    (∀ e t, session.Step s e t → t.messages.length ≠ s.messages.length →
      (∃ o, s.outstanding = [o] ∧ e = .dispatch 0) ∧
        t.outstanding = [⟨.readHeader .client s.messages.length, none⟩]) ∧
    (∀ newer older k data, s.trace = newer ++ .sent .client k data :: older → Written .server k older) ∧
    (∀ newer older k, s.trace = newer ++ .start (.readHeader .client (k + 1)) :: older → Written .client k older) ∧
    (∀ newer older side k msg, s.trace = newer ++ .start (.write side k msg) :: older →
      ∀ msg', .start (.write side k msg') ∉ older) := by
  have c := reachable_chain h
  have done := (reachable_delivering h).done
  obtain ⟨n, hn, -⟩ := c.schedule
  refine ⟨⟨c.single, fun o ho => ?_⟩, fun e t hs hne => ?_, fun newer older k data hl => ?_,
    fun newer older k hl => ?_, fun newer older side k msg hl msg' hmem => ?_⟩
  · have := c.current o ho
    omega
  · cases c.move hs with
    | dispatch ho hr =>
      rcases Socket.resume_messages hr with hm | ⟨-, hout⟩
      · exact absurd hm hne
      · exact ⟨⟨_, ho, rfl⟩, hout⟩
    | wait => exact absurd (congrArg List.length Socket.handleWait_messages) hne
    | close => exact absurd (congrArg List.length Socket.close_messages) hne
    | io | expire | elapse | disconnect => exact absurd rfl hne
  · -- The place before the bytes sent is the start of that write, which comes after the write to the server.
    obtain ⟨rest, hlast⟩ := (hl ▸ c.sent).split
    obtain ⟨m, hm⟩ := milestones_older (newer ++ [.sent .client k data]) hn (by
      rw [hl, List.append_assoc]
      rfl)
    have before : Always WroteAll (.sent .client k data :: older) := Always.of_append (hl ▸ done)
    refine written_of_milestones before.2 hm rfl ?_
    rw [hm] at hlast
    cases m with
    | zero => cases hlast
    | succ m =>
      rw [List.range_succ, List.reverse_append] at hlast
      have : m = 5 * k + 3 := Option.some.inj hlast
      omega
  · have hm := milestones_before (m := 5 * (k + 1)) hn hl rfl
    have before : Always WroteAll (.start (.readHeader .client (k + 1)) :: older) := Always.of_append (hl ▸ done)
    exact written_of_milestones before.2 hm rfl (by omega)
  · have hn' : ∃ n, milestone (.start (.write side k msg)) = some n ∧ milestone (.start (.write side k msg')) = some n := by
      cases side <;> exact ⟨_, rfl, rfl⟩
    obtain ⟨m, hm, hm'⟩ := hn'
    have hold := milestones_before hn hl hm
    have : m ∈ milestones older := List.mem_filterMap.mpr ⟨_, hmem, hm'⟩
    rw [hold] at this
    simp at this

theorem single_chain_sample : afterSample.messages.length = 2 ∧ afterSample.outstanding.length ≤ 1 ∧
    ∀ o ∈ afterSample.outstanding, o.op.msgId = 1 := by
  have hlen : afterSample.messages.length = 2 := by decide +kernel
  obtain ⟨⟨hone, hid⟩, -⟩ := single_chain afterSample_reachable
  exact ⟨hlen, hone, fun o ho => by rw [hid o ho, hlen]⟩

end HttpProxy
