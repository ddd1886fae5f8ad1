import HttpProxy.Theorems.Conversation
import HttpProxy.Theorems.Serving

/-! Attendance. The conversation of one client goes on whatever the process does for the others, as long as none of
    them ends it. -/

namespace HttpProxy
open Search

/-- A step of a session that takes it further is a step of the process. -/
theorem Server.step_of_cooperation {s : Server} {i : Nat} {x y : Socket} {e : Event} {xs : List Exchange}
    (hx : s.sessions[i]? = some x) (cooperates : Cooperates xs x e) (h : session.Step x e y) :
    ∃ e' u, ServerEvent.part e' i = some e ∧ server.Step s e' u := by
  cases e with
  | elapse d => exact ⟨.elapse d, _, rfl, rfl⟩
  | close | disconnect => exact cooperates.elim
  | io | dispatch | expire | wait =>
    exact ⟨.session i _, _, by simp [ServerEvent.part], Server.step_of_session hx rfl h⟩

/-- As long as the process lives and what session `i` goes through is a conversation with peers that cooperate, whatever
    the other clients and their servers do: either it came to where all is sent on, or it still comes there under every
    further course of its own events, unless one of the others ends the process, and the process can take it further. -/
theorem clients_attended {s₀ t : Server} {ps : List (Server × ServerEvent)} (init : server.Init s₀)
    (run : server.Run s₀ ps t) {i : Nat} {x : Socket} (hx : t.sessions[i]? = some x) (xs : List Exchange)
    (cooperate : ∀ q ∈ hosting.view i ps, Cooperates xs q.1 q.2) :
    (∃ q ∈ hosting.view i ps, Concluded xs q.1) ∨ Concluded xs x ∨
      session.Attains (Cooperates xs) (Concluded xs) x ∧
        ∃ e e' u, Cooperates xs x e ∧ ServerEvent.part e' i = some e ∧ server.Step t e' u := by
  obtain ⟨now, run'⟩ := session_run init run hx
  rcases (start_attains xs now).run run' cooperate with passed | attains
  · exact Or.inl passed
  · right
    cases attains with
    | goal concluded => exact Or.inl concluded
    | step possible safe next =>
      right
      refine ⟨.step possible safe next, ?_⟩
      obtain ⟨e, out, cooperates, hstep⟩ := possible
      cases out with
      | error f => exact absurd ⟨f, hstep⟩ (safe e cooperates)
      | ok y =>
        obtain ⟨e', u, hpart, hs⟩ := Server.step_of_cooperation hx cooperates hstep
        exact ⟨e, e', u, cooperates, hpart, hs⟩

/-- A client waits five seconds, and the next one sends what ends the process when it is handled. -/
def neighbours : List ServerEvent :=
  [.arrive 0, .accept 0, .arrive 0, .accept 0, .elapse (5 * 10 ^ 9), .session 1 (.io 0 (.success twoWords []))]

def afterNeighbours : Server := (server.exec (Server.main 0) neighbours).getD (Server.main 0)

theorem neighbours_run : server.Run (Server.main 0) (server.trail (Server.main 0) neighbours) afterNeighbours := by
  refine .of_exec ?_
  decide +kernel

theorem clients_attended_neighbours :
    session.Attains (Cooperates [sampleExchange.exchange]) (Concluded [sampleExchange.exchange])
      { (Socket.new 0).start with now := 5 * 10 ^ 9 } := by
  have first : afterNeighbours.sessions[0]? = some { (Socket.new 0).start with now := 5 * 10 ^ 9 } := by decide +kernel
  have seen : hosting.view 0 (server.trail (Server.main 0) neighbours) =
      [((Socket.new 0).start, .elapse (5 * 10 ^ 9))] := by decide +kernel
  have patient : Cooperates [sampleExchange.exchange] (Socket.new 0).start (.elapse (5 * 10 ^ 9)) := by
    constructor <;> decide +kernel
  have cooperate : ∀ q ∈ hosting.view 0 (server.trail (Server.main 0) neighbours),
      Cooperates [sampleExchange.exchange] q.1 q.2 := by
    rw [seen]
    exact List.forall_mem_singleton.mpr patient
  rcases clients_attended ⟨0, rfl⟩ neighbours_run first [sampleExchange.exchange] cooperate with
    ⟨q, hq, waiting, -⟩ | ⟨waiting, -⟩ | ⟨attains, -⟩
  · rw [seen] at hq
    rw [List.mem_singleton.mp hq] at waiting
    exact absurd waiting (by decide +kernel)
  · exact absurd waiting (by decide +kernel)
  · exact attains

end HttpProxy
