import HttpProxy.Theorems.Fields
import HttpProxy.Theorems.Outcome
import HttpProxy.Theorems.Routing

/-! The names that the resolver is asked for. They come out of `parse_field`, whatever a client writes into a request,
    and what comes out of it, where its behaviour is defined, is in lower case, with no space and no line break in it. -/

namespace HttpProxy
open Search

/-- A name in lower case, with no space and no line break in it. -/
structure Tidy (name : Bytes) : Prop where
  lower : toLowercase name = name
  spaceless : 32 ∉ name
  oneLine : ¬crlf <:+: name

/-! ### What `parse_field` returns -/

theorem tolower_tolower (c : Byte) : tolower (tolower c) = tolower c := by
  by_cases upper : 65 ≤ c ∧ c ≤ 90
  · have lowered : tolower c = c + 32 := if_pos upper
    rw [lowered]
    refine if_neg fun again => ?_
    simp only [UInt8.le_iff_toNat_le, UInt8.toNat_add] at upper again
    simp only [UInt8.reduceToNat] at upper again
    omega
  · have same : tolower c = c := if_neg upper
    rw [same, same]

/-- A part of a lowered text is lowered. -/
theorem toLowercase_infix_eq {part text : Bytes} (h : part <:+: toLowercase text) : toLowercase part = part := by
  have keep : ∀ c ∈ part, tolower c = c := by
    intro c hc
    obtain ⟨d, -, rfl⟩ := List.mem_map.mp (h.subset hc)
    exact tolower_tolower d
  exact (List.map_congr_left keep).trans (List.map_id part)

/-- What is cut out of a text is a part of it, up to a line break or to its end. -/
theorem cutFrom_part {text cut : Bytes} {start : Nat} (h : cutFrom text start = .ok cut) :
    cut <:+: text ∧ ¬crlf <:+: cut := by
  cases hstop : findFrom? crlf text start with
  | some stop =>
    obtain ⟨-, cut', hcut, -, line⟩ := cutFrom_found hstop
    obtain rfl : cut' = cut := Except.ok.inj (hcut.symm.trans h)
    refine ⟨?_, line⟩
    simp only [cutFrom, hstop, substr, Option.map_some] at h
    split at h
    · rw [← Except.ok.inj h]
      exact (List.take_prefix _ _).isInfix.trans (List.drop_suffix _ _).isInfix
    · cases h
  | none =>
    simp only [cutFrom, hstop, substr, Option.map_none] at h
    split at h
    · rename_i inside
      rw [findFrom?, if_pos inside] at hstop
      rw [← Except.ok.inj h]
      exact ⟨(List.drop_suffix _ _).isInfix, find?_eq_none_iff.mp (Option.map_eq_none_iff.mp hstop)⟩
    · cases h

theorem cutField_from (header field : Bytes) : ∃ start, cutField header field = cutFrom (toLowercase header) start := by
  cases hpos : find? (toLowercase field) (toLowercase header) with
  | some pos => exact ⟨_, cutField_found hpos⟩
  | none => exact ⟨(toLowercase field).length, by simp only [cutField, cutFrom, hpos]⟩

/-- Whatever the header and the field are, and whether the field is found or not. -/
theorem parseField_tidy {header field value : Bytes} (h : parseField header field = .ok value) : Tidy value := by
  obtain ⟨cut, hcut, hvalue⟩ := bind_eq_ok.mp h
  obtain ⟨start, hstart⟩ := cutField_from header field
  obtain ⟨inside, line⟩ := cutFrom_part (hstart.symm.trans hcut)
  rw [eraseSpaces_eq, eraseSpaceRange_of_head (head?_dropWhile_spaces cut)] at hvalue
  split at hvalue
  · cases hvalue
  · rename_i spaceless
    rw [← Except.ok.inj hvalue]
    have rest : cut.dropWhile (· = 32) <:+: cut := (List.dropWhile_suffix _).isInfix
    exact ⟨toLowercase_infix_eq (rest.trans inside), spaceless, fun hline => line (hline.trans rest)⟩

/-! ### What a step adds to the log -/

/-- A step logs nothing that it does not leave outstanding as started. -/
structure Adds (s t : Socket) (newer : List Action) : Prop where
  log : t.trace = newer ++ s.trace
  started : ∀ op, .start op ∈ newer → ∃ q, ⟨op, q⟩ ∈ t.outstanding

theorem Outcome.adds {s t : Socket} (h : Outcome s t) : ∃ newer, Adds s t newer := by
  have passive : ∀ {newer : List Action} {op : Op}, (∀ a ∈ newer, a.Passive) → .start op ∉ newer :=
    fun hn hmem => hn _ hmem
  cases h with
  | @returns newer hn htr => exact ⟨newer, htr, fun op hop => absurd hop (passive hn)⟩
  | @closes newer hn htr =>
    refine ⟨.stop :: newer, htr, fun op hop => ?_⟩
    rcases List.mem_cons.mp hop with hop | hop
    · cases hop
    · exact absurd hop (passive hn)
  | @starts newer op q hn htr _ _ _ ho =>
    refine ⟨.start op :: newer, htr, fun op' hop => ?_⟩
    rcases List.mem_cons.mp hop with hop | hop
    · cases hop
      exact ⟨q, ho ▸ List.mem_singleton_self _⟩
    · exact absurd hop (passive hn)

theorem step_adds {s t : Socket} {e : Event} (c : Chain s) (hs : session.Step s e t) : ∃ newer, Adds s t newer := by
  have nothing : ∀ {t : Socket}, t.trace = s.trace → ∃ newer, Adds s t newer :=
    fun htr => ⟨[], htr, fun op hop => absurd hop List.not_mem_nil⟩
  cases c.move hs with
  | @io op q ho hq =>
    refine ⟨op.shows q, rfl, fun op' hop => ?_⟩
    cases op <;> cases q <;> simp [Op.shows] at hop
  | @dispatch op q t ho hr =>
    rcases Socket.resume_outcome rfl hr with ⟨-, -, htr, -⟩ | ⟨op', ec, -, out⟩
    · exact nothing htr
    · obtain ⟨newer, hlog, started⟩ := out.adds
      refine ⟨newer ++ [.finish op' ec s.now], hlog.trans (by simp), fun op'' hop => started op'' ?_⟩
      rcases List.mem_append.mp hop with hop | hop
      · exact hop
      · cases List.mem_singleton.mp hop
  | close =>
    cases running : s.stopped
    · rw [Socket.close_of_not_stopped running]
      refine ⟨[.stop], rfl, fun op hop => ?_⟩
      cases List.mem_singleton.mp hop
    · rw [Socket.close_of_stopped running]
      exact nothing rfl
  | @wait ec queue hq =>
    rcases Socket.handleWait_log { s with timer := { s.timer with queue := queue } } ec with
      ⟨htr, -⟩ | ⟨-, -, htr, -⟩ | ⟨-, -, htr, -⟩
    · exact nothing htr
    · exact ⟨[.stop, .timedOut s.now], htr, fun op hop => by simp at hop⟩
    · exact ⟨[.wait], htr, fun op hop => by simp at hop⟩
  | expire | elapse | disconnect => exact nothing rfl

/-! ### What the resolver is asked for -/

/-- A name that a request of the client gave. -/
def Given (log : List Action) (k : Nat) (host : Bytes) : Prop :=
  ∃ request, .host k request host ∈ log ∧ parseField request (ascii "host") = .ok host

/-- In the whole life of a session, as long as the trim of `parse_field` is defined, the resolver is asked only for
    names that `parse_field` read out of the request of that round: nothing that a client writes puts a space, a line
    break or an upper-case letter into one. -/
theorem resolver_asked {s : Socket} (h : session.Reachable s) :
    ∀ k host, .start (.resolve k host) ∈ s.trace → Tidy host ∧ Given s.trace k host := by
  have given : ∀ k host, .start (.resolve k host) ∈ s.trace → Given s.trace k host := by
    refine h.invariant (I := fun s => ∀ k host, .start (.resolve k host) ∈ s.trace → Given s.trace k host)
      (fun s ⟨now, hs⟩ k host asked => ?_) fun s e t hr given hs k host asked => ?_
    · rw [hs] at asked
      simp [Socket.start, Socket.getMessageFromClient, Socket.new] at asked
    · obtain ⟨newer, hlog, started⟩ := step_adds (reachable_chain hr) hs
      rw [hlog] at asked
      rcases List.mem_append.mp asked with asked | asked
      · -- It waits for the resolver now.
        obtain ⟨q, ho⟩ := started _ asked
        obtain ⟨⟨⟨request, named, found, -⟩, rfl⟩, -⟩ := reachable_routes (.step e hr hs) _ ho
        exact ⟨request, named, found⟩
      · obtain ⟨request, named, found⟩ := given k host asked
        exact ⟨request, hlog ▸ List.mem_append_right _ named, found⟩
  intro k host asked
  obtain ⟨request, named, found⟩ := given k host asked
  exact ⟨parseField_tidy found, request, named, found⟩

/-- The session of the sample asked for one name. -/
theorem resolver_asked_sample : Tidy (ascii "a.com") ∧ Given afterSample.trace 0 (ascii "a.com") :=
  resolver_asked afterSample_reachable 0 (ascii "a.com") (by decide +kernel)

end HttpProxy
