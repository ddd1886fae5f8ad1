import HttpProxy.Library.Transition
import HttpProxy.Library.Log
import Mathlib.Data.List.Basic

/-! What a session is for, told without HTTP: a relay between parties that belong together in pairs. It takes a
    message of one of them, stores it, and passes it on to the other, who then has its turn. It invents nothing and
    loses nothing, and it takes nothing more before all that it holds is passed on.

    The items, the parties and how they are cut into transfers are left open. -/

namespace HttpProxy
open Log

/-- Parties that belong together in pairs. -/
class Paired (ι : Type*) where
  peer : ι → ι
  peer_peer : ∀ i, peer (peer i) = i

export Paired (peer peer_peer)

/-- What passes between a relay and a party. -/
inductive Transfer (ι α : Type*) where
  | took (source : ι) (items : List α)
  | gave (target : ι) (items : List α)

namespace Relay
variable {ι α : Type*} [DecidableEq ι]

/-- All items taken from a party. -/
def took (i : ι) : List (Transfer ι α) → List α
  | [] => []
  | .took j items :: log => if j = i then took i log ++ items else took i log
  | .gave _ _ :: log => took i log

/-- All items given to a party. -/
def gave (i : ι) : List (Transfer ι α) → List α
  | [] => []
  | .gave j items :: log => if j = i then gave i log ++ items else gave i log
  | .took _ _ :: log => gave i log

variable [Paired ι]

/-- What a party is given was taken from its peer before; and a party is listened to only when all that was taken
    from others is passed on, and all that was taken from itself as well, once the passing on has begun. -/
def InTurn : Transfer ι α → List (Transfer ι α) → Prop
  | .gave i items, older => gave i older ++ items <+: took (peer i) older
  | .took i _, older => (∀ j, j ≠ i → took j older = gave (peer j) older) ∧
    ∀ items, older.head? = some (.gave (peer i) items) → took i older = gave (peer i) older

end Relay

theorem peer_injective {ι : Type*} [Paired ι] : Function.Injective (peer : ι → ι) :=
  Function.LeftInverse.injective peer_peer

/-- A relay, with all its transfers, newest first. -/
structure Relay (ι α : Type*) [DecidableEq ι] [Paired ι] where
  log : List (Transfer ι α)
  /-- The party whose message is under way. -/
  source : ι
  /-- Whether the message is being passed on. -/
  forwarding : Bool
  held : List α
  /-- What was taken from a party is what its peer was given, and what is held of it. -/
  conserved : ∀ i, Relay.took i log = Relay.gave (peer i) log ++ if i = source then held else []
  /-- Between the end of a message and the next nothing is held. -/
  whole : forwarding = false → ∀ items, log.head? = some (.gave (peer source) items) → held = []
  inTurn : Always Relay.InTurn log

namespace Relay
variable {ι α : Type*} [DecidableEq ι] [Paired ι]

/-- A relay that listens to a party first. -/
def start (i : ι) : Relay ι α where
  log := []
  source := i
  forwarding := false
  held := []
  conserved j := by
    split <;> rfl
  whole _ _ _ := rfl
  inTurn := trivial

def take (r : Relay ι α) (h : r.forwarding = false) (items : List α) : Relay ι α where
  log := .took r.source items :: r.log
  source := r.source
  forwarding := false
  held := r.held ++ items
  conserved i := by
    rw [took, gave, r.conserved]
    by_cases hi : i = r.source
    · simp [hi]
    · simp [hi, Ne.symm hi]
  whole _ _ hl := by cases hl
  inTurn := by
    refine ⟨⟨fun j hj => ?_, fun items hl => ?_⟩, r.inTurn⟩
    · rw [r.conserved, if_neg hj, List.append_nil]
    · rw [r.conserved, if_pos rfl, r.whole h items hl, List.append_nil]

def turn (r : Relay ι α) : Relay ι α where
  log := r.log
  source := r.source
  forwarding := true
  held := r.held
  conserved := r.conserved
  whole h := by cases h
  inTurn := r.inTurn

def give (r : Relay ι α) (items : List α) (h : items <+: r.held) : Relay ι α where
  log := .gave (peer r.source) items :: r.log
  source := r.source
  forwarding := true
  held := r.held.drop items.length
  conserved i := by
    rw [took, gave, r.conserved]
    by_cases hi : i = r.source
    · have split : items ++ r.held.drop items.length = r.held := List.prefix_iff_eq_append.mp h
      simp [hi, split]
    · have other : peer r.source ≠ peer i := fun he => hi (peer_injective he).symm
      simp [hi, other]
  whole h := by cases h
  inTurn := by
    refine ⟨?_, r.inTurn⟩
    rw [InTurn, peer_peer, r.conserved, if_pos rfl]
    exact (List.prefix_append_right_inj _).mpr h

def pass (r : Relay ι α) (h : r.held = []) : Relay ι α where
  log := r.log
  source := peer r.source
  forwarding := false
  held := []
  conserved i := by
    rw [r.conserved, h]
    simp
  whole _ _ _ := rfl
  inTurn := r.inTurn

end Relay

inductive RelayEvent (α : Type*) where
  | take (items : List α)
  /-- The message is complete. -/
  | turn
  | give (items : List α)
  /-- The message is passed on, and its target has its turn. -/
  | pass

namespace Relay
variable {ι α : Type*} [DecidableEq ι] [Paired ι] [DecidableEq α]

def step (r : Relay ι α) : RelayEvent α → Option (Except Empty (Relay ι α))
  | .take items => if h : r.forwarding = false then some (.ok (r.take h items)) else none
  | .turn => if r.forwarding = false then some (.ok r.turn) else none
  | .give items => if h : r.forwarding = true ∧ items <+: r.held then some (.ok (r.give items h.2)) else none
  | .pass => if h : r.forwarding = true ∧ r.held = [] then some (.ok (r.pass h.2)) else none

end Relay

/-- A relay that begins with the party `i`. -/
def relay (α : Type*) {ι : Type*} [DecidableEq ι] [Paired ι] [DecidableEq α] (i : ι) :
    Machine (Relay ι α) (RelayEvent α) Empty where
  Init r := r = Relay.start i
  step := Relay.step

end HttpProxy
