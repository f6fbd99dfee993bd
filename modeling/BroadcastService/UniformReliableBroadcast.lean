import BroadcastService.MessagePassing
import BroadcastService.BestEffortBroadcast
import BroadcastService.Payload
import BroadcastService.UnorderedMap

/-!
# The uniform reliable broadcast object and its network

`primitives/uniform_reliable_broadcast.hpp` on an explicit state. `acks` is a map with default 0, as
the handler uses it. A `MessageID` is a natural number below `2 ^ 32`; the identifier
counter counts draws and wraps when it is read. `URBOutput` records the calls of `Broadcast` with
the identifier they drew, the best-effort broadcasts and the invocations of the callback.

The garbage collection loop increments a 32-bit counter. A result of `none` stands for a call that
never returns.
-/

namespace BroadcastService
open MessagePassing

@[ext] structure URBIdentifier (P : Type*) where
  peer : P
  urbId : ℕ
  deriving DecidableEq

structure URBMessage (P : Type*) where
  source : P
  urbId : ℕ
  message : Bytes
  deriving DecidableEq

def URBMessage.identifier {P : Type*} (m : URBMessage P) : URBIdentifier P := ⟨m.source, m.urbId⟩

inductive URBOutput (P : Type*)
  | broadcast (urbId : ℕ) (message : Bytes)
  | beb (message : URBMessage P)
  | deliver (identifier : URBIdentifier P) (message : Bytes)
  deriving DecidableEq

structure UniformReliableBroadcast (P : Type*) where
  ids : ℕ := 0
  pending : MRMWUnorderedMap (URBIdentifier P) Bytes := {}
  delivered : Finset (URBIdentifier P) := ∅
  acks : URBIdentifier P → ℕ := fun _ => 0
  deliveredPrefixCleaned : P → Option ℕ := fun _ => none
  deliveredPrefixToClean : P → Option ℕ := fun _ => none

variable {P : Type*} [DecidableEq P]

def canDeliver (networkSize numAcks : ℕ) : Bool := decide (networkSize / 2 < numAcks)

namespace UniformReliableBroadcast

def wasDelivered (urb : UniformReliableBroadcast P) (x : URBIdentifier P) : Bool :=
  (urb.deliveredPrefixCleaned x.peer).any (fun c => decide (x.urbId ≤ c)) ||
    decide (x ∈ urb.delivered)

/-- The loop `for (urb_id = start; urb_id <= end; ++urb_id) delivered_.erase({peer, urb_id})`. -/
def eraseSegment (peer : P) (segmentEnd : ℕ) :
    ℕ → ℕ → Finset (URBIdentifier P) → Option (Finset (URBIdentifier P))
  | 0, _, _ => none
  | fuel + 1, urbId, delivered =>
      if urbId ≤ segmentEnd then
        eraseSegment peer segmentEnd fuel ((urbId + 1) % idSpace) (delivered.erase ⟨peer, urbId⟩)
      else some delivered

/-- A loop that is still running after `idSpace` iterations has seen a counter value twice. -/
def deliveredGarbageCollection (urb : UniformReliableBroadcast P) (peer : P) :
    Option (UniformReliableBroadcast P) :=
  match urb.deliveredPrefixToClean peer with
  | none => some urb
  | some segmentEnd =>
      let start := (urb.deliveredPrefixCleaned peer).elim 0 fun c => (c + 1) % idSpace
      (eraseSegment peer segmentEnd (idSpace + 1) start urb.delivered).map fun delivered =>
        if start ≤ segmentEnd then
          { urb with
            delivered
            deliveredPrefixCleaned :=
              Function.update urb.deliveredPrefixCleaned peer (some segmentEnd) }
        else { urb with delivered }

def receive (networkSize : ℕ) (urb : UniformReliableBroadcast P) (m : URBMessage P) :
    UniformReliableBroadcast P × List (URBOutput P) :=
  let x := m.identifier
  let numAcks := urb.acks x + 1
  let urb := { urb with acks := Function.update urb.acks x numAcks }
  match urb.pending.get x with
  | none => ({ urb with pending := urb.pending.set x m.message }, [.beb m])
  | some message =>
      if canDeliver networkSize numAcks && !urb.wasDelivered x then
        ({ urb with
            delivered := insert x urb.delivered
            pending := (urb.pending.take x).2
            acks := Function.update urb.acks x 0 },
          [.deliver x message])
      else (urb, [])

def onMessage (networkSize : ℕ) (urb : UniformReliableBroadcast P) (m : URBMessage P) :
    Option (UniformReliableBroadcast P × List (URBOutput P)) :=
  if urb.wasDelivered m.identifier then some (urb, [])
  else (urb.deliveredGarbageCollection m.source).map fun urb => urb.receive networkSize m

def getNextID (urb : UniformReliableBroadcast P) : ℕ × UniformReliableBroadcast P :=
  (urb.ids % idSpace, { urb with ids := urb.ids + 1 })

def broadcast (localID : P) (message : Bytes) (urbId : ℕ) (urb : UniformReliableBroadcast P) :
    UniformReliableBroadcast P × List (URBOutput P) :=
  ({ urb with pending := urb.pending.set ⟨localID, urbId⟩ message },
    [.broadcast urbId message, .beb ⟨localID, urbId, message⟩])

def cleanDeliveredPrefix (peer : P) (messagePrefix : ℕ) (urb : UniformReliableBroadcast P) :
    UniformReliableBroadcast P :=
  { urb with
    deliveredPrefixToClean :=
      Function.update urb.deliveredPrefixToClean peer (some messagePrefix) }

end UniformReliableBroadcast

inductive URBInput (P : Type*)
  | broadcast (message : Bytes)
  | cleanDeliveredPrefix (peer : P) (messagePrefix : ℕ)

def deliveredIds (t : List (URBOutput P)) : List (URBIdentifier P) :=
  t.filterMap fun o => match o with
    | .deliver x _ => some x
    | _ => none

namespace UniformReliableBroadcast

def onInput (localID : P) (urb : UniformReliableBroadcast P) :
    URBInput P → UniformReliableBroadcast P × List (URBOutput P)
  | .broadcast message =>
      let (urbId, urb) := urb.getNextID
      urb.broadcast localID message urbId
  | .cleanDeliveredPrefix peer messagePrefix => (urb.cleanDeliveredPrefix peer messagePrefix, [])

end UniformReliableBroadcast

/-- A process broadcasts while it has identifiers left, and lets a prefix of a peer's identifiers be
cleaned once it has delivered all of it. -/
def URBInput.enabled (urb : UniformReliableBroadcast P) (t : List (URBOutput P)) :
    URBInput P → Bool
  | .broadcast _ => decide (urb.ids < idSpace)
  | .cleanDeliveredPrefix peer messagePrefix =>
      decide (messagePrefix < idSpace) &&
        decide (∀ i ≤ messagePrefix, (⟨peer, i⟩ : URBIdentifier P) ∈ deliveredIds t)

def urbEmit {n : ℕ} (me : Fin n) : URBOutput (Fin n) → List (Fin n × URBMessage (Fin n))
  | .beb message => bestEffortBroadcast me message
  | _ => []

def urbProgram (n : ℕ) : Program (Fin n) (UniformReliableBroadcast (Fin n)) (URBMessage (Fin n))
    (URBInput (Fin n)) (URBOutput (Fin n)) where
  start _ := {}
  enabled _ urb t x := x.enabled urb t
  onInput me urb x := some (urb.onInput me x)
  onMessage _ urb _ m := urb.onMessage n m
  emit := urbEmit

namespace UniformReliableBroadcast

/-- With the largest `MessageID` as its end the loop never ends. -/
theorem eraseSegment_last {peer : P} {e : ℕ} (he : idSpace ≤ e + 1) (fuel : ℕ) {urbId : ℕ}
    (hid : urbId < idSpace) (delivered : Finset (URBIdentifier P)) :
    eraseSegment peer e fuel urbId delivered = none := by
  induction fuel generalizing urbId delivered with
  | zero => rfl
  | succ fuel ih =>
      rw [eraseSegment, if_pos (by omega)]
      apply ih
      exact Nat.mod_lt _ (by norm_num [idSpace])

theorem mem_of_eraseSegment {peer : P} {e fuel : ℕ} {urbId : ℕ} (hid : urbId < idSpace)
    {delivered delivered' : Finset (URBIdentifier P)}
    (h : eraseSegment peer e fuel urbId delivered = some delivered') (x : URBIdentifier P) :
    x ∈ delivered' ↔ x ∈ delivered ∧ ¬(x.peer = peer ∧ urbId ≤ x.urbId ∧ x.urbId ≤ e) := by
  have he : e + 1 < idSpace := by
    by_contra hge
    rw [eraseSegment_last (by omega) fuel hid] at h
    cases h
  induction fuel generalizing urbId delivered with
  | zero => cases h
  | succ fuel ih =>
      rw [eraseSegment] at h
      split_ifs at h with hle
      · rw [Nat.mod_eq_of_lt (by omega)] at h
        have hrest := ih (show urbId + 1 < idSpace by omega) h
        apply hrest.trans
        rw [Finset.mem_erase]
        have hne : x ≠ ⟨peer, urbId⟩ ↔ ¬(x.peer = peer ∧ x.urbId = urbId) := by
          rw [ne_eq, URBIdentifier.ext_iff]
        rw [hne]
        constructor
        · rintro ⟨⟨h₁, h₂⟩, h₃⟩
          refine ⟨h₂, fun ⟨hp, hl, hu⟩ => ?_⟩
          by_cases hx : x.urbId = urbId
          · exact h₁ ⟨hp, hx⟩
          · exact h₃ ⟨hp, by omega, hu⟩
        · rintro ⟨h₁, h₂⟩
          exact ⟨⟨fun ⟨hp, hx⟩ => h₂ ⟨hp, by omega, by omega⟩, h₁⟩,
            fun ⟨hp, hl, hu⟩ => h₂ ⟨hp, by omega, hu⟩⟩
      · obtain rfl := Option.some.inj h
        have hempty : ¬(x.peer = peer ∧ urbId ≤ x.urbId ∧ x.urbId ≤ e) := by omega
        simp [hempty]

theorem eraseSegment_isSome {peer : P} {e fuel urbId : ℕ} (he : e + 1 < idSpace)
    (hfuel : e + 1 - urbId < fuel) (delivered : Finset (URBIdentifier P)) :
    (eraseSegment peer e fuel urbId delivered).isSome = true := by
  induction fuel generalizing urbId delivered with
  | zero => omega
  | succ fuel ih =>
      rw [eraseSegment]
      split_ifs with hle
      · rw [Nat.mod_eq_of_lt (by omega)]
        apply ih
        omega
      · rfl

end UniformReliableBroadcast

end BroadcastService
