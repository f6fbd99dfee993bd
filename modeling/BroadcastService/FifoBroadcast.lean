import BroadcastService.UniformReliableBroadcast

/-!
# The FIFO broadcast object

`primitives/fifo_broadcast.hpp` on an explicit state. A pending map is the list of its entries in
the order of their keys, as an ordered map iterates over them. A promise and its future are one
contract, named by the number of contracts made before it.

The drain loop compares the next identifier with the key behind an iterator before it asks whether
the iterator points to an entry. The model stops there and records `readEnd`.
-/

namespace BroadcastService
open MessagePassing

variable {P : Type*} [DecidableEq P]

structure FIFOBroadcast (P : Type*) where
  urb : UniformReliableBroadcast P := {}
  pendings : P → List (ℕ × Bytes) := fun _ => []
  nextIds : P → ℕ := fun _ => 0
  broadcastMessageEntries : MRMWUnorderedMap ℕ ℕ := {}
  contracts : ℕ := 0

structure FIFODelivery (P : Type*) where
  peer : P
  id : ℕ
  message : Bytes
  fulfilled : Option ℕ
  deriving DecidableEq

/-- `future` is the contract that `Broadcast` returns with the identifier it was made for, and
`deliver` a call of `Deliver` with the contract it fulfils. -/
inductive FIFOOutput (P : Type*)
  | urb (output : URBOutput P)
  | future (contract urbId : ℕ)
  | deliver (delivery : FIFODelivery P)
  | readEnd (peer : P)
  deriving DecidableEq

/-- `emplace` of an ordered map: a key that is present keeps its value. -/
def emplace (id : ℕ) (message : Bytes) : List (ℕ × Bytes) → List (ℕ × Bytes)
  | [] => [(id, message)]
  | e :: pending =>
      if id < e.1 then (id, message) :: e :: pending
      else if id = e.1 then e :: pending
      else e :: emplace id message pending

namespace FIFOBroadcast

def deliver (localID : P) (fifo : FIFOBroadcast P) (peer : P) (id : ℕ) (message : Bytes) :
    FIFOBroadcast P × FIFODelivery P :=
  let fifo := { fifo with urb := fifo.urb.cleanDeliveredPrefix peer id }
  if peer = localID then
    let (entry, entries) := fifo.broadcastMessageEntries.take id
    ({ fifo with broadcastMessageEntries := entries }, ⟨peer, id, message, entry⟩)
  else (fifo, ⟨peer, id, message, none⟩)

/-- The loop over the pending entries of a peer; the argument is what is left of them. -/
def drain (localID peer : P) :
    List (ℕ × Bytes) → FIFOBroadcast P → FIFOBroadcast P × List (FIFOOutput P)
  | [], fifo => (fifo, [.readEnd peer])
  | (id, message) :: rest, fifo =>
      if fifo.nextIds peer = id then
        let fifo :=
          { fifo with
            nextIds := Function.update fifo.nextIds peer ((fifo.nextIds peer + 1) % idSpace)
            pendings := Function.update fifo.pendings peer rest }
        let (fifo, delivery) := fifo.deliver localID peer id message
        let (fifo, outs) := drain localID peer rest fifo
        (fifo, .deliver delivery :: outs)
      else (fifo, [])

/-- `GetUniformReliableBroadcastCallback`. -/
def onURBDelivery (localID : P) (fifo : FIFOBroadcast P) (x : URBIdentifier P) (message : Bytes) :
    FIFOBroadcast P × List (FIFOOutput P) :=
  let (fifo, outs) :=
    if fifo.nextIds x.peer = x.urbId then
      let fifo :=
        { fifo with
          nextIds := Function.update fifo.nextIds x.peer ((fifo.nextIds x.peer + 1) % idSpace) }
      let (fifo, delivery) := fifo.deliver localID x.peer x.urbId message
      (fifo, [.deliver delivery])
    else
      ({ fifo with
          pendings := Function.update fifo.pendings x.peer
            (emplace x.urbId message (fifo.pendings x.peer)) }, [])
  let (fifo, outs') := fifo.drain localID x.peer (fifo.pendings x.peer)
  (fifo, outs ++ outs')

def broadcast (localID : P) (fifo : FIFOBroadcast P) (message : Bytes) :
    FIFOBroadcast P × List (FIFOOutput P) :=
  let contract := fifo.contracts
  let (messageId, urb) := fifo.urb.getNextID
  let entries := fifo.broadcastMessageEntries.set messageId contract
  let (urb, outs) := urb.broadcast localID message messageId
  ({ fifo with urb, broadcastMessageEntries := entries, contracts := contract + 1 },
    .future contract messageId :: outs.map .urb)

/-- The callback of the URB layer runs for each of its deliveries. -/
def onURBOutputs (localID : P) :
    List (URBOutput P) → FIFOBroadcast P → FIFOBroadcast P × List (FIFOOutput P)
  | [], fifo => (fifo, [])
  | .deliver x message :: urbOuts, fifo =>
      let (fifo, outs) := fifo.onURBDelivery localID x message
      let (fifo, outs') := onURBOutputs localID urbOuts fifo
      (fifo, .urb (.deliver x message) :: outs ++ outs')
  | o :: urbOuts, fifo =>
      let (fifo, outs) := onURBOutputs localID urbOuts fifo
      (fifo, .urb o :: outs)

def onMessage (networkSize : ℕ) (localID : P) (fifo : FIFOBroadcast P) (m : URBMessage P) :
    Option (FIFOBroadcast P × List (FIFOOutput P)) :=
  (fifo.urb.onMessage networkSize m).map fun (urb, outs) =>
    { fifo with urb }.onURBOutputs localID outs

end FIFOBroadcast

def fifoEmit {n : ℕ} (me : Fin n) : FIFOOutput (Fin n) → List (Fin n × URBMessage (Fin n))
  | .urb o => urbEmit me o
  | _ => []

/-- `n` processes with the FIFO layer over the URB layer over perfect links. -/
def fifoProgram (n : ℕ) : Program (Fin n) (FIFOBroadcast (Fin n)) (URBMessage (Fin n)) Bytes
    (FIFOOutput (Fin n)) where
  start _ := {}
  enabled _ fifo _ _ := decide (fifo.urb.ids < idSpace)
  onInput me fifo message := some (fifo.broadcast me message)
  onMessage me fifo _ m := fifo.onMessage n me m
  emit := fifoEmit

end BroadcastService
