import DistributedAbstractions.Lib.Access
import DistributedAbstractions.Spec.FailureDetectors
import DistributedAbstractions.Spec.Rb

/-! The handlers of lazy reliable broadcast with the slots of `rb->history` that they access, and a process
with its failure detector until it is freed. -/

namespace DSA

open CLib Net Access

/-- `rb->history[rank - 1]`. -/
def historyOf (rb : Rb) (rank : ℤ) : Logged ℤ (List RbSavedMessage) := access (rank - 1) (rb.history (rank - 1))

def onCrashedAt (rb : Rb) (peerId : ℤ) : Logged ℤ RbEffects := do
  let peerHistory ← historyOf rb peerId
  return peerHistory.flatMap fun m => rbBroadcastAux rb m.msg m.id peerId

def isMessageDuplicateAt (rb : Rb) (fields : Fields) : Logged ℤ Bool := do
  let historyFromPeer ← historyOf rb fields.originalSender
  return historyFromPeer.any (·.id = fields.originalId)

def saveMessageToHistoryAt (rb : Rb) (fields : Fields) : Logged ℤ Rb := do
  let saved := savedMessage fields.originalId fields.body
  let historyFromPeer ← historyOf rb fields.originalSender
  return { rb with history := Function.update rb.history (fields.originalSender - 1) (historyFromPeer ++ [saved]) }

def onDeliveryWrapperAt (rb : Rb) (e : Deliver) : Logged ℤ (Rb × RbEffects) :=
  match openFrame rb.maxRank e.msg with
  | none => return (rb, [])
  | some fields =>
    let delivery := createRbDelivery fields
    if fields.originalSender = rb.localRank then
      if e.sender = rb.localRank then return (rb, [.indicate ⟨fields.originalId, delivery⟩]) else return (rb, [])
    else do
      let duplicate ← isMessageDuplicateAt rb fields
      if duplicate then return (rb, [])
      else do
        let rb ← saveMessageToHistoryAt rb fields
        return (rb, [.indicate ⟨fields.originalId, delivery⟩])

/-- The lists that are freed. -/
def rbFree (rb : Rb) : Logged ℤ (List (List RbSavedMessage)) :=
  ((ranks rb.maxRank).filter (· ≠ rb.localRank)).mapM (historyOf rb)

structure RbNode where
  rb : Rb
  pfd : Pfd

/-- What the application asks for, what arrives at the two ports, and the end of a control period. -/
inductive RbNodeEvent
  | broadcast (e : Broadcast)
  | data (e : Deliver)
  | control (e : Deliver)
  | timeout

/-- What is sent or indicated over the data port, and what is sent over the control port. -/
inductive RbNodeEffect
  | data (e : Effect CString Indication)
  | control (recipient : ℤ) (msg : CString)

/-- The detector calls `on_crashed` for what it indicates. -/
def onPfdEffects (rb : Rb) : PfdEffects → Logged ℤ (List RbNodeEffect)
  | [] => return []
  | .send recipient msg :: es => do
    let rest ← onPfdEffects rb es
    return .control recipient msg :: rest
  | .indicate crash :: es => do
    let sent ← onCrashedAt rb crash.peerId
    let rest ← onPfdEffects rb es
    return sent.map .data ++ rest

def rbNodeStep (node : RbNode) : RbNodeEvent → Logged ℤ (RbNode × List RbNodeEffect)
  | .broadcast e => return (node, (rbBroadcast node.rb e).map .data)
  | .data e => do
    let out ← onDeliveryWrapperAt node.rb e
    return ({ node with rb := out.1 }, out.2.map .data)
  | .control e => do
    let effects ← onPfdEffects node.rb (pfdCallback node.pfd e).2
    return ({ node with pfd := (pfdCallback node.pfd e).1 }, effects)
  | .timeout => do
    let effects ← onPfdEffects node.rb (pfdHandleTimeout node.pfd).2
    return ({ node with pfd := (pfdHandleTimeout node.pfd).1 }, effects)

def rbInit (localRank : ℤ) (maxRank : ℕ) : RbNode := ⟨(rbProtocol maxRank).init localRank, pfdInit localRank maxRank⟩

def rbNodeRun (node : RbNode) : List RbNodeEvent → Logged ℤ (RbNode × List RbNodeEffect)
  | [] => return (node, [])
  | ev :: evs => do
    let out ← rbNodeStep node ev
    let rest ← rbNodeRun out.1 evs
    return (rest.1, out.2 ++ rest.2)

/-- From `rb_init` to `rb_free`. -/
def rbLifetime (localRank : ℤ) (maxRank : ℕ) (evs : List RbNodeEvent) : Logged ℤ (List RbNodeEffect) := do
  let out ← rbNodeRun (rbInit localRank maxRank) evs
  let _ ← rbFree out.1.rb
  return out.2

/-- The slots that `rb_init` sets. -/
def IsSet (localRank : ℤ) (maxRank : ℕ) (slot : ℤ) : Prop :=
  ∃ r : ℤ, slot = r - 1 ∧ 1 ≤ r ∧ r ≤ maxRank ∧ r ≠ localRank

end DSA
