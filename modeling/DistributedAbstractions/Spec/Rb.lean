import DistributedAbstractions.Spec.BcFrame

/-! Lazy reliable broadcast over perfect links with a failure detector, and its
processes when some of them crash. Allocations succeed. -/

namespace DSA

open CLib Net Trans

/-- `id` is the text that is read from there. -/
structure RbSavedMessage where
  id : CString
  msg : CString
deriving DecidableEq

/-- `strncpy` leaves an id that fills its buffer without an end, and `msg` is what stands behind the buffer. -/
def savedMessage (originalId body : CString) : RbSavedMessage :=
  let msg := body.take MAX_MSG_LEN
  ⟨if originalId.length < UUID_STR_LEN then originalId else originalId.take UUID_STR_LEN ++ msg, msg⟩

/-- `history` is indexed by rank - 1. The slot of the process itself is never
initialised, and no handler below reads it unless the process is told of its own crash. -/
structure Rb where
  localRank : ℤ
  maxRank : ℕ
  history : ℤ → List RbSavedMessage

/-- Requests of the application and notifications of the failure detector. -/
inductive RbRequest
  | broadcast (e : Broadcast)
  | crashed (peerId : ℤ)
deriving DecidableEq

abbrev RbEffects := List (Effect CString Indication)

/-- No send fails. -/
def rbBroadcastAux (rb : Rb) (content originalId : CString) (originalSender : ℤ) : RbEffects :=
  (sendLoop (fun _ => true) (bcFrame ⟨originalSender, originalId, content⟩) (ranks rb.maxRank)).1

def onCrashed (rb : Rb) (peerId : ℤ) : RbEffects :=
  (rb.history (peerId - 1)).flatMap fun m => rbBroadcastAux rb m.msg m.id peerId

def isMessageDuplicate (rb : Rb) (fields : Fields) : Bool :=
  (rb.history (fields.originalSender - 1)).any (·.id = fields.originalId)

def saveMessageToHistory (rb : Rb) (fields : Fields) : Rb :=
  let saved := savedMessage fields.originalId fields.body
  let slot := fields.originalSender - 1
  { rb with history := Function.update rb.history slot (rb.history slot ++ [saved]) }

def onDeliveryWrapper (rb : Rb) (e : Deliver) : Rb × RbEffects :=
  match openFrame rb.maxRank e.msg with
  | none => (rb, [])
  | some fields =>
    let delivery := createRbDelivery fields
    if fields.originalSender = rb.localRank then
      if e.sender = rb.localRank then (rb, [.indicate ⟨fields.originalId, delivery⟩]) else (rb, [])
    else if isMessageDuplicate rb fields then (rb, [])
    else (saveMessageToHistory rb fields, [.indicate ⟨fields.originalId, delivery⟩])

def rbBroadcast (rb : Rb) (e : Broadcast) : RbEffects :=
  rbBroadcastAux rb e.msg e.uuid rb.localRank

def rbProtocol (maxRank : ℕ) : Protocol Unit Rb RbRequest CString Indication where
  init localRank := ⟨localRank, maxRank, fun _ => []⟩
  handle _ rb
    | .call (.broadcast e) => (rb, rbBroadcast rb e)
    | .call (.crashed peerId) => (rb, onCrashed rb peerId)
    | .receive sender msg => onDeliveryWrapper rb ⟨msg, sender⟩

abbrev RbState := State Rb RbRequest CString Indication
abbrev RbEvent := Event Unit RbRequest CString

def rbSystem (maxRank : ℕ) : System RbState RbEvent :=
  system (rbProtocol maxRank) (crashSetting maxRank)

def RbRequest.broadcast? : RbRequest → Option Broadcast
  | .broadcast e => some e
  | .crashed _ => none

/-- The failure detector reports only peers that have crashed. -/
def Accurate (maxRank : ℕ) (s : RbState) : RbEvent → Prop
  | .act _ _ (.call (.crashed q)) _ => q ∈ peers maxRank ∧ (s.proc q).crashed = true
  | _ => True

instance (maxRank : ℕ) (s : RbState) : (e : RbEvent) → Decidable (Accurate maxRank s e)
  | .act _ _ (.call (.crashed _)) _ => inferInstanceAs (Decidable (_ ∧ _))
  | .act _ _ (.call (.broadcast _)) _ => isTrue trivial
  | .act _ _ (.deliver _ _) _ => isTrue trivial
  | .act _ _ (.forge _ _) _ => isTrue trivial
  | .crash _ => isTrue trivial

/-- Fresh uuids and an accurate failure detector. -/
def RbFair (maxRank : ℕ) (s : RbState) (e : RbEvent) : Prop :=
  FreshIds RbRequest.broadcast? maxRank s e ∧ Accurate maxRank s e

instance (maxRank : ℕ) (s : RbState) (e : RbEvent) : Decidable (RbFair maxRank s e) :=
  inferInstanceAs (Decidable (_ ∧ _))

def notified (s : RbState) (p q : ℤ) : Bool := decide (.call (.crashed q) ∈ (s.proc p).inputs)

/-- Once a process of `A` has been told that a peer has crashed, it gets what is new to it
of that peer only from processes of `A`. -/
def Relayable (A : Finset ℤ) (s : RbState) : RbEvent → Prop
  | .act p _ (.deliver q msg) _ => p ∈ A → q ∉ A →
    ∀ f ∈ openFrame (s.proc p).state.maxRank msg, f.originalSender ≠ p →
      notified s p f.originalSender = true → isMessageDuplicate (s.proc p).state f = true
  | _ => True

instance (A : Finset ℤ) (s : RbState) : (e : RbEvent) → Decidable (Relayable A s e)
  | .act p _ (.deliver q msg) _ =>
    match h : openFrame (s.proc p).state.maxRank msg with
    | none => isTrue (by simp [Relayable, h])
    | some f => decidable_of_iff (p ∈ A → q ∉ A → f.originalSender ≠ p →
        notified s p f.originalSender = true → isMessageDuplicate (s.proc p).state f = true)
        (by simp [Relayable, h])
  | .act _ _ (.call _) _ => isTrue trivial
  | .act _ _ (.forge _ _) _ => isTrue trivial
  | .crash _ => isTrue trivial

/-- When nothing is on its way between those that have not crashed and all of them have
been told of every crash, they have delivered the same. -/
def RbAgreement (maxRank : ℕ) (s : RbState) : Prop :=
  Quiet s (uncrashed maxRank s) →
  (∀ p ∈ uncrashed maxRank s, ∀ q ∈ peers maxRank \ uncrashed maxRank s, notified s p q = true) →
  ∀ p ∈ uncrashed maxRank s, ∀ q ∈ uncrashed maxRank s, ∀ d,
    d ∈ indications (s.proc p).effects ↔ d ∈ indications (s.proc q).effects

/-- What has been delivered after a step from `s` to `s'`: nothing twice, and each message
after its sender was asked for it. -/
structure RbIntegrity (s s' : RbState) : Prop where
  no_duplication : ∀ p, ((indications (s'.proc p).effects).map fun d => (d.deliver.sender, d.id)).Nodup
  no_creation : ∀ p, ∀ d ∈ indications (s'.proc p).effects,
    .call (.broadcast ⟨d.deliver.msg, d.id⟩) ∈ (s.proc d.deliver.sender).inputs

end DSA
