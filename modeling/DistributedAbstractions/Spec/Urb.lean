import DistributedAbstractions.Lib.Machine
import DistributedAbstractions.Spec.BcFrame

/-! Majority-acknowledged uniform reliable broadcast over perfect links, and its
processes when some of them crash. Allocations succeed. -/

namespace DSA

open CLib Net Trans

/-- `acks` is indexed by rank - 1. -/
structure SavedMessage where
  id : CString
  wasDelivered : Bool
  acks : ℤ → Bool

structure Urb where
  localRank : ℤ
  maxRank : ℕ
  received : List SavedMessage

abbrev UrbEffects := List (Effect CString Indication)

/-- `beb_broadcast` sends in the order of the ranks, and no send fails. -/
def urbBroadcastAux (urb : Urb) (content originalId : CString) (originalSender : ℤ) : UrbEffects :=
  (sendLoop (fun _ => true) (bcFrame ⟨originalSender, originalId, content⟩) (ranks urb.maxRank)).1

def shouldDeliver (urb : Urb) (saved : SavedMessage) : Bool :=
  let acksReceived := (List.range urb.maxRank).countP fun i : ℕ => saved.acks i
  let quorumSize := urb.maxRank / 2 + 1
  acksReceived ≥ quorumSize

def newSavedMessage (fields : Fields) : SavedMessage where
  id := fields.originalId.take UUID_STR_LEN
  wasDelivered := false
  acks _ := false

def SavedMessage.ack (m : SavedMessage) (sender : ℤ) : SavedMessage :=
  { m with acks := Function.update m.acks (sender - 1) true }

/-- The entry at index `i` gets the ack of `sender`, and is delivered if it is time. -/
def acknowledge (urb : Urb) (i : ℕ) (sender : ℤ) (fields : Fields) : Urb × UrbEffects :=
  let acked := urb.received.modify i (·.ack sender)
  match acked[i]? with
  | none => ({ urb with received := acked }, [])
  | some saved =>
    if !saved.wasDelivered && shouldDeliver urb saved then
      ({ urb with received := acked.modify i ({ · with wasDelivered := true }) },
        [.indicate ⟨fields.originalId, createRbDelivery fields⟩])
    else ({ urb with received := acked }, [])

def urbCallback (urb : Urb) (e : Deliver) : Urb × UrbEffects :=
  match openFrame urb.maxRank e.msg with
  | none => (urb, [])
  | some fields =>
    match urb.received.findIdx? (·.id = fields.originalId) with
    | some i => acknowledge urb i e.sender fields
    | none =>
      let relay :=
        if fields.originalSender ≠ urb.localRank then
          urbBroadcastAux urb (createRbDelivery fields).msg fields.originalId fields.originalSender
        else []
      let saved := { urb with received := urb.received ++ [newSavedMessage fields] }
      let out := acknowledge saved urb.received.length e.sender fields
      (out.1, relay ++ out.2)

/-- The frame that a call of the callback relays, if it does. -/
def urbRelay (urb : Urb) (e : Deliver) : List Fields :=
  match openFrame urb.maxRank e.msg with
  | none => []
  | some fields =>
    if urb.received.findIdx? (·.id = fields.originalId) = none ∧ fields.originalSender ≠ urb.localRank then [fields]
    else []

/-- One process that gets any deliveries, and puts out what it relays. -/
def urbStep (urb : Urb) (e : Deliver) : Urb × List Fields := ((urbCallback urb e).1, urbRelay urb e)

def urbBroadcast (urb : Urb) (e : Broadcast) : UrbEffects :=
  urbBroadcastAux urb e.msg e.uuid urb.localRank

def urbProtocol (maxRank : ℕ) : Protocol Unit Urb Broadcast CString Indication where
  init localRank := ⟨localRank, maxRank, []⟩
  handle _ urb
    | .call e => (urb, urbBroadcast urb e)
    | .receive sender msg => urbCallback urb ⟨msg, sender⟩

abbrev UrbState := State Urb Broadcast CString Indication

def urbSystem (maxRank : ℕ) : System UrbState (Event Unit Broadcast CString) :=
  system (urbProtocol maxRank) (crashSetting maxRank)

/-- What any process has delivered, every process of `A` has. -/
def UniformAgreement (maxRank : ℕ) (A : Finset ℤ) (s : UrbState) : Prop :=
  ∀ p ∈ peers maxRank, ∀ d ∈ indications (s.proc p).effects,
    ∀ q ∈ A, d ∈ indications (s.proc q).effects

/-- What has been delivered after a step from `s` to `s'`: nothing twice, and each message
after its sender was asked for it and a majority has sent its frame. -/
structure UrbIntegrity (maxRank : ℕ) (s s' : UrbState) : Prop where
  no_duplication : ∀ p, ((indications (s'.proc p).effects).map (·.id)).Nodup
  majority : ∀ p, ∀ d ∈ indications (s'.proc p).effects,
    ∃ Q ⊆ peers maxRank, maxRank / 2 + 1 ≤ Q.card ∧ ∀ x ∈ Q, ∃ y,
      .send y (bcFrame ⟨d.deliver.sender, d.id, d.deliver.msg⟩) ∈ (s.proc x).effects
  no_creation : ∀ p, ∀ d ∈ indications (s'.proc p).effects,
    .call ⟨d.deliver.msg, d.id⟩ ∈ (s.proc d.deliver.sender).inputs

/-- Each id has one record and is relayed once, and every ack is in a slot of a rank. -/
structure UrbRobust (maxRank : ℕ) (urb : Urb) (relays : List Fields) : Prop where
  one_record : (urb.received.map (·.id)).Nodup
  one_relay : (relays.map (·.originalId)).Nodup
  slots : ∀ m ∈ urb.received, ∀ i, m.acks i = true → 0 ≤ i ∧ i < maxRank

/-- A frame that is read comes from a rank, and under an id that fits a record or one whose beginning
is new. -/
def UrbOrderly (maxRank : ℕ) (pre : List Deliver) (e : Deliver) : Prop :=
  ∀ f, openFrame maxRank e.msg = some f → e.sender ∈ peers maxRank ∧
    (UUID_STR_LEN < f.originalId.length → ∀ e' ∈ pre, ∀ f', openFrame maxRank e'.msg = some f' →
      f'.originalId.take UUID_STR_LEN ≠ f.originalId.take UUID_STR_LEN)

end DSA
