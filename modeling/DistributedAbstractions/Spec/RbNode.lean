import DistributedAbstractions.Lib.Hosting
import DistributedAbstractions.Spec.Detection
import DistributedAbstractions.Spec.RbHistory

/-! Lazy reliable broadcast with its failure detector, the one over the data ports and the other over the
control ports, run by processes some of which crash. -/

namespace DSA

open CLib Net Trans

/-- A message and the port it goes to. -/
inductive RbMessage
  | data (msg : CString)
  | control (msg : CString)
deriving DecidableEq

def RbMessage.text : RbMessage → CString
  | .data msg => msg
  | .control msg => msg

/-- Requests of the application, and the end of a control period. -/
inductive RbCall
  | broadcast (e : Broadcast)
  | timeout
deriving DecidableEq

def RbCall.EndsControl (i : RbCall) : Prop := i = .timeout

instance : DecidablePred RbCall.EndsControl := fun i => inferInstanceAs (Decidable (i = .timeout))

def rbNodeEvent : Input RbCall RbMessage → RbNodeEvent
  | .call (.broadcast e) => .broadcast e
  | .call .timeout => .timeout
  | .receive sender (.data msg) => .data ⟨msg, sender⟩
  | .receive sender (.control msg) => .control ⟨msg, sender⟩

def RbNodeEffect.effect : RbNodeEffect → Effect RbMessage Indication
  | .data (.send recipient msg) => .send recipient (.data msg)
  | .data (.indicate d) => .indicate d
  | .control recipient msg => .send recipient (.control msg)

def rbNodeProtocol (maxRank : ℕ) : Protocol Unit RbNode RbCall RbMessage Indication where
  init localRank := rbInit localRank maxRank
  handle _ node x :=
    let out := (rbNodeStep node (rbNodeEvent x)).value
    (out.1, out.2.map RbNodeEffect.effect)

/-- Ideal perfect links at both ports, as in `crashSetting`. -/
def rbNodeSetting (maxRank : ℕ) : Setting RbMessage where
  size := maxRank
  byz := ∅
  replays := false
  crashes := true
  carries k := plCarries ⟨k.src, k.dst, k.msg.text⟩
  forges _ := false

abbrev RbNodeState := State RbNode RbCall RbMessage Indication
abbrev RbNodeStep := Event Unit RbCall RbMessage

def rbNodeSystem (maxRank : ℕ) : System RbNodeState RbNodeStep :=
  system (rbNodeProtocol maxRank) (rbNodeSetting maxRank)

def askedOf : Input RbCall RbMessage → Option Broadcast
  | .call (.broadcast e) => some e
  | _ => none

/-- Each broadcast draws an id that nobody has drawn. -/
def FreshBroadcasts (maxRank : ℕ) (s : RbNodeState) : RbNodeStep → Prop
  | .act _ _ (.call (.broadcast e)) _ => IsUuid e.uuid ∧
      ∀ q ∈ ranks maxRank, ∀ e' ∈ (s.proc q).inputs.filterMap askedOf, e'.uuid ≠ e.uuid
  | _ => True

instance (maxRank : ℕ) (s : RbNodeState) : (e : RbNodeStep) → Decidable (FreshBroadcasts maxRank s e)
  | .act _ _ (.call (.broadcast _)) _ => inferInstanceAs (Decidable (_ ∧ _))
  | .act _ _ (.call .timeout) _ => isTrue trivial
  | .act _ _ (.deliver _ _) _ => isTrue trivial
  | .act _ _ (.forge _ _) _ => isTrue trivial
  | .crash _ => isTrue trivial

/-- Fresh uuids, and control periods that are long enough for a heartbeat and its reply. -/
def RbNodeFair (maxRank : ℕ) (s : RbNodeState) (e : RbNodeStep) : Prop :=
  FreshBroadcasts maxRank s e ∧
    Prompt (peers maxRank) (.control HB_CODE) (.control IA_CODE) RbCall.EndsControl s e

instance (maxRank : ℕ) (s : RbNodeState) (e : RbNodeStep) : Decidable (RbNodeFair maxRank s e) :=
  inferInstanceAs (Decidable (_ ∧ _))

/-- Once a process of `A` holds a peer for faulty, it gets what is new to it of that peer only from
processes of `A`. -/
def RelaysAmong (A : Finset ℤ) (s : RbNodeState) : RbNodeStep → Prop
  | .act p _ (.deliver q (.data msg)) _ => p ∈ A → q ∉ A →
    ∀ f ∈ openFrame (s.proc p).state.rb.maxRank msg, f.originalSender ≠ p →
      f.originalSender ∈ (s.proc p).state.pfd.faultyPeers → isMessageDuplicate (s.proc p).state.rb f = true
  | _ => True

instance (A : Finset ℤ) (s : RbNodeState) : (e : RbNodeStep) → Decidable (RelaysAmong A s e)
  | .act p _ (.deliver q (.data msg)) _ =>
    match h : openFrame (s.proc p).state.rb.maxRank msg with
    | none => isTrue (by simp [RelaysAmong, h])
    | some f => decidable_of_iff (p ∈ A → q ∉ A → f.originalSender ≠ p →
        f.originalSender ∈ (s.proc p).state.pfd.faultyPeers → isMessageDuplicate (s.proc p).state.rb f = true)
        (by simp [RelaysAmong, h])
  | .act _ _ (.deliver _ (.control _)) _ => isTrue trivial
  | .act _ _ (.call _) _ => isTrue trivial
  | .act _ _ (.forge _ _) _ => isTrue trivial
  | .crash _ => isTrue trivial

/-- What a process sends and indicates at its data port. -/
def dataEffect? : Effect RbMessage Indication → Option (Effect CString Indication)
  | .send recipient (.data msg) => some (.send recipient msg)
  | .send _ (.control _) => none
  | .indicate d => some (.indicate d)

def dataPacket? : Packet RbMessage → Option (Packet CString)
  | ⟨src, dst, .data msg⟩ => some ⟨src, dst, msg⟩
  | ⟨_, _, .control _⟩ => none

/-- Nothing is delivered twice, and only what was asked for. Nobody passes on messages but those that it has
delivered and whose senders have crashed. -/
structure RbNodeSafety (s : RbNodeState) : Prop where
  no_duplication : ∀ p, ((indications (s.proc p).effects).map fun d => (d.deliver.sender, d.id)).Nodup
  no_creation : ∀ p, ∀ d ∈ indications (s.proc p).effects,
    .call (.broadcast ⟨d.deliver.msg, d.id⟩) ∈ (s.proc d.deliver.sender).inputs
  lazy : ∀ p q msg, .send q (.data msg) ∈ (s.proc p).effects →
    (∃ e, .call (.broadcast e) ∈ (s.proc p).inputs ∧ msg = bcFrame (originalFrame p e)) ∨
    ∃ d ∈ indications (s.proc p).effects, (s.proc d.deliver.sender).crashed = true ∧
      msg = bcFrame ⟨d.deliver.sender, d.id, d.deliver.msg⟩

/-- When those that are up have ended two control periods since all that have crashed fell silent, and no data
is on its way between them, they have delivered the same. -/
def RbNodeAgreement (maxRank : ℕ) (s₀ : RbNodeState) (post : List RbNodeStep) (s : RbNodeState) : Prop :=
  (∀ k ∈ s.flight.filterMap dataPacket?, ¬ (k.src ∈ uncrashed maxRank s ∧ k.dst ∈ uncrashed maxRank s)) →
  (∀ p ∈ uncrashed maxRank s, ∀ q ∈ peers maxRank \ uncrashed maxRank s, Silent s₀ p q) →
  (∀ p ∈ uncrashed maxRank s, 2 ≤ post.countP (EndsPeriod RbCall.EndsControl p)) →
  ∀ p ∈ uncrashed maxRank s, ∀ q ∈ uncrashed maxRank s, ∀ d,
    d ∈ indications (s.proc p).effects ↔ d ∈ indications (s.proc q).effects

end DSA
