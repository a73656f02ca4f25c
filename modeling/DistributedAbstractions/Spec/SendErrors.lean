import DistributedAbstractions.Spec.AuthLink
import DistributedAbstractions.Spec.BcFrame
import DistributedAbstractions.Spec.Brb

/-! The broadcasts of one peer when `sendto` may fail. The stubborn link keeps a message before it
sends it, and the loops over the ranks are left at the first error. Allocations succeed. -/

namespace DSA

open CLib

/-- What one broadcast meets: the uuid that is drawn for the message to each rank, and whether
`sendto` succeeds for it. -/
structure Conditions where
  uuid : ℤ → CString
  ok : ℤ → Bool

/-- The stubborn link of the peer, and what its socket has taken. -/
structure PeerLink where
  outbox : List Send
  sent : List Send
deriving DecidableEq

namespace Conditions

variable (w : Conditions)

def fllSend (link : PeerLink) (e : Send) : PeerLink × ℤ :=
  if w.ok e.recipient then ({ link with sent := link.sent ++ [e] }, 0) else (link, -1)

def sblSend (link : PeerLink) (e : Send) : PeerLink × ℤ :=
  w.fllSend { link with outbox := link.outbox ++ [e] } e

def plSend (link : PeerLink) (e : Send) : PeerLink × ℤ :=
  w.sblSend link (DSA.plSend (w.uuid e.recipient) e)

def aplSend (F : Keyring) (p : ℤ) (link : PeerLink) (e : Send) : PeerLink × ℤ :=
  w.plSend link (DSA.aplSend F p e)

end Conditions

/-- The loop of all three broadcasts. `send` is that of the link below, and `failed` makes the
return value from its error. -/
def sendToRanks (send : PeerLink → Send → PeerLink × ℤ) (failed : ℤ → ℤ) (msg : CString) :
    List ℤ → PeerLink → PeerLink × ℤ
  | [], link => (link, 0)
  | r :: rs, link =>
    match send link ⟨msg, r⟩ with
    | (link, status) => if status ≠ 0 then (link, failed status) else sendToRanks send failed msg rs link

namespace Conditions

variable (w : Conditions)

def bebBroadcast (maxRank : ℕ) (e : Broadcast) (link : PeerLink) : PeerLink × ℤ :=
  sendToRanks w.plSend (fun status => status) (e.msg.take MAX_MSG_LEN) (ranks maxRank) link

/-- `originalId` is what was drawn for it if the caller has none. -/
def rbBroadcastAux (maxRank : ℕ) (content originalId : CString) (originalSender : ℤ) (link : PeerLink) :
    PeerLink × ℤ :=
  sendToRanks w.plSend (fun status => status) (bcFrame ⟨originalSender, originalId, content⟩) (ranks maxRank) link

def broadcastAux (F : Keyring) (p : ℤ) (maxRank : ℕ) (msg code : CString) (link : PeerLink) : PeerLink × ℤ :=
  sendToRanks (w.aplSend F p) (fun _ => -1) (payload code msg) (ranks maxRank) link

end Conditions

/-- A call of a broadcast: best effort, lazy reliable, or Byzantine reliable by peer `p`. -/
inductive BroadcastCall
  | beb (e : Broadcast)
  | rb (content originalId : CString) (originalSender : ℤ)
  | brb (F : Keyring) (p : ℤ) (msg code : CString)

namespace BroadcastCall

def perform (w : Conditions) (maxRank : ℕ) : BroadcastCall → PeerLink → PeerLink × ℤ
  | .beb e => w.bebBroadcast maxRank e
  | .rb content originalId originalSender => w.rbBroadcastAux maxRank content originalId originalSender
  | .brb F p msg code => w.broadcastAux F p maxRank msg code

/-- What the broadcast says to each rank. -/
def text : BroadcastCall → CString
  | .beb e => e.msg.take MAX_MSG_LEN
  | .rb content originalId originalSender => bcFrame ⟨originalSender, originalId, content⟩
  | .brb _ _ msg code => payload code msg

/-- The message to `r` as the stubborn link gets it. -/
def copy (w : Conditions) (c : BroadcastCall) (r : ℤ) : Send :=
  match c with
  | .beb _ | .rb _ _ _ => DSA.plSend (w.uuid r) ⟨c.text, r⟩
  | .brb F p _ _ => DSA.plSend (w.uuid r) (DSA.aplSend F p ⟨c.text, r⟩)

end BroadcastCall

/-- After the call the outbox has one new copy for each rank, or the call has failed and the outbox
is as it was. -/
def AllOrNothing (w : Conditions) (maxRank : ℕ) (c : BroadcastCall) (link : PeerLink) : Prop :=
  (c.perform w maxRank link).1.outbox = link.outbox ++ (ranks maxRank).map (c.copy w) ∨
    ((c.perform w maxRank link).2 ≠ 0 ∧ (c.perform w maxRank link).1.outbox = link.outbox)

instance (w : Conditions) (maxRank : ℕ) (c : BroadcastCall) (link : PeerLink) :
    Decidable (AllOrNothing w maxRank c link) := inferInstanceAs (Decidable (_ ∨ _))

/-- The ranks that a loop gets to which is left at the first error. -/
def reached (ok : ℤ → Bool) (rs : List ℤ) : List ℤ := rs.takeWhile ok ++ (rs.dropWhile ok).take 1

end DSA
