import DistributedAbstractions.Spec.BrbSystem
import DistributedAbstractions.Spec.Stack

/-! A protocol over its authenticated links down to the datagrams, among an adversary that has the network and
the peers of `byz` in its hands: whatever bytes it likes arrive. Allocations succeed. -/

namespace DSA

open CLib Inbox Net Trans

/-- The processes with their protocol and its history, their links, and what `apl_send` has been called
for. -/
structure AuthStack (σ ι ω : Type) where
  proc : ℤ → Proc σ ι CString ω
  link : ℤ → AplLink
  sbl : Stubborn Datagram
  sent : List PlCall

/-- `ids` are the uuids that the handler draws. -/
inductive AuthEvent (ρ ι : Type)
  | call (p : ℤ) (r : ρ) (i : ι) (ids : List CString)
  | arrive (q : ℤ) (x : Received) (r : ρ) (ids : List CString)
  | timeout (p : ℤ)

/-- What the authenticated link hands to the stubborn one. -/
def PlCall.signed (F : Keyring) (c : PlCall) : Send := plSend c.uuid (aplSend F c.src ⟨c.msg, c.dst⟩)

section

variable {ρ σ ι ω : Type}

namespace AuthStack

/-- A link that has left the bounds of a buffer is at its end, and so is its process. -/
def up (F : Keyring) (s : AuthStack σ ι ω) (p : ℤ) : Bool := F.correct p && (s.link p).running

def effects (P : Protocol ρ σ ι CString ω) (s : AuthStack σ ι ω) (p : ℤ) (r : ρ) (i : Input ι CString) :
    List (Effect CString ω) := (P.handle r (s.proc p).state i).2

def handle (F : Keyring) (P : Protocol ρ σ ι CString ω) (w : Socket) (s : AuthStack σ ι ω) (p : ℤ) (r : ρ)
    (i : Input ι CString) (ids : List CString) : AuthStack σ ι ω :=
  let cs := plCalls (packets p (s.effects P p r i)) ids
  { proc := Function.update s.proc p ((s.proc p).perform P r i)
    link := s.link
    sbl := cs.foldl (fun sbl c => sblSend w.datagram sbl p (c.signed F)) s.sbl
    sent := s.sent ++ cs }

def consume (F : Keyring) (s : AuthStack σ ι ω) (q : ℤ) (x : Received) : AuthStack σ ι ω :=
  { s with link := Function.update s.link q (aplConsume F.verify F.maxRank (s.link q) x) }

/-- What the callback of the authenticated link is called for. -/
def raised (F : Keyring) (s : AuthStack σ ι ω) (q : ℤ) (x : Received) : Option Deliver :=
  ((aplConsume F.verify F.maxRank (s.link q) x).delivered.drop (s.link q).delivered.length).head?

def arrive (F : Keyring) (P : Protocol ρ σ ι CString ω) (w : Socket) (s : AuthStack σ ι ω) (q : ℤ) (x : Received)
    (r : ρ) (ids : List CString) : AuthStack σ ι ω :=
  match s.raised F q x with
  | none => s.consume F q x
  | some e => (s.consume F q x).handle F P w q r (.receive e.sender e.msg) ids

/-- The processes as the protocol sees them. -/
def view (s : AuthStack σ ι ω) : State σ ι CString ω := ⟨s.proc, [], []⟩

/-- What the peers have signed, as the guards of the authenticated link see it. -/
def signing (s : AuthStack σ ι ω) : AplState := ⟨s.sent, s.sbl, fun _ => []⟩

end AuthStack

def authNext (F : Keyring) (P : Protocol ρ σ ι CString ω) (w : Socket) (s : AuthStack σ ι ω) :
    AuthEvent ρ ι → Option (AuthStack σ ι ω)
  | .call p r i ids => if s.up F p then some (s.handle F P w p r (.call i) ids) else none
  | .arrive q x r ids => if s.up F q then some (s.arrive F P w q x r ids) else none
  | .timeout p =>
    if s.up F p then some { s with sbl := sblHandleTimeout w.datagram s.sbl p } else none

def authSystem (F : Keyring) (P : Protocol ρ σ ι CString ω) (w : Socket) :
    System (AuthStack σ ι ω) (AuthEvent ρ ι) :=
  ⟨⟨fun p => ⟨P.init p, [], [], false⟩, fun _ => empty, ⟨fun _ => [], []⟩, []⟩, authNext F P w⟩

/-- Signatures of correct peers are not forged, each packet gets its uuid, and the guard `ok` of the
protocol holds. -/
def AuthFair (F : Keyring) (P : Protocol ρ σ ι CString ω)
    (ok : State σ ι CString ω → Event ρ ι CString → Prop) (s : AuthStack σ ι ω) : AuthEvent ρ ι → Prop
  | .call p r i ids => ok s.view (.act p r (.call i) none) ∧
      ids.length = (packets p (s.effects P p r (.call i))).length
  | .arrive q x r ids => Unforged F s.signing (.arrive q x) ∧ ∀ e ∈ s.raised F q x,
      ok s.view (.act q r (.forge e.sender e.msg) none) ∧
        ids.length = (packets q (s.effects P q r (.receive e.sender e.msg))).length
  | .timeout _ => True

end

/-- The indications of correct peers agree, each of them has one at most, and they are what a correct sender
was asked to broadcast. -/
structure BrbStackSafe (config : BrbConfig) (byz : Finset ℤ) (s : AuthStack Brb CString Deliver) : Prop where
  agreement : ∀ p ∈ peers config.maxRank \ byz, ∀ q ∈ peers config.maxRank \ byz,
    ∀ d ∈ indications (s.proc p).effects, ∀ d' ∈ indications (s.proc q).effects, d.msg = d'.msg
  once : ∀ p ∈ peers config.maxRank \ byz, (indications (s.proc p).effects).length ≤ 1
  integrity : config.senderRank ∉ byz → ∀ p ∈ peers config.maxRank \ byz,
    ∀ d ∈ indications (s.proc p).effects, .call d.msg ∈ (s.proc config.senderRank).inputs

end DSA
