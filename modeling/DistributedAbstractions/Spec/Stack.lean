import DistributedAbstractions.Lib.Path
import DistributedAbstractions.Spec.PerfectLink
import DistributedAbstractions.Spec.Sending
import Mathlib.Order.Filter.AtTopBot.Basic

/-! A protocol over its perfect links down to the datagrams: every process has a perfect link, a
stubborn link with its outbox and a socket. A datagram that has been sent may be lost, repeated and
overtaken by others. No send fails, and allocations succeed. -/

namespace DSA

open CLib Inbox Net Trans

deriving instance DecidableEq for Datagram

/-- What `fll_send` of peer `id` hands to `sendto`, and to whom. -/
def Socket.datagram (w : Socket) (id : ℤ) (e : Send) : Datagram := ⟨e.recipient, (w.fllSend id e).bytes⟩

/-- A socket with nothing behind the text in its buffer. -/
def plainSocket : Socket := ⟨[], true⟩

/-- The processes with their protocol and its history, their links, and what `pl_send` has been called
for. -/
structure Stack (σ ι ω : Type) where
  proc : ℤ → Proc σ ι CString ω
  link : ℤ → PlLink
  sbl : Stubborn Datagram
  sent : List PlCall

/-- `ids` are the uuids that the handler draws. A datagram arrives with what is in the buffers of the
fair-loss link behind it. A process crashes after the first `k` effects or datagrams when `stop` is
`some k`. -/
inductive StackEvent (ρ ι : Type)
  | call (p : ℤ) (r : ρ) (i : ι) (ids : List CString) (stop : Option ℕ)
  | arrive (q : ℤ) (x : Received) (r : ρ) (ids : List CString) (stop : Option ℕ)
  | timeout (p : ℤ) (stop : Option ℕ)
  | crash (p : ℤ)

def Handled.event? {α : Type} : Handled α → Option α
  | .callback e => some e
  | _ => none

/-- `pl_send` for each packet in turn. -/
def plCalls (ks : List (Packet CString)) (ids : List CString) : List PlCall :=
  List.zipWith (fun k id => ⟨k.src, k.dst, k.msg, id⟩) ks ids

section

variable {ρ σ ι ω : Type}

namespace Stack

def up (n : ℕ) (s : Stack σ ι ω) (p : ℤ) : Bool :=
  decide (p ∈ ranks n) && !(s.proc p).crashed && (s.link p).running

/-- What the handler of `p` performs before it stops. -/
def effects (P : Protocol ρ σ ι CString ω) (s : Stack σ ι ω) (p : ℤ) (r : ρ) (a : Arrival ι CString)
    (stop : Option ℕ) : List (Effect CString ω) := cut stop (P.handle r (s.proc p).state a.input).2

def handle (P : Protocol ρ σ ι CString ω) (w : Socket) (s : Stack σ ι ω) (p : ℤ) (r : ρ)
    (a : Arrival ι CString) (ids : List CString) (stop : Option ℕ) : Stack σ ι ω :=
  let es := s.effects P p r a stop
  let cs := plCalls (packets p es) ids
  { proc := Function.update s.proc p ⟨(P.handle r (s.proc p).state a.input).1,
      (s.proc p).inputs ++ [a.input], (s.proc p).effects ++ es, stop.isSome⟩
    link := s.link
    sbl := cs.foldl (fun sbl c => sblSend w.datagram sbl p c.sent) s.sbl
    sent := s.sent ++ cs }

/-- The fair-loss link reads the datagram, and the perfect link may have something for its callback. -/
def consume (s : Stack σ ι ω) (q : ℤ) (x : Received) : Stack σ ι ω × Handled Deliver :=
  match consumeMsg x with
  | .overrun => ({ s with link := Function.update s.link q { s.link q with running := false } }, .overrun)
  | .returned => (s, .returned)
  | .callback e =>
    ({ s with link := Function.update s.link q (plConsume (s.link q) e) }, (plWrapper (s.link q).inbox e).2)

def arrive (P : Protocol ρ σ ι CString ω) (w : Socket) (s : Stack σ ι ω) (q : ℤ) (x : Received) (r : ρ)
    (ids : List CString) (stop : Option ℕ) : Stack σ ι ω :=
  match s.consume q x with
  | (s₁, .callback e) => s₁.handle P w q r (.deliver e.sender e.msg) ids stop
  | (s₁, _) => s₁

def setCrashed (s : Stack σ ι ω) (p : ℤ) (b : Bool) : Stack σ ι ω :=
  { s with proc := Function.update s.proc p { s.proc p with crashed := b } }

def timeout (w : Socket) (s : Stack σ ι ω) (p : ℤ) (stop : Option ℕ) : Stack σ ι ω :=
  { s.setCrashed p stop.isSome with
    sbl := { s.sbl with air := s.sbl.air ++ cut stop ((s.sbl.outbox p).map (w.datagram p)) } }

/-- The processes as the protocol sees them. -/
def view (s : Stack σ ι ω) : State σ ι CString ω := ⟨s.proc, [], []⟩

/-- The callback for `c` has not been called yet. -/
def pending (s : Stack σ ι ω) : List PlCall :=
  s.sent.filter fun c => decide (c.raised ∉ (s.link c.dst).delivered)

end Stack

def PlCall.packet (c : PlCall) : Packet CString := ⟨c.src, c.dst, c.msg⟩

def stackNext (P : Protocol ρ σ ι CString ω) (w : Socket) (n : ℕ) (s : Stack σ ι ω) :
    StackEvent ρ ι → Option (Stack σ ι ω)
  | .call p r i ids stop => if s.up n p then some (s.handle P w p r (.call i) ids stop) else none
  | .arrive q x r ids stop =>
    if s.up n q && decide (⟨q, x.bytes⟩ ∈ s.sbl.air) then some (s.arrive P w q x r ids stop) else none
  | .timeout p stop => if s.up n p then some (s.timeout w p stop) else none
  | .crash p => if s.up n p then some (s.setCrashed p true) else none

def stackStart (P : Protocol ρ σ ι CString ω) : Stack σ ι ω :=
  ⟨fun p => ⟨P.init p, [], [], false⟩, fun _ => empty, ⟨fun _ => [], []⟩, []⟩

def stackSystem (P : Protocol ρ σ ι CString ω) (w : Socket) (n : ℕ) :
    System (Stack σ ι ω) (StackEvent ρ ι) := ⟨stackStart P, stackNext P w n⟩

/-- What `uuid_unparse` writes. -/
def IsUnparsed (id : CString) : Prop := id.length = UUID_STR_LEN - 1 ∧ ',' ∉ id ∧ NUL ∉ id

instance (id : CString) : Decidable (IsUnparsed id) := inferInstanceAs (Decidable (_ ∧ _ ∧ _))

/-- A uuid for each packet, which no call has had. -/
def Draws (sent : List PlCall) (ks : List (Packet CString)) (ids : List CString) : Prop :=
  ids.length = ks.length ∧ ids.Nodup ∧ ∀ id ∈ ids, IsUnparsed id ∧ ∀ c ∈ sent, c.uuid ≠ id

instance (sent : List PlCall) (ks : List (Packet CString)) (ids : List CString) :
    Decidable (Draws sent ks ids) := inferInstanceAs (Decidable (_ ∧ _ ∧ _))

/-- A message that fits its datagram, and is long enough for the loop that strips the uuid. -/
def Fitting (k : Packet CString) : Prop :=
  NUL ∉ k.msg ∧ UUID_STR_LEN ≤ k.msg.length ∧ plCarries k = true

instance (k : Packet CString) : Decidable (Fitting k) := inferInstanceAs (Decidable (_ ∧ _ ∧ _))

/-- A guard that looks at the processes only, and not at what is on its way. -/
def ByProc (ok : State σ ι CString ω → Event ρ ι CString → Prop) : Prop :=
  ∀ t t' e, t.proc = t'.proc → ok t e → ok t' e

/-- `t` is `s` with the packets for which no callback has been called on their way. -/
structure Shows (s : Stack σ ι ω) (t : State σ ι CString ω) : Prop where
  proc_eq : t.proc = s.proc
  flight_perm : t.flight.Perm (s.pending.map PlCall.packet)

/-- The guard `ok` of the protocol holds, uuids are new, and `fit` is met by what the handler sends. -/
def Stack.Admits (P : Protocol ρ σ ι CString ω) (ok : State σ ι CString ω → Event ρ ι CString → Prop)
    (fit : Packet CString → Prop) (s : Stack σ ι ω) (p : ℤ) (r : ρ) (a : Arrival ι CString)
    (ids : List CString) (stop : Option ℕ) : Prop :=
  ok s.view (.act p r a stop) ∧ Draws s.sent (packets p (s.effects P p r a stop)) ids ∧
    ∀ k ∈ packets p (s.effects P p r a stop), fit k

/-- What is asked of the environment. In the buffer for the rank there is no digit behind it. -/
def StackFair (P : Protocol ρ σ ι CString ω) (ok : State σ ι CString ω → Event ρ ι CString → Prop)
    (fit : Packet CString → Prop) (s : Stack σ ι ω) : StackEvent ρ ι → Prop
  | .call p r i ids stop => s.Admits P ok fit p r (.call i) ids stop
  | .arrive q x r ids stop => (∀ c ∈ x.id.head?, ¬ c.isDigit) ∧
      ∀ e ∈ (s.consume q x).2.event?, s.Admits P ok fit q r (.deliver e.sender e.msg) ids stop
  | .timeout p stop => stop ≠ none → ok s.view (.crash p)
  | .crash p => ok s.view (.crash p)

section

variable (P : Protocol ρ σ ι CString ω) (ok : State σ ι CString ω → Event ρ ι CString → Prop)
  [∀ s e, Decidable (ok s e)] (fit : Packet CString → Prop) [DecidablePred fit] (s : Stack σ ι ω)

instance (p : ℤ) (r : ρ) (a : Arrival ι CString) (ids : List CString) (stop : Option ℕ) :
    Decidable (s.Admits P ok fit p r a ids stop) := inferInstanceAs (Decidable (_ ∧ _ ∧ _))

instance : (e : StackEvent ρ ι) → Decidable (StackFair P ok fit s e)
  | .call _ _ _ _ _ => inferInstanceAs (Decidable (Stack.Admits _ _ _ _ _ _ _ _ _))
  | .arrive _ _ _ _ _ => @instDecidableAnd _ _ (Option.decidableForallMem _) (Option.decidableForallMem _)
  | .timeout _ _ => inferInstanceAs (Decidable (_ → _))
  | .crash _ => inferInstanceAs (Decidable (ok _ _))

end

/-- The processes of `A` never crash, and their timers go off again and again. A datagram that is sent to
one of them again and again arrives again and again. No two of the uuids that are drawn are taken for
each other by a recipient. -/
structure StackLive {P : Protocol ρ σ ι CString ω} {w : Socket} {n : ℕ}
    {ok : Stack σ ι ω → StackEvent ρ ι → Prop} (A : Finset ℤ) (π : Path (stackSystem P w n) ok) : Prop where
  ranks : A ⊆ peers n
  up : ∀ i, ∀ p ∈ A, ((π.state i).proc p).crashed = false
  timer : ∀ p ∈ A, ∃ᶠ i in Filter.atTop, π.event i = some (.timeout p none)
  channel : ∀ d : Datagram, d.dst ∈ A →
    (∃ᶠ i in Filter.atTop, (π.state i).sbl.air.count d < (π.state (i + 1)).sbl.air.count d) →
    ∃ᶠ i in Filter.atTop, ∃ x r ids stop, π.event i = some (.arrive d.dst x r ids stop) ∧ x.bytes = d.bytes
  distinct : ∀ i, ∀ c ∈ (π.state i).sent, ∀ c' ∈ (π.state i).sent, c.dst = c'.dst →
    plHash c.raised.cause = plHash c'.raised.cause → c = c'

end

end DSA
