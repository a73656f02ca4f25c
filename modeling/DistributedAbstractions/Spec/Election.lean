import DistributedAbstractions.Spec.EventualLeader
import DistributedAbstractions.Spec.Stack

/-! The eventual leader electors over their fair-loss links down to the datagrams, run by processes that crash
and come back with what is in their epoch files. A datagram that has been sent may be lost, repeated and
overtaken by others. No send fails. -/

namespace DSA

open CLib Filter Net Trans

/-- What `ele_start` does ahead of its loop. -/
def eleGreeting (ele : Ele) : EleEffects := .indicate ⟨ele.leader⟩ :: sendHeartbeats ele

/-- The electors of those that are up, and what each process has indicated in all of its incarnations. -/
structure Election where
  file : ℤ → StateFile
  node : ℤ → Option Ele
  trusts : ℤ → List Trust
  air : List Datagram

/-- A process crashes after the first `k` effects of the handler, or of the start, when `stop` is `some k`. -/
inductive ElectionEvent
  | boot (p : ℤ) (i : Incarnation) (stop : Option ℕ)
  | receive (p : ℤ) (x : Received)
  | timeout (p : ℤ) (stop : Option ℕ)
  | crash (p : ℤ)

namespace Election

variable (w : Socket) (n : ℕ) (s : Election) (p : ℤ)

/-- `p` has `es` done, and `ele` is what it is left with unless it crashes. -/
def perform (ele : Ele) (es : EleEffects) (stop : Option ℕ) : Election where
  file := s.file
  node := Function.update s.node p (if stop.isNone then some ele else none)
  trusts := Function.update s.trusts p (s.trusts p ++ indications (cut stop es))
  air := s.air ++ (packets p (cut stop es)).map fun k => w.datagram p ⟨k.msg, k.dst⟩

/-- The incarnation writes to the file, and runs if it is one that sends heartbeats. -/
def boot (i : Incarnation) (stop : Option ℕ) : Election :=
  let s₁ := { s with file := Function.update s.file p (eleInit (s.file p) i).1 }
  match i with
  | .through _ true =>
    let ele := eleNew p n (localEpoch (s.file p))
    s₁.perform w p ele (eleGreeting ele) stop
  | _ => s₁

def receive (ele : Ele) (x : Received) : Election :=
  match consumeMsg x with
  | .callback e => { s with node := Function.update s.node p (some (eleWrapper ele e)) }
  | .returned => s
  | .overrun => { s with node := Function.update s.node p none }

def timeout (ele : Ele) (stop : Option ℕ) : Election :=
  s.perform w p (eleHandleTimeout ele).1 (eleHandleTimeout ele).2 stop

end Election

def electionNext (w : Socket) (n : ℕ) (s : Election) : ElectionEvent → Option Election
  | .boot p i stop => if p ∈ ranks n ∧ s.node p = none then some (s.boot w n p i stop) else none
  | .receive p x =>
    (s.node p).bind fun ele => if ⟨p, x.bytes⟩ ∈ s.air then some (s.receive p ele x) else none
  | .timeout p stop => (s.node p).map fun ele => s.timeout w p ele stop
  | .crash p => (s.node p).map fun _ => { s with node := Function.update s.node p none }

def election (w : Socket) (n : ℕ) : System Election ElectionEvent :=
  ⟨⟨fun _ => none, fun _ => none, fun _ => [], []⟩, electionNext w n⟩

/-- Epochs are stored before they are sent. In the buffer for the rank there is no digit behind it. -/
def ElectionFair (s : Election) : ElectionEvent → Prop
  | .boot p i _ => KeepsEpoch (s.file p) i
  | .receive _ x => ∀ c ∈ x.id.head?, ¬ c.isDigit
  | .timeout _ _ => True
  | .crash _ => True

instance (s : Election) : (e : ElectionEvent) → Decidable (ElectionFair s e)
  | .boot _ _ _ => inferInstanceAs (Decidable (KeepsEpoch _ _))
  | .receive _ _ => Option.decidableForallMem _
  | .timeout _ _ => isTrue trivial
  | .crash _ => isTrue trivial

/-- What is sent to `q` for `hb`. -/
def heartbeatDatagram (w : Socket) (hb : Heartbeat) (q : ℤ) : Datagram :=
  w.datagram hb.sender ⟨snprintf MAX_MSG_LEN (HE_CODE ++ ',' :: fmtInt hb.epoch), q⟩

/-- The ranks and epochs of those of `U`. -/
def Election.standing (s : Election) (U : Finset ℤ) : Set Heartbeat :=
  {hb | hb.sender ∈ U ∧ ∃ ele, s.node hb.sender = some ele ∧ hb = ele.self}

section

variable {w : Socket} {n : ℕ} (U : Finset ℤ) (π : Path (election w n) ElectionFair)

def SentAt (i : ℕ) (d : Datagram) : Prop := (π.state i).air.count d < (π.state (i + 1)).air.count d

def ArrivesAt (i : ℕ) (d : Datagram) : Prop := ∃ x, π.event i = some (.receive d.dst x) ∧ x.bytes = d.bytes

/-- The timeout handler of `p` has not been called between `j` and `i`. -/
def SamePeriod (p : ℤ) (j i : ℕ) : Prop := ∀ k, j < k → k < i → ∀ stop, π.event k ≠ some (.timeout p stop)

/-- From some time on the processes of `U` are up, and their timers go off again and again; the others are
down again and again. The links are fair-loss links: what is sent again and again to one of `U` arrives again
and again, and nothing else does. In the end a period that is by `δ` longer than the one of a process of `U`
is long enough to hear from it. -/
structure ElectionLive (δ : ℤ) : Prop where
  nonempty : U.Nonempty
  ranks : U ⊆ peers n
  stays : ∀ p ∈ U, ∀ᶠ i in atTop, (π.state i).node p ≠ none
  leaves : ∀ p ∉ U, ∃ᶠ i in atTop, (π.state i).node p = none
  timer : ∀ p ∈ U, ∃ᶠ i in atTop, π.event i = some (.timeout p none)
  fair_loss : ∀ d : Datagram, d.dst ∈ U → (∃ᶠ i in atTop, SentAt π i d) → ∃ᶠ i in atTop, ArrivesAt π i d
  finite_duplication : ∀ d : Datagram, (∃ᶠ i in atTop, ArrivesAt π i d) → ∃ᶠ i in atTop, SentAt π i d
  timely : ∀ᶠ i in atTop, ∀ p ∈ U, ∀ q ∈ U, q ≠ p → π.event i = some (.timeout p none) →
    ∀ ele ele', (π.state i).node p = some ele → (π.state i).node q = some ele' →
      ele'.periodDurationSecs + δ ≤ ele.periodDurationSecs →
        ∃ j < i, ArrivesAt π j (heartbeatDatagram w ele'.self p) ∧ SamePeriod π p j i

/-- In the end it is the best of those of `U` that each of them has been told to trust, and nobody is told
anything else any more. -/
def Elected : Prop := ∃ hb : Heartbeat, ∀ᶠ i in atTop, IsBest ((π.state i).standing U) hb ∧
  ∀ p ∈ U, ((π.state i).trusts p).getLast? = some ⟨hb.sender⟩ ∧ (π.state (i + 1)).trusts p = (π.state i).trusts p

end

end DSA
