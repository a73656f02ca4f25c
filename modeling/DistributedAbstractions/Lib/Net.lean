import DistributedAbstractions.Lib.Run
import Mathlib.Data.Finset.Basic
import Mathlib.Logic.Function.Basic

/-! Processes that exchange messages over an asynchronous network. Processes may
crash in the middle of a handler, the ones in `byz` are played by an adversary.
Every message a process sends is carried at most once to its recipient; what the
adversary adds is a message of its own or one that it has seen somebody send. -/

namespace Net

structure Packet (μ : Type) where
  src : ℤ
  dst : ℤ
  msg : μ
deriving DecidableEq

inductive Input (ι μ : Type)
  | call (i : ι)
  | receive (src : ℤ) (m : μ)
deriving DecidableEq

inductive Effect (μ ω : Type)
  | send (dst : ℤ) (m : μ)
  | indicate (o : ω)
deriving DecidableEq

/-- The code of a process. `ρ` is what the environment answers to the handler. -/
structure Protocol (ρ σ ι μ ω : Type) where
  init : ℤ → σ
  handle : ρ → σ → Input ι μ → σ × List (Effect μ ω)

/-- A process with its history, oldest entries first. -/
structure Proc (σ ι μ ω : Type) where
  state : σ
  inputs : List (Input ι μ)
  effects : List (Effect μ ω)
  crashed : Bool

structure State (σ ι μ ω : Type) where
  proc : ℤ → Proc σ ι μ ω
  flight : List (Packet μ)
  handled : List (Packet μ)

/-- Processes have the ranks `1` to `size`. The links bring what `carries` allows, the
adversary what `forges` allows. -/
structure Setting (μ : Type) where
  size : ℕ
  byz : Finset ℤ
  replays : Bool
  crashes : Bool
  carries : Packet μ → Bool
  forges : Packet μ → Bool

inductive Arrival (ι μ : Type)
  | call (i : ι)
  | deliver (src : ℤ) (m : μ)
  | forge (src : ℤ) (m : μ)

/-- `act p r a stop`: process `p` handles `a`, and crashes after `k` effects of
the handler when `stop` is `some k`. -/
inductive Event (ρ ι μ : Type)
  | act (p : ℤ) (r : ρ) (a : Arrival ι μ) (stop : Option ℕ)
  | crash (p : ℤ)

def Arrival.input {ι μ : Type} : Arrival ι μ → Input ι μ
  | .call i => .call i
  | .deliver src m => .receive src m
  | .forge src m => .receive src m

def Effect.packet? {μ ω : Type} (p : ℤ) : Effect μ ω → Option (Packet μ)
  | .send d m => some ⟨p, d, m⟩
  | .indicate _ => none

def Effect.indication? {μ ω : Type} : Effect μ ω → Option ω
  | .send _ _ => none
  | .indicate o => some o

def packets {μ ω : Type} (p : ℤ) (es : List (Effect μ ω)) : List (Packet μ) :=
  es.filterMap (Effect.packet? p)

def indications {μ ω : Type} (es : List (Effect μ ω)) : List ω :=
  es.filterMap Effect.indication?

def Input.call? {ι μ : Type} : Input ι μ → Option ι
  | .call i => some i
  | .receive _ _ => none

def calls {ι μ : Type} (is : List (Input ι μ)) : List ι := is.filterMap Input.call?

def cut {α : Type} : Option ℕ → List α → List α
  | none, l => l
  | some k, l => l.take k

def Proc.perform {ρ σ ι μ ω : Type} (P : Protocol ρ σ ι μ ω) (l : Proc σ ι μ ω) (r : ρ)
    (i : Input ι μ) : Proc σ ι μ ω :=
  ⟨(P.handle r l.state i).1, l.inputs ++ [i], l.effects ++ (P.handle r l.state i).2, l.crashed⟩

variable {ρ σ ι μ ω : Type} [DecidableEq μ]

namespace State

def said (s : State σ ι μ ω) (p : ℤ) (m : μ) : Bool :=
  (s.proc p).effects.any fun
    | .send _ m' => m' = m
    | .indicate _ => false

def consume (s : State σ ι μ ω) (p : ℤ) : Arrival ι μ → State σ ι μ ω
  | .deliver src m => { s with flight := s.flight.erase ⟨src, p, m⟩, handled := s.handled ++ [⟨src, p, m⟩] }
  | _ => s

def act (P : Protocol ρ σ ι μ ω) (s : State σ ι μ ω) (p : ℤ) (r : ρ) (a : Arrival ι μ)
    (stop : Option ℕ) : State σ ι μ ω :=
  let out := P.handle r (s.proc p).state a.input
  let s₁ := s.consume p a
  { proc := Function.update s.proc p
      ⟨out.1, (s.proc p).inputs ++ [a.input], (s.proc p).effects ++ cut stop out.2, stop.isSome⟩
    flight := s₁.flight ++ packets p (cut stop out.2)
    handled := s₁.handled }

def crash (s : State σ ι μ ω) (p : ℤ) : State σ ι μ ω :=
  { s with proc := Function.update s.proc p { s.proc p with crashed := true } }

end State

namespace Setting

def rank (F : Setting μ) (p : ℤ) : Bool := 1 ≤ p ∧ p ≤ F.size

/-- The processes that run the code. -/
def correct (F : Setting μ) (p : ℤ) : Bool := F.rank p && !decide (p ∈ F.byz)

def live (F : Setting μ) (s : State σ ι μ ω) (p : ℤ) : Bool := F.correct p && !(s.proc p).crashed

def admits (F : Setting μ) (s : State σ ι μ ω) (p : ℤ) : Arrival ι μ → Bool
  | .call _ => true
  | .deliver src m => decide (⟨src, p, m⟩ ∈ s.flight) && F.carries ⟨src, p, m⟩
  | .forge src m =>
    F.rank src && (decide (src ∈ F.byz) || (F.replays && s.said src m)) && F.forges ⟨src, p, m⟩

end Setting

def next (P : Protocol ρ σ ι μ ω) (F : Setting μ) (s : State σ ι μ ω) :
    Event ρ ι μ → Option (State σ ι μ ω)
  | .act p r a stop =>
    if F.live s p && F.admits s p a && (stop.isNone || F.crashes) then some (s.act P p r a stop)
    else none
  | .crash p => if F.live s p && F.crashes then some (s.crash p) else none

def start (P : Protocol ρ σ ι μ ω) : State σ ι μ ω :=
  ⟨fun p => ⟨P.init p, [], [], false⟩, [], []⟩

def system (P : Protocol ρ σ ι μ ω) (F : Setting μ) : Trans.System (State σ ι μ ω) (Event ρ ι μ) :=
  ⟨start P, next P F⟩

/-- No message between two processes of `A` is on its way. -/
def Quiet (s : State σ ι μ ω) (A : Finset ℤ) : Prop :=
  ∀ k ∈ s.flight, ¬ (k.src ∈ A ∧ k.dst ∈ A)

instance (s : State σ ι μ ω) (A : Finset ℤ) : Decidable (Quiet s A) :=
  inferInstanceAs (Decidable (∀ k ∈ s.flight, ¬ (k.src ∈ A ∧ k.dst ∈ A)))

end Net
