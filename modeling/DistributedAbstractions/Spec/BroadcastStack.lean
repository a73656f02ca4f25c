import DistributedAbstractions.Spec.Rb
import DistributedAbstractions.Spec.Stack
import DistributedAbstractions.Spec.Urb

/-! The broadcasts over their stacks. What is asked of the environment is asked of the requests of the
application: what is sent for them, and what is relayed, then fits the datagrams. -/

namespace DSA

open CLib Net Trans

variable {σ ι ω : Type}

/-- The frame of a request fits the datagram of everybody who may relay it. -/
def Sendable (n : ℕ) (p : ℤ) (e : Broadcast) : Prop :=
  IsUnparsed e.uuid ∧ NUL ∉ e.msg ∧
    ∀ q ∈ ranks n, plCarries ⟨q, q, bcFrame (originalFrame p e)⟩ = true

instance (n : ℕ) (p : ℤ) (e : Broadcast) : Decidable (Sendable n p e) :=
  inferInstanceAs (Decidable (_ ∧ _ ∧ _))

/-- Requests have uuids of their own, and are sendable. -/
def SendsAsked (asked : ι → Option Broadcast) (n : ℕ) (t : State σ ι CString ω) (e : Event Unit ι CString) :
    Prop :=
  FreshIds asked n t e ∧
    match e with
    | .act p _ (.call i) _ => ∀ b ∈ asked i, Sendable n p b
    | _ => True

instance (asked : ι → Option Broadcast) (n : ℕ) (t : State σ ι CString ω) :
    (e : Event Unit ι CString) → Decidable (SendsAsked asked n t e)
  | .act _ _ (.call _) _ => inferInstanceAs (Decidable (_ ∧ _))
  | .act _ _ (.deliver _ _) _ => inferInstanceAs (Decidable (_ ∧ True))
  | .act _ _ (.forge _ _) _ => inferInstanceAs (Decidable (_ ∧ True))
  | .crash _ => inferInstanceAs (Decidable (_ ∧ True))

structure Beb where
  localRank : ℤ
  maxRank : ℕ

def bebBroadcastTo (beb : Beb) (msg : CString) : List (Effect CString Deliver) :=
  (sendLoop (fun _ => true) (msg.take MAX_MSG_LEN) (ranks beb.maxRank)).1

/-- Best-effort broadcast: a request is a message, and the wrapper passes on what it gets. -/
def bebProtocol (maxRank : ℕ) : Protocol Unit Beb CString CString Deliver where
  init localRank := ⟨localRank, maxRank⟩
  handle _ beb
    | .call msg => (beb, bebBroadcastTo beb msg)
    | .receive sender msg => (beb, [.indicate ⟨msg.take MAX_MSG_LEN, sender⟩])

abbrev BebStack := Stack Beb CString Deliver

/-- Nothing but that what is sent fits, which is what the application has asked for. -/
abbrev BebStackFair (n : ℕ) : BebStack → StackEvent Unit CString → Prop :=
  StackFair (bebProtocol n) (fun _ _ => True) Fitting

abbrev bebStack (w : Socket) (n : ℕ) : System BebStack (StackEvent Unit CString) :=
  stackSystem (bebProtocol n) w n

/-- A process of `A` delivers each message of another as often as that has been asked for it, and
none of anybody more often. -/
structure BebCorrect {w : Socket} {n : ℕ} (A : Finset ℤ) (π : Path (bebStack w n) (BebStackFair n)) : Prop where
  validity : ∀ p ∈ A, ∀ q ∈ A, ∀ m i, ∀ᶠ j in Filter.atTop,
    (calls ((π.state i).proc p).inputs).count m ≤ (indications ((π.state j).proc q).effects).count ⟨m, p⟩
  integrity : ∀ p q m j,
    (indications ((π.state j).proc q).effects).count ⟨m, p⟩ ≤ (calls ((π.state j).proc p).inputs).count m

abbrev UrbStack := Stack Urb Broadcast Indication

/-- What is asked of the environment of the uniform broadcast: nothing about what its processes send. -/
abbrev UrbStackFair (n : ℕ) : UrbStack → StackEvent Unit Broadcast → Prop :=
  StackFair (urbProtocol n) (SendsAsked some n) fun _ => True

abbrev urbStack (w : Socket) (n : ℕ) : System UrbStack (StackEvent Unit Broadcast) :=
  stackSystem (urbProtocol n) w n

/-- What a uniform broadcast promises its users, in a run in which the processes of `A` stay up. -/
structure UrbCorrect {w : Socket} {n : ℕ} (A : Finset ℤ) (π : Path (urbStack w n) (UrbStackFair n)) : Prop where
  validity : ∀ i, ∀ p ∈ A, ∀ e, .call e ∈ ((π.state i).proc p).inputs →
    ∀ᶠ j in Filter.atTop, ∀ q ∈ A, ⟨e.uuid, ⟨e.msg, p⟩⟩ ∈ indications ((π.state j).proc q).effects
  uniform_agreement : ∀ i p, ∀ d ∈ indications ((π.state i).proc p).effects,
    ∀ᶠ j in Filter.atTop, ∀ q ∈ A, d ∈ indications ((π.state j).proc q).effects
  no_duplication : ∀ i p, ((indications ((π.state i).proc p).effects).map (·.id)).Nodup
  no_creation : ∀ i p, ∀ d ∈ indications ((π.state i).proc p).effects,
    .call ⟨d.deliver.msg, d.id⟩ ∈ ((π.state i).proc d.deliver.sender).inputs

end DSA
