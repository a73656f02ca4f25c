import DistributedAbstractions.Lib.Machine
import DistributedAbstractions.Spec.Parsing

/-! The perfect and the eventually perfect failure detector over perfect links: every peer is
sent a heartbeat in each period, and who has not said that it is alive when the period ends is
reported. Allocations succeed. -/

namespace DSA

open CLib Net

def HB_CODE : CString := ['H', 'B']
def IA_CODE : CString := ['I', 'A']

/-- What happens to a detector once it is initialised. -/
inductive FdEvent
  | deliver (e : Deliver)
  | timeout
deriving DecidableEq

/-- `pfd_callback` of both detectors: the list of alive peers with what is sent. -/
def fdCallback {ω : Type} (alivePeers : List ℤ) (e : Deliver) : List ℤ × List (Effect CString ω) :=
  if (tryParseMessage e.msg HB_CODE).isSome then (alivePeers, [.send e.sender IA_CODE])
  else if (tryParseMessage e.msg IA_CODE).isSome then (alivePeers ++ [e.sender], [])
  else (alivePeers, [])

structure Crash where
  peerId : ℤ
deriving DecidableEq

structure Pfd where
  maxRank : ℕ
  localRank : ℤ
  alivePeers : List ℤ
  faultyPeers : List ℤ
deriving DecidableEq

abbrev PfdEffects := List (Effect CString Crash)

def pfdInit (localRank : ℤ) (maxRank : ℕ) : Pfd where
  maxRank := maxRank
  localRank := localRank
  alivePeers := (ranks maxRank).filter (· ≠ localRank)
  faultyPeers := []

/-- One round of the loop over the peers. -/
def pfdCheckPeer (pfd : Pfd) (peerRank : ℤ) : Pfd × PfdEffects :=
  if peerRank = pfd.localRank then (pfd, [])
  else
    let isAlive := decide (peerRank ∈ pfd.alivePeers)
    let isFaulty := decide (peerRank ∈ pfd.faultyPeers)
    if !isAlive && !isFaulty then
      ({ pfd with faultyPeers := pfd.faultyPeers ++ [peerRank] },
        [.indicate ⟨peerRank⟩, .send peerRank HB_CODE])
    else (pfd, [.send peerRank HB_CODE])

def pfdHandleTimeout (pfd : Pfd) : Pfd × PfdEffects :=
  let out := Machine.run pfdCheckPeer pfd (ranks pfd.maxRank)
  ({ out.1 with alivePeers := [] }, out.2)

def pfdCallback (pfd : Pfd) (e : Deliver) : Pfd × PfdEffects :=
  let out : List ℤ × PfdEffects := fdCallback pfd.alivePeers e
  ({ pfd with alivePeers := out.1 }, out.2)

def pfdStep (pfd : Pfd) : FdEvent → Pfd × PfdEffects
  | .deliver e => pfdCallback pfd e
  | .timeout => pfdHandleTimeout pfd

inductive EpfdIndication
  | suspect (peerRank : ℤ)
  | restore (peerRank : ℤ)
deriving DecidableEq

structure Epfd where
  maxRank : ℕ
  localRank : ℤ
  alivePeers : List ℤ
  suspectedPeers : List ℤ
deriving DecidableEq

abbrev EpfdEffects := List (Effect CString EpfdIndication)

/-- The loop ends before `max_rank`, and the entries it adds are left as `calloc` makes them. -/
def epfdInit (localRank : ℤ) (maxRank : ℕ) : Epfd where
  maxRank := maxRank
  localRank := localRank
  alivePeers := ((ranks (maxRank - 1)).filter (· ≠ localRank)).map fun _ => 0
  suspectedPeers := []

def epfdCheckPeer (epfd : Epfd) (peerRank : ℤ) : Epfd × EpfdEffects :=
  if peerRank = epfd.localRank then (epfd, [])
  else
    let isAlive := decide (peerRank ∈ epfd.alivePeers)
    let isFaulty := decide (peerRank ∈ epfd.suspectedPeers)
    if !isAlive && !isFaulty then
      ({ epfd with suspectedPeers := epfd.suspectedPeers ++ [peerRank] },
        [.indicate (.suspect peerRank), .send peerRank HB_CODE])
    else if isAlive && isFaulty then
      ({ epfd with suspectedPeers := epfd.suspectedPeers.erase peerRank },
        [.indicate (.restore peerRank), .send peerRank HB_CODE])
    else (epfd, [.send peerRank HB_CODE])

def epfdHandleTimeout (epfd : Epfd) : Epfd × EpfdEffects :=
  let out := Machine.run epfdCheckPeer epfd (ranks epfd.maxRank)
  ({ out.1 with alivePeers := [] }, out.2)

def epfdCallback (epfd : Epfd) (e : Deliver) : Epfd × EpfdEffects :=
  let out : List ℤ × EpfdEffects := fdCallback epfd.alivePeers e
  ({ epfd with alivePeers := out.1 }, out.2)

def epfdStep (epfd : Epfd) : FdEvent → Epfd × EpfdEffects
  | .deliver e => epfdCallback epfd e
  | .timeout => epfdHandleTimeout epfd

/-- The detectors after a list of events. -/
def pfdAfter (localRank : ℤ) (maxRank : ℕ) (evs : List FdEvent) : Pfd :=
  Machine.state pfdStep (pfdInit localRank maxRank) evs

def epfdAfter (localRank : ℤ) (maxRank : ℕ) (evs : List FdEvent) : Epfd :=
  Machine.state epfdStep (epfdInit localRank maxRank) evs

/-- The number of periods that have ended. -/
def timeouts (evs : List FdEvent) : ℕ := evs.count .timeout

def IsImAlive (e : Deliver) : Prop := (tryParseMessage e.msg IA_CODE).isSome = true

/-- `p` has said in period `j` that it is alive. -/
def HeardIn (evs : List FdEvent) (j : ℕ) (p : ℤ) : Prop :=
  ∃ pre e, pre ++ [.deliver e] <+: evs ∧ timeouts pre + 1 = j ∧ IsImAlive e ∧ e.sender = p

/-- The peers of a process. -/
def Remote (maxRank : ℕ) (localRank p : ℤ) : Prop := p ∈ peers maxRank ∧ p ≠ localRank

/-- Period `j` is the first after the initial one in which `p` has not been heard. -/
def FirstSilent (evs : List FdEvent) (j : ℕ) (p : ℤ) : Prop :=
  2 ≤ j ∧ ¬ HeardIn evs j p ∧ ∀ i, 2 ≤ i → i < j → HeardIn evs i p

/-- The faulty peers are those that were silent for a whole period after the initial one. Each
was reported once, when the first such period ended, and nobody else was. -/
structure ExactDetection (maxRank : ℕ) (localRank : ℤ) (evs : List FdEvent) : Prop where
  nodup : (pfdAfter localRank maxRank evs).faultyPeers.Nodup
  faulty : ∀ p, p ∈ (pfdAfter localRank maxRank evs).faultyPeers ↔
    Remote maxRank localRank p ∧ ∃ j, 2 ≤ j ∧ j ≤ timeouts evs ∧ ¬ HeardIn evs j p
  crashes : indications (Machine.outputs pfdStep (pfdInit localRank maxRank) evs) =
    (pfdAfter localRank maxRank evs).faultyPeers.map Crash.mk
  first : ∀ e p, .indicate ⟨p⟩ ∈ (pfdStep (pfdAfter localRank maxRank evs) e).2 ↔
    e = .timeout ∧ Remote maxRank localRank p ∧ FirstSilent evs (timeouts evs + 1) p

/-- What a detector that counts everyone as alive in the initial period suspects after the
`k`-th timeout. -/
def Missed (maxRank : ℕ) (localRank : ℤ) (evs : List FdEvent) (k : ℕ) (p : ℤ) : Prop :=
  Remote maxRank localRank p ∧ 2 ≤ k ∧ ¬ HeardIn evs k p

/-- After each timeout the suspected peers are those that have missed the period it ends. -/
def ExactSuspicion (maxRank : ℕ) (localRank : ℤ) (evs : List FdEvent) : Prop :=
  ∀ pre, pre ++ [.timeout] <+: evs → ∀ p,
    p ∈ (epfdAfter localRank maxRank (pre ++ [.timeout])).suspectedPeers ↔
      Missed maxRank localRank pre (timeouts pre + 1) p

def EpfdIndication.peerRank : EpfdIndication → ℤ
  | .suspect peerRank => peerRank
  | .restore peerRank => peerRank

/-- What the detector has indicated. -/
def epfdIndications (localRank : ℤ) (maxRank : ℕ) (evs : List FdEvent) : List EpfdIndication :=
  indications (Machine.outputs epfdStep (epfdInit localRank maxRank) evs)

def indicatedFor (p : ℤ) (is : List EpfdIndication) : List EpfdIndication := is.filter fun i => i.peerRank = p

/-- Suspect, restore, suspect and so on. -/
def Alternates (p : ℤ) (is : List EpfdIndication) : Prop :=
  ∀ n x, is[n]? = some x → x = if n % 2 = 0 then .suspect p else .restore p

/-- The suspected peers are those of whom the last indication says so. -/
structure Alternation (maxRank : ℕ) (localRank : ℤ) (evs : List FdEvent) : Prop where
  alternates : ∀ p, Alternates p (indicatedFor p (epfdIndications localRank maxRank evs))
  nodup : (epfdAfter localRank maxRank evs).suspectedPeers.Nodup
  suspected : ∀ p, p ∈ (epfdAfter localRank maxRank evs).suspectedPeers ↔
    (indicatedFor p (epfdIndications localRank maxRank evs)).getLast? = some (.suspect p)
  remote : ∀ i ∈ epfdIndications localRank maxRank evs, Remote maxRank localRank i.peerRank

end DSA
