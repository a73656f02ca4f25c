import DistributedAbstractions.Spec.FailureDetectors

/-! The monarchical leader elector on top of the perfect failure detector, and the epochs of
the eventual one: a counter in a file that every incarnation of a process reads, raises and
writes back. Allocations succeed. -/

namespace DSA

open CLib

structure Leader where
  peerRank : ℤ
deriving DecidableEq

structure Mle where
  maxRank : ℕ
  crashedPeers : List ℤ
  leader : ℤ
deriving DecidableEq

def mleInit (maxRank : ℕ) : Mle := ⟨maxRank, [], maxRank⟩

/-- The search for a candidate, from `candidate` downwards. -/
def electFrom (crashedPeers : List ℤ) : ℕ → ℤ
  | 0 => 0
  | candidate + 1 =>
    if (candidate + 1 : ℤ) ∈ crashedPeers then electFrom crashedPeers candidate else candidate + 1

def mleCallbackOnCrash (mle : Mle) (e : Crash) : Mle × List Leader :=
  let crashedPeers := mle.crashedPeers ++ [e.peerId]
  if e.peerId ≠ mle.leader then ({ mle with crashedPeers := crashedPeers }, [])
  else
    let candidate := electFrom crashedPeers mle.maxRank
    ({ mle with crashedPeers := crashedPeers, leader := candidate }, [⟨candidate⟩])

def mleAfter (maxRank : ℕ) (crashes : List Crash) : Mle :=
  Machine.state mleCallbackOnCrash (mleInit maxRank) crashes

/-- The leaders that the crash handler indicates. -/
def mleIndications (maxRank : ℕ) (crashes : List Crash) : List Leader :=
  Machine.outputs mleCallbackOnCrash (mleInit maxRank) crashes

/-- The ranks that are left. -/
def Left (maxRank : ℕ) (crashes : List Crash) : Set ℤ :=
  {r | r ∈ peers maxRank ∧ (⟨r⟩ : Crash) ∉ crashes}

/-- The highest rank that is left, or 0. -/
def HighestLeft (maxRank : ℕ) (crashes : List Crash) (leader : ℤ) : Prop :=
  IsGreatest (Left maxRank crashes) leader ∨ Left maxRank crashes = ∅ ∧ leader = 0

/-- The leader is the highest rank left. The handler indicates exactly the changes of the leader,
which go down, and the order of the notifications makes no difference. -/
structure Monarch (maxRank : ℕ) (crashes : List Crash) : Prop where
  leader : HighestLeft maxRank crashes (mleAfter maxRank crashes).leader
  indicates : ∀ e : Crash, e.peerId ∈ peers maxRank →
    (mleCallbackOnCrash (mleAfter maxRank crashes) e).2 =
      if (mleCallbackOnCrash (mleAfter maxRank crashes) e).1.leader = (mleAfter maxRank crashes).leader
      then [] else [⟨(mleCallbackOnCrash (mleAfter maxRank crashes) e).1.leader⟩]
  decreasing : ((mleIndications maxRank crashes).map Leader.peerRank).Pairwise (· > ·)
  order : ∀ crashes', (∀ e ∈ crashes', e.peerId ∈ peers maxRank) → (∀ e, e ∈ crashes ↔ e ∈ crashes') →
    (mleAfter maxRank crashes).leader = (mleAfter maxRank crashes').leader

/-- The contents of `state/<rank>.epoch`, if there is such a file. -/
abbrev StateFile := Option CString

def retrieveEpoch (file : StateFile) : ℤ := (file.bind scanInt).getD (-1)

/-- What becomes of the attempt to store an epoch. The file is emptied when it is opened, and
the text reaches it with the closing at the latest. -/
inductive Storing
  | refused
  | interrupted (written : ℕ)
  | stored

def storeEpoch (file : StateFile) (epoch : ℤ) : Storing → StateFile
  | .refused => file
  | .interrupted written => some ((fmtInt epoch).take written)
  | .stored => some (fmtInt epoch)

/-- One incarnation of a process: it crashes before it opens the file, while it stores its
epoch, or not before it has got through `store_epoch`, with or without sending heartbeats. -/
inductive Incarnation
  | early
  | crashed (written : ℕ)
  | through (opened sends : Bool)

/-- The epoch of an incarnation. The increment of an `int` wraps around. -/
def localEpoch (file : StateFile) : ℤ :=
  let epoch := if retrieveEpoch file = -1 then 0 else retrieveEpoch file
  (epoch + 1).bmod (2 ^ 32)

/-- What `ele_init` leaves in the file, and the epoch in the heartbeats if any are sent. -/
def eleInit (file : StateFile) : Incarnation → StateFile × List ℤ
  | .early => (file, [])
  | .crashed written => (storeEpoch file (localEpoch file) (.interrupted written), [])
  | .through opened sends =>
    (storeEpoch file (localEpoch file) (if opened then .stored else .refused),
      if sends then [localEpoch file] else [])

/-- The epochs that the incarnations of a process send, the first of which finds no file. -/
def epochsSent (is : List Incarnation) : List ℤ := Machine.outputs eleInit none is

def EpochsGrow (is : List Incarnation) : Prop := (epochsSent is).Pairwise (· < ·)

instance (is : List Incarnation) : Decidable (EpochsGrow is) := inferInstanceAs (Decidable (List.Pairwise _ _))

/-- An incarnation that crashes while it stores its epoch has written all of it, one that
sends heartbeats could open the file, and there is an epoch to follow the one in the file. -/
def KeepsEpoch (file : StateFile) : Incarnation → Prop
  | .early => True
  | .crashed written => (fmtInt (localEpoch file)).length ≤ written ∧ retrieveEpoch file < INT_MAX
  | .through opened sends => (sends = true → opened = true) ∧ retrieveEpoch file < INT_MAX

instance (file : StateFile) : (i : Incarnation) → Decidable (KeepsEpoch file i)
  | .early => isTrue trivial
  | .crashed _ => inferInstanceAs (Decidable (_ ∧ _))
  | .through _ _ => inferInstanceAs (Decidable (_ ∧ _))

end DSA
