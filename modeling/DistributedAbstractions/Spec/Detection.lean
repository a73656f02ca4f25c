import DistributedAbstractions.Lib.Heartbeat
import DistributedAbstractions.Spec.BcFrame
import DistributedAbstractions.Spec.LeaderElection

/-! The perfect failure detector and the monarchical leader elector on top of it, run by processes some of
which crash, over ideal links that bring each message once, however short it is. -/

namespace DSA

open CLib Net Trans

/-- The start of a detector, and the end of each of its periods. -/
inductive FdCall
  | start
  | timeout
deriving DecidableEq

def IsTimeout (i : FdCall) : Prop := i = .timeout

instance : DecidablePred IsTimeout := fun i => inferInstanceAs (Decidable (i = .timeout))

/-- The loop ahead of the one that consumes messages. -/
def pfdStart (pfd : Pfd) : PfdEffects :=
  ((ranks pfd.maxRank).filter (· ≠ pfd.localRank)).map (.send · HB_CODE)

def pfdProtocol (maxRank : ℕ) : Protocol Unit Pfd FdCall CString Crash where
  init localRank := pfdInit localRank maxRank
  handle _ pfd
    | .call .start => (pfd, pfdStart pfd)
    | .call .timeout => pfdHandleTimeout pfd
    | .receive sender msg => pfdCallback pfd ⟨msg, sender⟩

abbrev PfdState := State Pfd FdCall CString Crash

def pfdSystem (maxRank : ℕ) : System PfdState (Event Unit FdCall CString) :=
  system (pfdProtocol maxRank) (crashSetting maxRank)

/-- Periods are long enough for a heartbeat and its reply. -/
abbrev Synchronous {σ ω : Type} (maxRank : ℕ) :
    State σ FdCall CString ω → Event Unit FdCall CString → Prop :=
  Prompt (peers maxRank) HB_CODE IA_CODE IsTimeout

/-- Only who has crashed is reported; and who has fallen silent before the last two periods of `p` ended is
among those that `p` has reported. -/
structure PfdPerfect (maxRank : ℕ) (s₀ : PfdState) (post : List (Event Unit FdCall CString)) (s : PfdState) :
    Prop where
  strong_accuracy : ∀ p q, ⟨q⟩ ∈ indications (s.proc p).effects → (s.proc q).crashed = true
  strong_completeness : ∀ p ∈ uncrashed maxRank s, ∀ q ∈ peers maxRank, q ≠ p → Silent s₀ p q →
    2 ≤ post.countP (EndsPeriod IsTimeout p) → ⟨q⟩ ∈ indications (s.proc p).effects

/-- The elector with the detector that it has started. -/
structure MleNode where
  pfd : Pfd
  mle : Mle

/-- The detector calls `mle_callback_on_crash` for what it indicates. -/
def onPfdReports (mle : Mle) : PfdEffects → Mle × List (Effect CString Leader)
  | [] => (mle, [])
  | .send recipient msg :: es => ((onPfdReports mle es).1, .send recipient msg :: (onPfdReports mle es).2)
  | .indicate crash :: es =>
    let out := mleCallbackOnCrash mle crash
    ((onPfdReports out.1 es).1, out.2.map .indicate ++ (onPfdReports out.1 es).2)

def mleTakes (out : Pfd × PfdEffects) (mle : Mle) : MleNode × List (Effect CString Leader) :=
  (⟨out.1, (onPfdReports mle out.2).1⟩, (onPfdReports mle out.2).2)

def mleProtocol (maxRank : ℕ) : Protocol Unit MleNode FdCall CString Leader where
  init localRank := ⟨pfdInit localRank maxRank, mleInit maxRank⟩
  handle _ node
    | .call .start =>
      let out := mleTakes (node.pfd, pfdStart node.pfd) node.mle
      (out.1, .indicate ⟨node.mle.leader⟩ :: out.2)
    | .call .timeout => mleTakes (pfdHandleTimeout node.pfd) node.mle
    | .receive sender msg => mleTakes (pfdCallback node.pfd ⟨msg, sender⟩) node.mle

abbrev MleState := State MleNode FdCall CString Leader

def mleSystem (maxRank : ℕ) : System MleState (Event Unit FdCall CString) :=
  system (mleProtocol maxRank) (crashSetting maxRank)

/-- Nobody who is up is passed over, so that two leaders who are up are the same. Who has ended two periods
since all that have crashed fell silent follows the highest rank that is up. -/
structure MleAgreement (maxRank : ℕ) (s₀ : MleState) (post : List (Event Unit FdCall CString)) (s : MleState) :
    Prop where
  highest : ∀ p ∈ uncrashed maxRank s, ∀ q ∈ uncrashed maxRank s, q ≤ (s.proc p).state.mle.leader
  agreement : ∀ p ∈ uncrashed maxRank s, ∀ q ∈ uncrashed maxRank s,
    (s.proc p).state.mle.leader ∈ uncrashed maxRank s → (s.proc q).state.mle.leader ∈ uncrashed maxRank s →
    (s.proc p).state.mle.leader = (s.proc q).state.mle.leader
  rightful : ∀ p r, ⟨r⟩ ∈ indications (s.proc p).effects → ∀ q ∈ uncrashed maxRank s, q ≤ r
  eventual : ∀ p ∈ uncrashed maxRank s, (∀ q ∈ peers maxRank, (s.proc q).crashed = true → Silent s₀ p q) →
    2 ≤ post.countP (EndsPeriod IsTimeout p) →
    IsGreatest {q | q ∈ uncrashed maxRank s} (s.proc p).state.mle.leader

end DSA
