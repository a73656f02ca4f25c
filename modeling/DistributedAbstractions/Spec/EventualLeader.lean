import DistributedAbstractions.Spec.LeaderElection
import DistributedAbstractions.Spec.Orchestrator

/-! The eventual leader elector: heartbeats with epochs over fair-loss links, the choice of a leader
at each timeout, and the two loops that call the timeout handler. Allocations succeed, and the
period does not overflow. -/

namespace DSA

open CLib Net Timeval

def HEARTHBEAT_INTERVAL_SEC : ℤ := 4
def HEARTBEAT_INCREMENT_SEC : ℤ := 2
def HE_CODE : CString := ['H', 'E']

/-- Nobody reads the message that is kept besides. -/
structure Heartbeat where
  sender : ℤ
  epoch : ℤ
deriving DecidableEq

structure Trust where
  peerRank : ℤ
deriving DecidableEq

structure Ele where
  candidates : List Heartbeat
  leader : ℤ
  maxRank : ℕ
  localRank : ℤ
  localEpoch : ℤ
  periodDurationSecs : ℤ
deriving DecidableEq

/-- The elector that `ele_init` sets up once it has its epoch. -/
def eleNew (localRank : ℤ) (maxRank : ℕ) (epoch : ℤ) : Ele where
  candidates := []
  leader := maxRank
  maxRank := maxRank
  localRank := localRank
  localEpoch := epoch
  periodDurationSecs := HEARTHBEAT_INTERVAL_SEC

/-- The search through the candidates. An older entry of the sender is removed, and that is all. -/
def recordHeartbeat (hb : Heartbeat) : List Heartbeat → List Heartbeat
  | [] => [hb]
  | past :: rest =>
    if past.sender = hb.sender then
      if past.epoch < hb.epoch then rest else past :: rest
    else past :: recordHeartbeat hb rest

def heartbeatOf (e : Deliver) : Option Heartbeat :=
  (tryParseMessage e.msg HE_CODE).map fun msg => ⟨e.sender, atoi msg⟩

/-- The wrapper. -/
def eleWrapper (ele : Ele) (e : Deliver) : Ele :=
  match heartbeatOf e with
  | some hb => { ele with candidates := recordHeartbeat hb ele.candidates }
  | none => ele

def betterCandidate (best hb : Heartbeat) : Heartbeat :=
  if hb.epoch < best.epoch ∨ hb.sender > best.sender ∧ hb.epoch = best.epoch then hb else best

def Ele.self (ele : Ele) : Heartbeat := ⟨ele.localRank, ele.localEpoch⟩

def bestCandidate (ele : Ele) : Heartbeat := ele.candidates.foldl betterCandidate ele.self

abbrev EleEffects := List (Effect CString Trust)

def sendHeartbeats (ele : Ele) : EleEffects :=
  ((ranks ele.maxRank).filter (· ≠ ele.localRank)).map fun peerRank =>
    .send peerRank (snprintf MAX_MSG_LEN (HE_CODE ++ ',' :: fmtInt ele.localEpoch))

def eleHandleTimeout (ele : Ele) : Ele × EleEffects :=
  let best := bestCandidate ele
  if best.sender ≠ ele.leader then
    ({ ele with
        leader := best.sender
        periodDurationSecs := ele.periodDurationSecs + HEARTBEAT_INCREMENT_SEC
        candidates := [] },
      .indicate ⟨best.sender⟩ :: sendHeartbeats ele)
  else ({ ele with candidates := [] }, sendHeartbeats ele)

inductive EleEvent
  | deliver (e : Deliver)
  | timeout
deriving DecidableEq

def eleStep (ele : Ele) : EleEvent → Ele × EleEffects
  | .deliver e => (eleWrapper ele e, [])
  | .timeout => eleHandleTimeout ele

/-- The heartbeats among the messages. -/
def heartbeatsOf (es : List Deliver) : List Heartbeat := es.filterMap heartbeatOf

/-- The epochs heard from `p`, in order. -/
def epochsFrom (p : ℤ) (hbs : List Heartbeat) : List ℤ :=
  (hbs.filter fun hb => hb.sender = p).map Heartbeat.epoch

/-- `hb` is from `p`, and no heartbeat from `p` has a higher epoch. -/
def Highest (hbs : List Heartbeat) (p : ℤ) (hb : Heartbeat) : Prop :=
  (hb ∈ hbs ∧ hb.sender = p) ∧ ∀ hb' ∈ hbs, hb'.sender = p → hb'.epoch ≤ hb.epoch

/-- Of everyone who was heard there is one entry, with the highest epoch. -/
def HighestKept (hbs candidates : List Heartbeat) : Prop :=
  ∀ p, (∃ hb ∈ hbs, hb.sender = p) →
    ∃ c, candidates.filter (fun c => c.sender = p) = [c] ∧ Highest hbs p c

/-- Epochs in blocks, each of which ends with the first epoch that is above its own first. -/
inductive InBlocks : List ℤ → Prop
  | nil : InBlocks []
  | block {pre mid : List ℤ} {a c : ℤ} (hpre : InBlocks pre) (hmid : ∀ b ∈ mid, b ≤ a) (hc : a < c) :
      InBlocks (pre ++ a :: mid ++ [c])

/-- From everyone who was heard a heartbeat with the highest epoch arrives after whole blocks. -/
def HighestAfterBlocks (hbs : List Heartbeat) : Prop :=
  ∀ p, (∃ hb ∈ hbs, hb.sender = p) →
    ∃ pre hb post, hbs = pre ++ hb :: post ∧ Highest hbs p hb ∧ InBlocks (epochsFrom p pre)

/-- A lower epoch is better, and with the same epoch a higher rank. -/
def Beats (a b : Heartbeat) : Prop := a.epoch < b.epoch ∨ a.epoch = b.epoch ∧ b.sender < a.sender

def IsBest (S : Set Heartbeat) (b : Heartbeat) : Prop := b ∈ S ∧ ∀ x ∈ S, x ≠ b → Beats b x

/-- The candidates and the local process. -/
def Ele.contenders (ele : Ele) : Set Heartbeat := {hb | hb = ele.self ∨ hb ∈ ele.candidates}

def eleAfter (ele : Ele) (evs : List EleEvent) : Ele := Machine.state eleStep ele evs

/-- The peers that the timeout handler has indicated as leaders. -/
def trusts (ele : Ele) (evs : List EleEvent) : List ℤ :=
  (indications (Machine.outputs eleStep ele evs)).map Trust.peerRank

/-- The timeout handler makes the best contender the leader, which depends on nothing but who the
contenders are, and tells of a change and lengthens the period. Heartbeats do neither. -/
structure Elects (ele : Ele) : Prop where
  best : ∃ b, IsBest ele.contenders b ∧ (∀ b', IsBest ele.contenders b' → b' = b) ∧
    (eleHandleTimeout ele).1.leader = b.sender
  agrees : ∀ ele' : Ele, ele'.contenders = ele.contenders →
    (eleHandleTimeout ele').1.leader = (eleHandleTimeout ele).1.leader
  trust : indications (eleHandleTimeout ele).2 =
    if (eleHandleTimeout ele).1.leader = ele.leader then [] else [⟨(eleHandleTimeout ele).1.leader⟩]
  period : (eleHandleTimeout ele).1.periodDurationSecs =
    if (eleHandleTimeout ele).1.leader = ele.leader then ele.periodDurationSecs
    else ele.periodDurationSecs + HEARTBEAT_INCREMENT_SEC
  heartbeat : ∀ e, (eleWrapper ele e).leader = ele.leader ∧
    (eleWrapper ele e).periodDurationSecs = ele.periodDurationSecs

/-- The calls of the timeout handler, with the period after each of them. -/
abbrev Calls := List (Timeval × ℤ)

/-- From one call to the next passes at least the period that the first has left. -/
def PeriodHonoured (calls : Calls) : Prop :=
  calls.IsChain fun c c' => timeradd c.1 (ofSec c.2) ≤ c'.1

/-- Where `ele_start` is. -/
inductive ElePhase
  | idle
  | consuming
  | returned
deriving DecidableEq

structure EleLoop where
  ele : Ele
  phase : ElePhase
  heartbeatDeadline : Timeval
  externalDeadline : Option Timeval
  clock : Timeval
  calls : Calls

/-- The entry of the loop, a delivery in `fll_consume`, and the rest of a round, with what the
clock shows when it ends, when the timeout handler is called and when it has returned. -/
inductive EleLoopEvent
  | start (externalTimeout : Option Timeval) (t t' : Timeval)
  | deliver (e : Deliver)
  | round (now called returned : Timeval)

def eleLoopNext (s : EleLoop) : EleLoopEvent → Option EleLoop
  | .start externalTimeout t t' =>
    if s.phase = .idle then some { s with
      phase := .consuming
      heartbeatDeadline := tvResetDeadline t (ofSec s.ele.periodDurationSecs)
      externalDeadline := externalTimeout.map (timeradd t')
      clock := t' }
    else none
  | .deliver e => if s.phase = .consuming then some { s with ele := eleWrapper s.ele e } else none
  | .round now called returned =>
    if s.phase = .consuming then
      let phase := if s.externalDeadline.any (· ≤ now) then ElePhase.returned else .consuming
      if s.heartbeatDeadline ≤ now then
        let ele := (eleHandleTimeout s.ele).1
        some { s with
          ele := ele
          phase := phase
          heartbeatDeadline := tvResetDeadline returned (ofSec ele.periodDurationSecs)
          clock := returned
          calls := s.calls ++ [(called, ele.periodDurationSecs)] }
      else some { s with phase := phase, clock := now }
    else none

def eleStart (ele : Ele) : Trans.System EleLoop EleLoopEvent where
  init := ⟨ele, .idle, ⟨0, 0⟩, none, ⟨0, 0⟩, []⟩
  next := eleLoopNext

def EleTimely (s : EleLoop) : EleLoopEvent → Prop
  | .start _ t t' => (t.Valid ∧ s.clock ≤ t) ∧ t'.Valid ∧ t ≤ t'
  | .deliver _ => True
  | .round now called returned =>
    (now.Valid ∧ s.clock ≤ now) ∧ (called.Valid ∧ now ≤ called) ∧ returned.Valid ∧ called ≤ returned

instance (s : EleLoop) : (e : EleLoopEvent) → Decidable (EleTimely s e)
  | .start _ _ _ => inferInstanceAs (Decidable (_ ∧ _))
  | .deliver _ => isTrue trivial
  | .round _ _ _ => inferInstanceAs (Decidable (_ ∧ _))

/-- The one task of `ele_get_tasks`. -/
def eleGetTasks (ele : Ele) : TaskSpec := ⟨ofSec ele.periodDurationSecs, 1, valid_ofSec _⟩

structure EleDriven where
  ele : Ele
  calls : Calls

/-- An orchestrator with the task of the elector, which comes first, and other tasks. Its handler
delivers heartbeats. -/
def eleProgram (ele : Ele) (others : ℕ → TaskSpec) : Program EleDriven Deliver where
  spec
    | 0 => eleGetTasks ele
    | k + 1 => others k
  init := ⟨ele, []⟩
  callback
    | 0, t, d =>
      let ele := (eleHandleTimeout d.ele).1
      ⟨ele, d.calls ++ [(t, ele.periodDurationSecs)]⟩
    | _ + 1, _, d => d
  act d e := some { d with ele := eleWrapper d.ele e }

/-- The task that the next step calls, if the scan has come to one that is due. -/
def OrchState.callee {ω : Type} (s : OrchState ω) : Option ℕ :=
  match s.phase with
  | .scanning now i => s.orch.tasks[i]?.filter fun k => s.orch.isDue k now
  | _ => none

/-- If the timeout handler is called next it does not find a new leader. -/
def KeepsLeader (s : OrchState EleDriven) : Prop :=
  s.callee = some 0 → (bestCandidate s.world.ele).sender = s.world.ele.leader

instance (s : OrchState EleDriven) : Decidable (KeepsLeader s) := inferInstanceAs (Decidable (_ → _))

end DSA
