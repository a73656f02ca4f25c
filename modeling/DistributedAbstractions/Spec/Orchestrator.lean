import DistributedAbstractions.Lib.Run
import DistributedAbstractions.Lib.Timeval
import Mathlib.Order.Bounds.Defs

/-! The orchestrator: the loop that waits for its descriptors until the next deadline, and then
runs the tasks that are due or calls the handlers. Allocations succeed, and which descriptors are
watched is up to `select`. -/

namespace DSA

open CLib Timeval

inductive Status
  | new
  | started
  | done
deriving DecidableEq

structure Task where
  delay : Timeval
  isRecurrent : ℤ
  deadline : Timeval
  status : Status
deriving DecidableEq

/-- What `task_new` is given besides the callback. -/
structure TaskSpec where
  delay : Timeval
  isRecurrent : ℤ
  valid : delay.Valid

def taskNew (spec : TaskSpec) : Task where
  delay := spec.delay
  isRecurrent := spec.isRecurrent
  deadline := ⟨0, 0⟩
  status := .new

/-- `tv_min` of two times that are there. -/
def tvMin (a b : Timeval) : Timeval := if a < b then a else b

/-- `tv_reset_deadline` when the clock shows `now`. -/
def tvResetDeadline (now timeout : Timeval) : Timeval := timeradd now timeout

def tvTimeToDeadline (deadline now : Timeval) : Timeval :=
  if deadline ≤ now then ⟨0, 0⟩ else timersub deadline now

/-- The list holds pointers to tasks, of which `heap` is the memory. -/
structure Orchestrator where
  tasks : List ℕ
  heap : ℕ → Task
  handlers : ℕ

namespace Orchestrator

def setTask (o : Orchestrator) (k : ℕ) (task : Task) : Orchestrator :=
  { o with heap := Function.update o.heap k task }

def addTask (o : Orchestrator) (k : ℕ) : Orchestrator :=
  { o.setTask k { o.heap k with status := .new } with tasks := o.tasks ++ [k] }

def addHandler (o : Orchestrator) : Orchestrator := { o with handlers := o.handlers + 1 }

/-- The loop of `orchestrator_get_next_deadline` from a deadline found so far. -/
def minDeadline (o : Orchestrator) (nextDeadline : Option Timeval) : List ℕ → Option Timeval
  | [] => nextDeadline
  | k :: ks =>
    let deadline := (o.heap k).deadline
    o.minDeadline (if nextDeadline.all (deadline < ·) then some deadline else nextDeadline) ks

def getNextDeadline (o : Orchestrator) (externalDeadline : Option Timeval) : Option Timeval :=
  match externalDeadline, o.minDeadline none o.tasks with
  | none, nextDeadline => nextDeadline
  | some external, none => some external
  | some external, some nextDeadline => some (tvMin nextDeadline external)

/-- A round of `orchestrator_set_deadlines`. -/
def setDeadline (o : Orchestrator) (k : ℕ) (now : Timeval) : Orchestrator :=
  if (o.heap k).status = .new then
    o.setTask k { o.heap k with
      status := .started
      deadline := tvResetDeadline now (o.heap k).delay }
  else o

/-- What is done to a task after it has run. -/
def finish (o : Orchestrator) (k : ℕ) (now : Timeval) : Orchestrator :=
  if (o.heap k).isRecurrent = 1 then
    o.setTask k { o.heap k with deadline := tvResetDeadline now (o.heap k).delay }
  else o.setTask k { o.heap k with status := .done }

def isDue (o : Orchestrator) (k : ℕ) (now : Timeval) : Prop :=
  (o.heap k).status ≠ .done ∧ (o.heap k).deadline ≤ now

instance (o : Orchestrator) (k : ℕ) (now : Timeval) : Decidable (o.isDue k now) :=
  inferInstanceAs (Decidable (_ ∧ _))

end Orchestrator

/-- What an orchestrator drives: its tasks, what the callback of a task does to the components
when it is called, and what else user code can do to them. -/
structure Program (ω α : Type) where
  spec : ℕ → TaskSpec
  init : ω
  callback : ℕ → Timeval → ω → ω
  act : ω → α → Option ω

/-- Where `orchestrator_start` is. While it scans the tasks it keeps the time `now`. -/
inductive Phase
  | idle
  | arming (i : ℕ)
  | head
  | waiting (deadline timeout : Timeval)
  | scanning (now : Timeval) (i : ℕ)
  | running (now : Timeval) (i k : ℕ)
  | handling (i : ℕ)
  | returned
deriving DecidableEq

/-- The task that runs. -/
def Phase.task : Phase → Option ℕ
  | .running _ _ k => some k
  | _ => none

/-- What is observed of a run. -/
inductive Mark
  | added (k : ℕ) (t : Timeval)
  | started (t : Timeval)
  | looping (t : Timeval)
  | ran (k : ℕ) (t : Timeval)
  | finished (k : ℕ) (t : Timeval)
deriving DecidableEq

/-- The external deadline is indeterminate if there is no external timeout. -/
structure OrchState (ω : Type) where
  orch : Orchestrator
  phase : Phase
  externalTimeout : Option Timeval
  externalDeadline : Timeval
  clock : Timeval
  trace : List Mark
  world : ω

/-- The calls of user code, the result of `select`, and the steps of the orchestrator itself,
with what the clock shows. -/
inductive OrchEvent (α : Type)
  | addTask (k : ℕ) (t : Timeval)
  | addHandler
  | act (a : α)
  | start (externalTimeout : Option Timeval) (indeterminate t : Timeval)
  | wake (timedOut : Bool) (t : Timeval)
  | step (t : Timeval)

namespace OrchState

variable {ω α : Type}

/-- User code runs before the start, in the callback of a task and in that of a handler. -/
def inUserCode (s : OrchState ω) : Bool :=
  match s.phase with
  | .idle | .running _ _ _ => true
  | .handling i => i < s.orch.handlers
  | _ => false

def isExpired (s : OrchState ω) (now : Timeval) : Prop :=
  s.externalTimeout.isSome ∧ s.externalDeadline ≤ now

instance (s : OrchState ω) (now : Timeval) : Decidable (s.isExpired now) :=
  inferInstanceAs (Decidable (_ ∧ _))

/-- A step of `orchestrator_start`, or the end of a callback. -/
def step (P : Program ω α) (s : OrchState ω) (t : Timeval) : Option (OrchState ω) :=
  match s.phase with
  | .arming i =>
    match s.orch.tasks[i]? with
    | some k => some { s with
        orch := s.orch.setDeadline k t
        phase := .arming (i + 1)
        clock := t }
    | none => some { s with
        phase := .head
        clock := t
        trace := s.trace ++ [.looping t] }
  | .head =>
    -- the address of the external deadline is passed with or without an external timeout
    match s.orch.getNextDeadline (some s.externalDeadline) with
    | some deadline => some { s with
        phase := .waiting deadline (tvTimeToDeadline deadline t)
        clock := t }
    | none => if s.orch.handlers = 0 then some { s with phase := .returned, clock := t } else none
  | .scanning now i =>
    match s.orch.tasks[i]? with
    | some k =>
      if s.orch.isDue k now then some { s with
        phase := .running now i k
        clock := t
        trace := s.trace ++ [.ran k t]
        world := P.callback k t s.world }
      else some { s with phase := .scanning now (i + 1), clock := t }
    | none => some { s with phase := if s.isExpired now then .returned else .head, clock := t }
  | .running now i k => some { s with
      orch := s.orch.finish k t
      phase := .scanning now (i + 1)
      clock := t
      trace := s.trace ++ [.finished k t] }
  | .handling i =>
    if i < s.orch.handlers then some { s with phase := .handling (i + 1), clock := t }
    else some { s with phase := .head, clock := t }
  | .idle | .waiting _ _ | .returned => none

def next (P : Program ω α) (s : OrchState ω) : OrchEvent α → Option (OrchState ω)
  | .addTask k t =>
    if s.inUserCode then some { s with
      orch := s.orch.addTask k
      clock := t
      trace := s.trace ++ [.added k t] }
    else none
  | .addHandler => if s.inUserCode then some { s with orch := s.orch.addHandler } else none
  | .act a => if s.inUserCode then (P.act s.world a).map fun w => { s with world := w } else none
  | .start externalTimeout indeterminate t =>
    if s.phase = .idle then some { s with
      phase := .arming 0
      externalTimeout := externalTimeout
      externalDeadline := (externalTimeout.map (tvResetDeadline t)).getD indeterminate
      clock := t
      trace := s.trace ++ [.started t] }
    else none
  | .wake timedOut t =>
    match s.phase with
    | .waiting _ _ => some { s with
        phase := if timedOut then .scanning t 0 else .handling 0
        clock := t }
    | _ => none
  | .step t => s.step P t

end OrchState

def orchestration {ω α : Type} (P : Program ω α) : Trans.System (OrchState ω) (OrchEvent α) where
  init := {
    orch := ⟨[], fun k => taskNew (P.spec k), 0⟩
    phase := .idle
    externalTimeout := none
    externalDeadline := ⟨0, 0⟩
    clock := ⟨0, 0⟩
    trace := []
    world := P.init }
  next := OrchState.next P

/-- The clock does not go back. -/
def Timely {ω α : Type} (s : OrchState ω) : OrchEvent α → Prop
  | .addTask _ t | .wake _ t | .step t => t.Valid ∧ s.clock ≤ t
  | .start externalTimeout _ t => (∀ x ∈ externalTimeout, x.Valid) ∧ t.Valid ∧ s.clock ≤ t
  | .addHandler | .act _ => True

instance {ω α : Type} (s : OrchState ω) : (e : OrchEvent α) → Decidable (Timely s e)
  | .addTask _ _ | .wake _ _ | .step _ => inferInstanceAs (Decidable (_ ∧ _))
  | .start _ _ _ => inferInstanceAs (Decidable (_ ∧ _))
  | .addHandler | .act _ => isTrue trivial

section Properties

variable {ω α : Type}

/-- The deadlines of the tasks that are not done, and the external one if there is one. -/
def OrchState.pending (s : OrchState ω) : Set Timeval :=
  {d | (∃ k ∈ s.orch.tasks, (s.orch.heap k).status ≠ .done ∧ (s.orch.heap k).deadline = d) ∨
    s.externalTimeout.isSome = true ∧ s.externalDeadline = d}

/-- In the run the loop comes to wait, in `s` at time `t`. -/
def Waits (P : Program ω α) (evs : List (OrchEvent α)) (s : OrchState ω) (t deadline timeout : Timeval) : Prop :=
  ∃ pre s', pre ++ [.step t] <+: evs ∧ Trans.Run (orchestration P) Timely pre s ∧
    s.phase = .head ∧ Timely s (.step t : OrchEvent α) ∧ (orchestration P).next s (.step t) = some s' ∧
    s'.phase = .waiting deadline timeout

/-- The wait is for the earliest pending deadline, and it is empty only if one has passed. -/
structure WaitsRight (s : OrchState ω) (t deadline timeout : Timeval) : Prop where
  earliest : IsLeast s.pending deadline
  due_of_zero : timeout = ⟨0, 0⟩ → ∃ d ∈ s.pending, d ≤ t

/-- A pending deadline comes before what the scan takes in besides: the deadlines of the tasks
that are done, and the indeterminate external one. -/
def PendingFirst (s : OrchState ω) : Prop :=
  ∃ d ∈ s.pending, (∀ k ∈ s.orch.tasks, (s.orch.heap k).status = .done → d ≤ (s.orch.heap k).deadline) ∧
    (s.externalTimeout = none → d ≤ s.externalDeadline)

def OrchEvent.isWake : OrchEvent α → Bool
  | .wake _ _ => true
  | _ => false

/-- An iteration of the loop in a run that meets `ok`, from the end of its wait, in `s` at time
`now`, to its own end in `s'`. -/
def Iteration (P : Program ω α) (ok : OrchState ω → OrchEvent α → Prop) (evs : List (OrchEvent α))
    (s : OrchState ω) (timedOut : Bool) (now : Timeval) (s' : OrchState ω) : Prop :=
  ∃ pre body, pre ++ .wake timedOut now :: body <+: evs ∧ (∀ e ∈ body, e.isWake = false) ∧
    Trans.Run (orchestration P) ok pre s ∧
    Trans.Run (orchestration P) ok (pre ++ .wake timedOut now :: body) s' ∧
    (s'.phase = .head ∨ s'.phase = .returned)

def SomethingDue (s : OrchState ω) (now : Timeval) : Prop :=
  (∃ k ∈ s.orch.tasks, s.orch.isDue k now) ∨ s.isExpired now

structure ServesDue (s : OrchState ω) (now : Timeval) (s' : OrchState ω) : Prop where
  ran : ∀ k ∈ s.orch.tasks, s.orch.isDue k now →
    ∃ marks t, s'.trace = s.trace ++ marks ∧ .ran k t ∈ marks
  left : s.isExpired now → s'.phase = .returned

/-- What an earlier mark says of a run of task `k` at time `t`. -/
def Mark.Allows (P : Program ω α) (k : ℕ) (t : Timeval) : Mark → Prop
  | .added k' a => k' = k → timeradd a (P.spec k).delay ≤ t
  | .started a => timeradd a (P.spec k).delay ≤ t
  | .ran k' a => k' = k → (P.spec k).isRecurrent = 1 ∧ timeradd a (P.spec k).delay ≤ t
  | .looping _ | .finished _ _ => True

/-- No task runs before its delay is over, nor twice if it is not recurrent. -/
def NeverEarly (P : Program ω α) (trace : List Mark) : Prop :=
  trace.Pairwise fun m m' => ∀ k t, m' = .ran k t → m.Allows P k t

/-- The additions that the loop keeps the time of: those before the start, that of a task by
itself, and that of an unfinished task whose deadline is late enough as it is. -/
def TimedAddition (P : Program ω α) (s : OrchState ω) : OrchEvent α → Prop
  | .addTask k t => s.phase = .idle ∨ s.phase.task = some k ∨
      (s.orch.heap k).status ≠ .done ∧ timeradd t (P.spec k).delay ≤ (s.orch.heap k).deadline
  | _ => True

instance (P : Program ω α) (s : OrchState ω) : (e : OrchEvent α) → Decidable (TimedAddition P s e)
  | .addTask _ _ => inferInstanceAs (Decidable (_ ∨ _))
  | .addHandler | .act _ | .start _ _ _ | .wake _ _ | .step _ => isTrue trivial

/-- The runs in which the loop keeps the time of every addition. -/
def TimedRun (P : Program ω α) : List (OrchEvent α) → OrchState ω → Prop :=
  Trans.Run (orchestration P) fun s e => Timely s e ∧ TimedAddition P s e

end Properties

end DSA
