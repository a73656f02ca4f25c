import DistributedAbstractions.Spec.Orchestrator
import DistributedAbstractions.Spec.PerfectLink

/-! The components over stubborn links, driven by an orchestrator with the tasks that their
getters return. Of a component this has the outboxes of its links and what is retransmitted; what
is sent, from callbacks and before the start, is left open. Allocations succeed. -/

namespace DSA

open CLib Timeval

/-- The stubborn links that a component may own: that of its messages, and that of the failure
detector it runs on or is. -/
inductive LinkName
  | data
  | control
deriving DecidableEq

/-- The functions that are handed to `task_new`. -/
inductive TaskCallback
  | sblHandleTimeout (ℓ : LinkName)
  | pfdHandleTimeout
  | epfdHandleTimeout
deriving DecidableEq

/-- A task as `task_new` makes it. -/
structure NewTask extends TaskSpec where
  callback : TaskCallback

def HEALTHCHECK_INTERVAL_SEC : ℤ := 4

section Getters

variable (period : LinkName → ℤ)

def sblGetTasks (ℓ : LinkName) : List NewTask :=
  [{ delay := ofSec (period ℓ), isRecurrent := 1, valid := valid_ofSec _, callback := .sblHandleTimeout ℓ }]

def plGetTasks (ℓ : LinkName) : List NewTask := sblGetTasks period ℓ

def aplGetTasks (ℓ : LinkName) : List NewTask := plGetTasks period ℓ

def bebGetTasks : List NewTask := plGetTasks period .data

def urbGetTasks : List NewTask := bebGetTasks period

def brbGetTasks : List NewTask := aplGetTasks period .data

def bleGetTasks : List NewTask := aplGetTasks period .data

def pfdGetTasks : List NewTask :=
  [{ delay := ofSec HEALTHCHECK_INTERVAL_SEC, isRecurrent := 1, valid := valid_ofSec _,
     callback := .pfdHandleTimeout }]

def epfdGetTasks : List NewTask :=
  [{ delay := ofSec HEALTHCHECK_INTERVAL_SEC, isRecurrent := 1, valid := valid_ofSec _,
     callback := .epfdHandleTimeout }]

def mleGetTasks : List NewTask := pfdGetTasks

def rbGetTasks : List NewTask := plGetTasks period .data ++ pfdGetTasks

end Getters

inductive Component
  | pfd
  | epfd
  | mle
  | rb
  | urb
  | brb
  | ble
deriving DecidableEq

namespace Component

def links : Component → List LinkName
  | pfd | epfd | mle => [.control]
  | rb => [.data, .control]
  | urb | brb | ble => [.data]

def getTasks (period : LinkName → ℤ) : Component → List NewTask
  | pfd => pfdGetTasks
  | epfd => epfdGetTasks
  | mle => mleGetTasks
  | rb => rbGetTasks period
  | urb => urbGetTasks period
  | brb => brbGetTasks period
  | ble => bleGetTasks period

end Component

/-- The links under a component, and what `sbl_handle_timeout` has handed to the fair-loss links. -/
structure Links where
  outbox : LinkName → List Send
  handed : List (LinkName × Send)

def Links.send (ls : Links) (ℓ : LinkName) (e : Send) : Links :=
  { ls with outbox := Function.update ls.outbox ℓ (ls.outbox ℓ ++ [e]) }

def Links.handleTimeout (ls : Links) (ℓ : LinkName) : Links :=
  { ls with handed := ls.handed ++ (ls.outbox ℓ).map fun e => (ℓ, e) }

/-- The tasks of the component come first; the others are the user's. What `pfd_handle_timeout`
and `epfd_handle_timeout` send counts as sent while they run. -/
def componentProgram (c : Component) (period : LinkName → ℤ) (others : ℕ → TaskSpec) :
    Program Links (LinkName × Send) where
  spec k := ((c.getTasks period)[k]?.map NewTask.toTaskSpec).getD (others k)
  init := ⟨fun _ => [], []⟩
  callback k _ ls :=
    match (c.getTasks period)[k]?.map NewTask.callback with
    | some (.sblHandleTimeout ℓ) => ls.handleTimeout ℓ
    | _ => ls
  act ls a := some (ls.send a.1 a.2)

/-- The orchestrator holds the tasks of the component when it is started. -/
def HoldsTasks (c : Component) (period : LinkName → ℤ) (s : OrchState Links) :
    OrchEvent (LinkName × Send) → Prop
  | .start _ _ _ => ∀ k < (c.getTasks period).length, k ∈ s.orch.tasks
  | _ => True

instance (c : Component) (period : LinkName → ℤ) (s : OrchState Links) :
    (e : OrchEvent (LinkName × Send)) → Decidable (HoldsTasks c period s e)
  | .start _ _ _ => inferInstanceAs (Decidable (∀ k < (c.getTasks period).length, k ∈ s.orch.tasks))
  | .addTask _ _ | .addHandler | .act _ | .wake _ _ | .step _ => isTrue trivial

/-- Task `k` of the component retransmits the messages of `ℓ`. -/
def Retransmits (c : Component) (period : LinkName → ℤ) (k : ℕ) (ℓ : LinkName) : Prop :=
  (c.getTasks period)[k]?.map NewTask.callback = some (.sblHandleTimeout ℓ)

/-- A whole retransmission period of `ℓ` has passed since the loop was entered, and since each
time that the messages were retransmitted. -/
def PeriodElapsed (c : Component) (period : LinkName → ℤ) (ℓ : LinkName) (s : OrchState Links)
    (now : Timeval) : Prop :=
  (∃ t, .looping t ∈ s.trace ∧ timeradd t (ofSec (period ℓ)) ≤ now) ∧
    ∀ k t, Retransmits c period k ℓ → .finished k t ∈ s.trace → timeradd t (ofSec (period ℓ)) ≤ now

/-- In an iteration from `s` to `s'` every message of the links under the component whose period
has elapsed is retransmitted. -/
def Covers (c : Component) (period : LinkName → ℤ) (s : OrchState Links) (now : Timeval)
    (s' : OrchState Links) : Prop :=
  ∀ ℓ ∈ c.links, PeriodElapsed c period ℓ s now → ∀ e ∈ s.world.outbox ℓ,
    ∃ handed, s'.world.handed = s.world.handed ++ handed ∧ (ℓ, e) ∈ handed

/-- An iteration of an orchestrator that drives a component. -/
def ComponentIteration (c : Component) (period : LinkName → ℤ) (others : ℕ → TaskSpec) :=
  Iteration (componentProgram c period others) fun s e => Timely s e ∧ HoldsTasks c period s e

end DSA
