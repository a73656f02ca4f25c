import DistributedAbstractions.Lib.Path
import DistributedAbstractions.Spec.Retransmission
import DistributedAbstractions.Spec.Upcalls
import Mathlib.Data.Finset.Lattice.Basic
import Mathlib.Data.Finset.Filter
import Mathlib.Order.Filter.AtTopBot.Defs
import Mathlib.Order.Fin.Basic

/-! The descriptors of an orchestrator. `select` reports those that can be read, and of each of these a handler
that looks after it takes one item: what one call of `recvfrom` or `read` takes. What `select` reports is there,
unless it fails. Descriptors are not closed. -/

namespace DSA

open CLib Timeval

def READ : ℕ := 1 <<< 0

def WRITE : ℕ := 1 <<< 1

def FD_SETSIZE : ℕ := 1024

/-- A descriptor. From `FD_SETSIZE` on `FD_SET`, `FD_CLR` and `FD_ISSET` would leave their array. -/
abbrev Fd := Fin FD_SETSIZE

instance : NeZero FD_SETSIZE := ⟨by decide⟩

/-- An `fd_set`. -/
abbrev FdSet := Finset Fd

structure WatchSet where
  fds : List Fd

def watchSetNew (fds : List Fd) : WatchSet := ⟨fds⟩

def watchSetUnion (ws₁ ws₂ : WatchSet) : WatchSet := watchSetNew (ws₁.fds ++ ws₂.fds)

/-- What an orchestrator watches. -/
structure Descriptors where
  reads : FdSet
  writes : FdSet
  nfds : ℕ
  le_nfds : ∀ fd ∈ reads ∪ writes, (fd : ℕ) ≤ nfds

namespace Descriptors

def zero : Descriptors := ⟨∅, ∅, 0, by simp⟩

theorem le_raised {fds : FdSet} {fd : Fd} {nfds : ℕ} (h : ∀ x ∈ fds, (x : ℕ) ≤ nfds) :
    ∀ x ∈ insert fd fds, (x : ℕ) ≤ if nfds < fd then (fd : ℕ) else nfds := by
  intro x hx
  rcases Finset.mem_insert.mp hx with rfl | hx
  · split_ifs with hlt
    · exact le_rfl
    · exact not_lt.mp hlt
  · have := h x hx
    split_ifs <;> omega

def setRead (o : Descriptors) (fd : Fd) : Descriptors where
  reads := insert fd o.reads
  writes := o.writes
  nfds := if o.nfds < fd then fd else o.nfds
  le_nfds := by
    rw [Finset.insert_union]
    exact le_raised o.le_nfds

def setWrite (o : Descriptors) (fd : Fd) : Descriptors where
  reads := o.reads
  writes := insert fd o.writes
  nfds := if o.nfds < fd then fd else o.nfds
  le_nfds := by
    rw [Finset.union_insert]
    exact le_raised o.le_nfds

def clearRead (o : Descriptors) (fd : Fd) : Descriptors where
  reads := o.reads.erase fd
  writes := o.writes
  nfds := o.nfds
  le_nfds x hx := o.le_nfds x (Finset.union_subset_union_left (Finset.erase_subset fd o.reads) hx)

def clearWrite (o : Descriptors) (fd : Fd) : Descriptors where
  reads := o.reads
  writes := o.writes.erase fd
  nfds := o.nfds
  le_nfds x hx := o.le_nfds x (Finset.union_subset_union_right (Finset.erase_subset fd o.writes) hx)

def registerFd (o : Descriptors) (fd : Fd) (event : ℕ) : Descriptors :=
  let o₁ := if event &&& READ ≠ 0 then o.setRead fd else o
  if event &&& WRITE ≠ 0 then o₁.setWrite fd else o₁

def unregisterFd (o : Descriptors) (fd : Fd) (event : ℕ) : Descriptors :=
  let o₁ := if event &&& READ ≠ 0 then o.clearRead fd else o
  if event &&& WRITE ≠ 0 then o₁.clearWrite fd else o₁

def registerWatchSet (o : Descriptors) (ws : WatchSet) : Descriptors := ws.fds.foldl setRead o

def clearWatchSet (o : Descriptors) (ws : WatchSet) : Descriptors := ws.fds.foldl clearRead o

end Descriptors

/-- `reader fd` is a callback that reads `fd` if it is reported, as that of a fair-loss link and `handle_stdin`
do; a composite handler has copies of the others. -/
inductive Handler
  | reader (fd : Fd)
  | composite (handlers : List Handler)

mutual

/-- The descriptors that a callback reads, one after the other. -/
def Handler.callback (reads : FdSet) : Handler → List Fd
  | .reader fd => if fd ∈ reads then [fd] else []
  | .composite handlers => handlerListCb reads handlers

def handlerListCb (reads : FdSet) : List Handler → List Fd
  | [] => []
  | h :: handlers => h.callback reads ++ handlerListCb reads handlers

end

mutual

/-- The descriptors that a handler looks after. -/
def Handler.fds : Handler → List Fd
  | .reader fd => [fd]
  | .composite handlers => fdsOf handlers

def fdsOf : List Handler → List Fd
  | [] => []
  | h :: handlers => h.fds ++ fdsOf handlers

end

/-- An orchestrator with its descriptors: what the last `select` has reported, what the handler that runs has
still to read, the items that wait at each descriptor, and those that have been taken from it. -/
structure Dispatch (ω δ : Type) where
  loop : OrchState ω
  watched : Descriptors
  handlers : List Handler
  ready : FdSet
  todo : List Fd
  queue : Fd → List δ
  taken : Fd → List δ

/-- `select` finds `writable` among the descriptors to be written, or fails when this is `none`. -/
inductive DispatchEvent (α δ : Type)
  | arrive (fd : Fd) (x : δ)
  | registerFd (fd : Fd) (event : ℕ)
  | unregisterFd (fd : Fd) (event : ℕ)
  | registerWatchSet (ws : WatchSet)
  | clearWatchSet (ws : WatchSet)
  | addHandler (h : Handler)
  | select (writable : Option FdSet) (t : Timeval)
  | read
  | orch (e : OrchEvent α)

namespace Dispatch

variable {ω α δ : Type}

def readable (s : Dispatch ω δ) : FdSet :=
  s.watched.reads.filter fun fd : Fd => (fd : ℕ) < s.watched.nfds + 1 ∧ s.queue fd ≠ []

/-- What `select` leaves in the copy of the descriptors that are to be read. When it fails they stay as they
are. -/
def reported (s : Dispatch ω δ) : Option FdSet → FdSet
  | none => s.watched.reads
  | some _ => s.readable

def selectStatus (s : Dispatch ω δ) : Option FdSet → ℤ
  | none => -1
  | some writable =>
    s.readable.card + (s.watched.writes.filter fun fd : Fd => (fd : ℕ) < s.watched.nfds + 1 ∧ fd ∈ writable).card

/-- What the handler that is called now reads. -/
def upcoming (handlers : List Handler) (ready : FdSet) : Phase → List Fd
  | .handling i => (handlers[i]?.map (Handler.callback ready)).getD []
  | _ => []

def select (P : Program ω α) (s : Dispatch ω δ) (writable : Option FdSet) (t : Timeval) : Option (Dispatch ω δ) :=
  (s.loop.next P (.wake (s.selectStatus writable = 0) t)).map fun loop => { s with
    loop := loop
    ready := s.reported writable
    todo := upcoming s.handlers (s.reported writable) loop.phase }

/-- The callback of a reader. The call waits as long as there is nothing. -/
def read (s : Dispatch ω δ) : Option (Dispatch ω δ) :=
  match s.todo with
  | [] => none
  | fd :: todo =>
    match s.queue fd with
    | [] => none
    | x :: queue => some { s with
        todo := todo
        queue := Function.update s.queue fd queue
        taken := Function.update s.taken fd (s.taken fd ++ [x]) }

/-- Only user code changes what is watched. -/
def watch (s : Dispatch ω δ) (watched : Descriptors) : Option (Dispatch ω δ) :=
  if s.loop.inUserCode then some { s with watched := watched } else none

/-- A step of the loop itself or of user code; the next handler is called when one has read all it reads. -/
def advance (P : Program ω α) (s : Dispatch ω δ) (e : OrchEvent α) : Option (Dispatch ω δ) :=
  match e with
  | .addHandler | .wake _ _ => none
  | .step t =>
    if s.todo = [] then (s.loop.next P (.step t)).map fun loop => { s with
      loop := loop
      todo := upcoming s.handlers s.ready loop.phase }
    else none
  | e => (s.loop.next P e).map fun loop => { s with loop := loop }

def next (P : Program ω α) (s : Dispatch ω δ) : DispatchEvent α δ → Option (Dispatch ω δ)
  | .arrive fd x => some { s with queue := Function.update s.queue fd (s.queue fd ++ [x]) }
  | .registerFd fd event => s.watch (s.watched.registerFd fd event)
  | .unregisterFd fd event => s.watch (s.watched.unregisterFd fd event)
  | .registerWatchSet ws => s.watch (s.watched.registerWatchSet ws)
  | .clearWatchSet ws => s.watch (s.watched.clearWatchSet ws)
  | .addHandler h => (s.loop.next P .addHandler).map fun loop => { s with
      loop := loop
      handlers := s.handlers ++ [h] }
  | .select writable t => s.select P writable t
  | .read => s.read
  | .orch e => s.advance P e

end Dispatch

def dispatching {ω α : Type} (δ : Type) (P : Program ω α) :
    Trans.System (Dispatch ω δ) (DispatchEvent α δ) where
  init := ⟨(orchestration P).init, .zero, [], ∅, [], fun _ => [], fun _ => []⟩
  next := Dispatch.next P

/-- The clock does not go back. -/
def OnTime {ω α δ : Type} (s : Dispatch ω δ) : DispatchEvent α δ → Prop
  | .orch e => Timely s.loop e
  | .select _ t => Timely s.loop (.wake true t : OrchEvent α)
  | _ => True

/-- No two handlers look after one descriptor. -/
def Unshared {ω α δ : Type} (s : Dispatch ω δ) : DispatchEvent α δ → Prop
  | .addHandler h => (fdsOf s.handlers ++ h.fds).Nodup
  | _ => True

def Orderly {ω α δ : Type} (s : Dispatch ω δ) (e : DispatchEvent α δ) : Prop := OnTime s e ∧ Unshared s e

instance {ω α δ : Type} (s : Dispatch ω δ) : (e : DispatchEvent α δ) → Decidable (Orderly s e)
  | .orch e => inferInstanceAs (Decidable (Timely s.loop e ∧ True))
  | .select _ _ => inferInstanceAs (Decidable ((_ ∧ _) ∧ True))
  | .addHandler _ => inferInstanceAs (Decidable (True ∧ List.Nodup _))
  | .arrive _ _ | .registerFd _ _ | .unregisterFd _ _ | .registerWatchSet _ | .clearWatchSet _ | .read =>
    isTrue ⟨trivial, trivial⟩

section Properties

variable {ω α δ : Type}

def DispatchEvent.arrival (fd : Fd) : DispatchEvent α δ → List δ
  | .arrive fd' x => if fd' = fd then [x] else []
  | _ => []

/-- What has arrived at `fd`. -/
def arrivals (fd : Fd) (evs : List (DispatchEvent α δ)) : List δ := evs.flatMap (·.arrival fd)

def DispatchEvent.outcome? : DispatchEvent α δ → Option (Option FdSet)
  | .select writable _ => some writable
  | _ => none

def DispatchEvent.isSelect (e : DispatchEvent α δ) : Bool := e.outcome?.isSome

/-- What the last `select` has come to. -/
def lastSelect (evs : List (DispatchEvent α δ)) : Option (Option FdSet) := (evs.filterMap (·.outcome?)).getLast?

/-- In `s₀` the last `select` was entered, and in `s` the loop is back at its head. -/
def DispatchRound (P : Program ω α) (evs : List (DispatchEvent α δ)) (writable : Option FdSet)
    (s₀ s : Dispatch ω δ) : Prop :=
  ∃ pre t body, evs = pre ++ .select writable t :: body ∧ (∀ e ∈ body, e.isSelect = false) ∧
    Trans.Run (dispatching δ P) Orderly pre s₀ ∧ s.loop.phase = .head

/-- What is taken from a descriptor are its arrivals in their order. Each round takes exactly one from each
descriptor that is watched, looked after and has one; when `select` has failed it takes one from each that is
watched and looked after, and only then a handler may have to wait for it. -/
structure DispatchSound (P : Program ω α) (evs : List (DispatchEvent α δ)) (s : Dispatch ω δ) : Prop where
  orchestrated : ∃ evs', Trans.Run (orchestration P) Timely evs' s.loop
  in_order : ∀ fd, s.taken fd ++ s.queue fd = arrivals fd evs
  never_blocks : ∀ fd ∈ s.todo.head?, s.queue fd = [] → lastSelect evs = some none
  one_each : ∀ s₀ writable, DispatchRound P evs (some writable) s₀ s → ∀ fd, s.taken fd = s₀.taken fd ++
    if fd ∈ s₀.watched.reads ∧ fd ∈ fdsOf s.handlers then (s₀.queue fd).take 1 else []
  one_each_failed : ∀ s₀, DispatchRound P evs none s₀ s → ∀ fd, ∃ xs, s.taken fd = s₀.taken fd ++ xs ∧
    xs.length = if fd ∈ s₀.watched.reads ∧ fd ∈ fdsOf s.handlers then 1 else 0

end Properties

section Getters

variable (socket : LinkName → Fd)

def fllGetWatchSet (ℓ : LinkName) : WatchSet := watchSetNew [socket ℓ]

def sblGetWatchSet (ℓ : LinkName) : WatchSet := fllGetWatchSet socket ℓ

def plGetWatchSet (ℓ : LinkName) : WatchSet := sblGetWatchSet socket ℓ

def lplGetWatchSet : WatchSet := sblGetWatchSet socket .data

def aplGetWatchSet : WatchSet := plGetWatchSet socket .data

def bebGetWatchSet : WatchSet := plGetWatchSet socket .data

def urbGetWatchSet : WatchSet := bebGetWatchSet socket

def brbGetWatchSet : WatchSet := aplGetWatchSet socket

def bleGetWatchSet : WatchSet := aplGetWatchSet socket

def pfdGetWatchSet : WatchSet := plGetWatchSet socket .control

def epfdGetWatchSet : WatchSet := plGetWatchSet socket .control

def mleGetWatchSet : WatchSet := pfdGetWatchSet socket

def eleGetWatchSet : WatchSet := fllGetWatchSet socket .data

def rbGetWatchSet : WatchSet := watchSetUnion (pfdGetWatchSet socket) (plGetWatchSet socket .data)

def fllGetHandler (ℓ : LinkName) : Handler := .reader (socket ℓ)

def sblGetHandler (ℓ : LinkName) : Handler := fllGetHandler socket ℓ

def plGetHandler (ℓ : LinkName) : Handler := sblGetHandler socket ℓ

def lplGetHandler : Handler := sblGetHandler socket .data

def aplGetHandler : Handler := plGetHandler socket .data

def bebGetHandler : Handler := plGetHandler socket .data

def urbGetHandler : Handler := bebGetHandler socket

def brbGetHandler : Handler := aplGetHandler socket

def bleGetHandler : Handler := aplGetHandler socket

def pfdGetHandler : Handler := plGetHandler socket .control

def epfdGetHandler : Handler := plGetHandler socket .control

def mleGetHandler : Handler := pfdGetHandler socket

def eleGetHandler : Handler := fllGetHandler socket .data

def rbGetHandler : Handler := .composite [plGetHandler socket .data, pfdGetHandler socket]

end Getters

namespace Upcalls.Kind

def links : Kind → List LinkName
  | pfd | epfd | mle => [.control]
  | rb => [.data, .control]
  | fll | sbl | pl | lpl | apl | beb | urb | brb | ele | ble => [.data]

def getWatchSet (socket : LinkName → Fd) : Kind → WatchSet
  | fll => fllGetWatchSet socket .data
  | sbl => sblGetWatchSet socket .data
  | pl => plGetWatchSet socket .data
  | lpl => lplGetWatchSet socket
  | apl => aplGetWatchSet socket
  | beb => bebGetWatchSet socket
  | rb => rbGetWatchSet socket
  | urb => urbGetWatchSet socket
  | brb => brbGetWatchSet socket
  | pfd => pfdGetWatchSet socket
  | epfd => epfdGetWatchSet socket
  | mle => mleGetWatchSet socket
  | ele => eleGetWatchSet socket
  | ble => bleGetWatchSet socket

def getHandler (socket : LinkName → Fd) : Kind → Handler
  | fll => fllGetHandler socket .data
  | sbl => sblGetHandler socket .data
  | pl => plGetHandler socket .data
  | lpl => lplGetHandler socket
  | apl => aplGetHandler socket
  | beb => bebGetHandler socket
  | rb => rbGetHandler socket
  | urb => urbGetHandler socket
  | brb => brbGetHandler socket
  | pfd => pfdGetHandler socket
  | epfd => epfdGetHandler socket
  | mle => mleGetHandler socket
  | ele => eleGetHandler socket
  | ble => bleGetHandler socket

end Upcalls.Kind

section Service

open Filter

variable {ω α δ : Type} {P : Program ω α}

/-- `fd` is taken out of those that are watched. -/
def DispatchEvent.Clears (fd : Fd) : DispatchEvent α δ → Prop
  | .unregisterFd fd' event => fd' = fd ∧ event &&& READ ≠ 0
  | .clearWatchSet ws => fd ∈ ws.fds
  | _ => False

instance (fd : Fd) : (e : DispatchEvent α δ) → Decidable (e.Clears fd)
  | .unregisterFd _ _ => inferInstanceAs (Decidable (_ ∧ _))
  | .clearWatchSet ws => inferInstanceAs (Decidable (fd ∈ ws.fds))
  | .arrive _ _ | .registerFd _ _ | .registerWatchSet _ | .addHandler _ | .select _ _ | .read | .orch _ =>
    isFalse not_false

/-- The watch set and the handler of a component are registered, its sockets stay so, and the loop goes on. -/
structure DispatchLive (c : Upcalls.Kind) (socket : LinkName → Fd)
    (π : Trans.Path (dispatching δ P) fun _ _ => True) : Prop where
  watched : ∃ i, π.event i = some (.registerWatchSet (c.getWatchSet socket)) ∧
    ∀ j ≥ i, ∀ e ∈ π.event j, ∀ ℓ ∈ c.links, ¬ e.Clears (socket ℓ)
  handled : ∃ i, π.event i = some (.addHandler (c.getHandler socket))
  selects : ∃ᶠ i in atTop, ∃ e ∈ π.event i, e.isSelect = true

/-- What has arrived at a socket of the component is taken from it in the end, in its order. -/
def SocketsServed (c : Upcalls.Kind) (socket : LinkName → Fd) (π : Trans.Path (dispatching δ P) fun _ _ => True) :
    Prop :=
  ∀ ℓ ∈ c.links, ∀ i, ∀ᶠ j in atTop,
    (π.state i).taken (socket ℓ) ++ (π.state i).queue (socket ℓ) <+: (π.state j).taken (socket ℓ)

end Service

end DSA
