import DistributedAbstractions.Lib.Heap
import DistributedAbstractions.Lib.Latest
import DistributedAbstractions.Spec.Ble
import DistributedAbstractions.Spec.Brb
import DistributedAbstractions.Spec.EventualLeader
import DistributedAbstractions.Spec.LinkedList
import DistributedAbstractions.Spec.LoggedLink
import DistributedAbstractions.Spec.Rb
import DistributedAbstractions.Spec.Urb

/-! The objects that the init functions build on top of each other, each with the callback and the context
that it was given, and what becomes of a datagram on its way up. The messages that the layers send on the way
are left out. Allocations and init functions succeed. -/

namespace DSA.Upcalls

open CLib Memory Net

inductive Kind
  | fll
  | sbl
  | pl
  | lpl
  | apl
  | beb
  | rb
  | urb
  | brb
  | pfd
  | epfd
  | mle
  | ele
  | ble
deriving DecidableEq

/-- What an object has besides its callbacks and the object below. -/
inductive Component
  | fll
  | sbl
  | pl (inbox : List Hash)
  | lpl (lpl : LoggedLink)
  | apl (verify : ℤ → List ℕ → CString → Bool) (maxRank : ℕ)
  | beb
  | rb (rb : Rb)
  | urb (urb : Urb)
  | brb (brb : Brb)
  | pfd (pfd : Pfd)
  | epfd (epfd : Epfd)
  | mle (mle : Mle)
  | ele (ele : Ele)
  | ble (ble : Ble)

def Component.kind : Component → Kind
  | .fll => .fll
  | .sbl => .sbl
  | .pl _ => .pl
  | .lpl _ => .lpl
  | .apl _ _ => .apl
  | .beb => .beb
  | .rb _ => .rb
  | .urb _ => .urb
  | .brb _ => .brb
  | .pfd _ => .pfd
  | .epfd _ => .epfd
  | .mle _ => .mle
  | .ele _ => .ele
  | .ble _ => .ble

/-- What a callback gets besides its context. -/
inductive Payload
  | deliver (e : Deliver)
  | deliveries (ds : List LplDeliver)
  | crash (e : Crash)
  | suspicion (e : EpfdIndication)
  | leader (e : Leader)
  | trust (e : Trust)
  | byzTrust (e : ByzTrust)

/-- Only the eventually perfect failure detector has a second callback. -/
inductive Slot
  | cb
  | onRestore
deriving DecidableEq

/-- `x->cb(x->ctx, payload)` or `x->cb(x, payload)`. -/
inductive Passes
  | stored
  | self
deriving DecidableEq

structure Upcall where
  slot : Slot
  passes : Passes
  payload : Payload

def Upcall.stored (payload : Payload) : Upcall := ⟨.cb, .stored, payload⟩

/-- What happens to `sig` in the wrapper of the authenticated link, and which sends succeed. -/
structure Answers where
  sig : List ℕ
  sendOk : ℤ → Bool

/-- The object afterwards, and the callbacks that it calls. Nothing, if a buffer is left, or if the object is
not of the type that the function takes it for. -/
abbrev Entered := Option (Component × List Upcall)

section Bodies

def sblWrapper : Component → Payload → Entered
  | .sbl, .deliver e => some (.sbl, [.stored (.deliver e)])
  | _, _ => none

def plWrapper : Component → Payload → Entered
  | .pl inbox, .deliver e =>
    match DSA.plWrapper inbox e with
    | (_, .overrun) => none
    | (inbox, .returned) => some (.pl inbox, [])
    | (inbox, .callback e) => some (.pl inbox, [.stored (.deliver e)])
  | _, _ => none

def lplWrapper : Component → Payload → Entered
  | .lpl lpl, .deliver e =>
    let out := DSA.lplWrapper lpl e
    if out.1.running then some (.lpl out.1, out.2.map fun ds => .stored (.deliveries ds)) else none
  | _, _ => none

def aplWrapper (answers : Answers) : Component → Payload → Entered
  | .apl verify maxRank, .deliver e =>
    match DSA.aplWrapper verify maxRank answers.sig e with
    | .overrun => none
    | .returned => some (.apl verify maxRank, [])
    | .callback e => some (.apl verify maxRank, [.stored (.deliver e)])
  | _, _ => none

def bebWrapper : Component → Payload → Entered
  | .beb, .deliver e => some (.beb, [.stored (.deliver ⟨e.msg.take MAX_MSG_LEN, e.sender⟩)])
  | _, _ => none

def onDeliveryWrapper : Component → Payload → Entered
  | .rb rb, .deliver e =>
    let out := DSA.onDeliveryWrapper rb e
    some (.rb out.1, (indications out.2).map fun i => .stored (.deliver i.deliver))
  | _, _ => none

/-- It only sends. -/
def onCrashed : Component → Payload → Entered
  | .rb rb, .crash _ => some (.rb rb, [])
  | _, _ => none

/-- `urb->callback(urb, &delivery)`. -/
def urbCallback : Component → Payload → Entered
  | .urb urb, .deliver e =>
    let out := DSA.urbCallback urb e
    some (.urb out.1, (indications out.2).map fun i => ⟨.cb, .self, .deliver i.deliver⟩)
  | _, _ => none

def brbCallback (answers : Answers) : Component → Payload → Entered
  | .brb brb, .deliver e =>
    let out := DSA.brbCallback brb answers.sendOk e
    some (.brb out.1, (indications out.2).map fun d => .stored (.deliver d))
  | _, _ => none

def pfdCallback : Component → Payload → Entered
  | .pfd pfd, .deliver e => some (.pfd (DSA.pfdCallback pfd e).1, [])
  | _, _ => none

def epfdCallback : Component → Payload → Entered
  | .epfd epfd, .deliver e => some (.epfd (DSA.epfdCallback epfd e).1, [])
  | _, _ => none

def mleCallbackOnCrash : Component → Payload → Entered
  | .mle mle, .crash e =>
    let out := DSA.mleCallbackOnCrash mle e
    some (.mle out.1, out.2.map fun l => .stored (.leader l))
  | _, _ => none

def eleWrapper : Component → Payload → Entered
  | .ele ele, .deliver e => some (.ele (DSA.eleWrapper ele e), [])
  | _, _ => none

def bleCallback : Component → Payload → Entered
  | .ble ble, .deliver e =>
    let out := DSA.bleCallback ble e
    some (.ble out.1, (indications out.2).map fun t => .stored (.byzTrust t))
  | _, _ => none

def epfdUpcall (e : EpfdIndication) : Upcall :=
  match e with
  | .suspect _ => ⟨.cb, .stored, .suspicion e⟩
  | .restore _ => ⟨.onRestore, .stored, .suspicion e⟩

/-- The `handle_timeout` functions, apart from those that only send again. -/
def handleTimeout : Component → Component × List Upcall
  | .pfd pfd =>
    let out := pfdHandleTimeout pfd
    (.pfd out.1, (indications out.2).map fun c => .stored (.crash c))
  | .epfd epfd =>
    let out := epfdHandleTimeout epfd
    (.epfd out.1, (indications out.2).map epfdUpcall)
  | .ele ele =>
    let out := eleHandleTimeout ele
    (.ele out.1, (indications out.2).map fun t => .stored (.trust t))
  | c => (c, [])

/-- How `mle_start`, `ele_start` and `ble_start` begin. -/
def start : Component → List Upcall
  | .mle mle => [.stored (.leader ⟨mle.leader⟩)]
  | .ele ele => [.stored (.trust ⟨ele.leader⟩)]
  | .ble ble => [.stored (.byzTrust ⟨getRoundLeader ble⟩)]
  | _ => []

/-- What the application asks an elector for. The other requests only send. -/
def complain : Component → Component
  | .ble ble => .ble (bleComplain ble).1
  | c => c

end Bodies

/-- The functions that the init functions register. -/
inductive Wrapper
  | sbl
  | pl
  | lpl
  | apl
  | beb
  | onDelivery
  | onCrashed
  | urb
  | brb
  | pfd
  | epfd
  | mle
  | ele
  | ble

/-- The body of the function. -/
def Wrapper.body (answers : Answers) : Wrapper → Component → Payload → Entered
  | .sbl => sblWrapper
  | .pl => plWrapper
  | .lpl => lplWrapper
  | .apl => aplWrapper answers
  | .beb => bebWrapper
  | .onDelivery => onDeliveryWrapper
  | .onCrashed => Upcalls.onCrashed
  | .urb => urbCallback
  | .brb => brbCallback answers
  | .pfd => pfdCallback
  | .epfd => epfdCallback
  | .mle => mleCallbackOnCrash
  | .ele => eleWrapper
  | .ble => bleCallback

inductive Fn
  | wrapper (w : Wrapper)
  | app (k : ℕ)

structure Callback where
  fn : Fn
  ctx : Ptr

structure Object where
  component : Component
  slots : Slot → Option Callback

structure Raise where
  source : ℕ
  upcall : Upcall

/-- The calls that are due are in `pending`, the next one first. `log` has what was registered under each
callback of each object, and with what it was called. -/
structure Stacks where
  heap : Heap Object
  pending : List Raise
  log : List (Latest.Entry (ℕ × Slot) Callback)
  running : Bool

namespace Stacks

def calloc (s : Stacks) (c : Component) : Stacks × ℕ :=
  ({ s with heap := s.heap.alloc ⟨c, fun _ => none⟩ }, s.heap.length)

/-- The `set_callback` functions. -/
def setCallback (s : Stacks) (a : ℕ) (slot : Slot) (cb : Callback) : Stacks :=
  match s.heap.load a with
  | none => s
  | some o =>
    { s with
      heap := s.heap.set a (some { o with slots := Function.update o.slots slot (some cb) })
      log := s.log ++ [.set (a, slot) cb] }

/-- The new object `self.2` registers itself with `w` at the object `below`. -/
def register (self : Stacks × ℕ) (below : ℕ) (w : Wrapper) : Stacks × ℕ :=
  (self.1.setCallback below .cb ⟨.wrapper w, some self.2⟩, self.2)

/-- A new object above the one that an init function has returned. -/
def layer (below : Stacks × ℕ) (c : Component) (w : Wrapper) : Stacks × ℕ := register (below.1.calloc c) below.2 w

def fllInit (s : Stacks) : Stacks × ℕ := s.calloc .fll

def sblInit (s : Stacks) : Stacks × ℕ := layer s.fllInit .sbl .sbl

def plInit (s : Stacks) : Stacks × ℕ := layer s.sblInit (.pl []) .pl

def lplInit (s : Stacks) : Stacks × ℕ := layer s.sblInit (.lpl ⟨[], true⟩) .lpl

def aplInit (verify : ℤ → List ℕ → CString → Bool) (maxRank : ℕ) (s : Stacks) : Stacks × ℕ :=
  layer s.plInit (.apl verify maxRank) .apl

def bebInit (s : Stacks) : Stacks × ℕ := layer s.plInit .beb .beb

def urbInit (localRank : ℤ) (maxRank : ℕ) (s : Stacks) : Stacks × ℕ :=
  layer s.bebInit (.urb ((urbProtocol maxRank).init localRank)) .urb

def brbInit (verify : ℤ → List ℕ → CString → Bool) (config : BrbConfig) (s : Stacks) : Stacks × ℕ :=
  layer (s.aplInit verify config.maxRank) (.brb (DSA.brbInit config)) .brb

def pfdInit (localRank : ℤ) (maxRank : ℕ) (s : Stacks) : Stacks × ℕ :=
  layer s.plInit (.pfd (DSA.pfdInit localRank maxRank)) .pfd

def epfdInit (localRank : ℤ) (maxRank : ℕ) (s : Stacks) : Stacks × ℕ :=
  layer s.plInit (.epfd (DSA.epfdInit localRank maxRank)) .epfd

def mleInit (localRank : ℤ) (maxRank : ℕ) (s : Stacks) : Stacks × ℕ :=
  layer (s.pfdInit localRank maxRank) (.mle (DSA.mleInit maxRank)) .mle

def eleInit (localRank : ℤ) (maxRank : ℕ) (epoch : ℤ) (s : Stacks) : Stacks × ℕ :=
  layer s.fllInit (.ele (eleNew localRank maxRank epoch)) .ele

def bleInit (verify : ℤ → List ℕ → CString → Bool) (localRank : ℤ) (maxRank maxFaultyPeers : ℕ) (s : Stacks) :
    Stacks × ℕ :=
  layer (s.aplInit verify maxRank) (.ble ((bleProtocol maxRank maxFaultyPeers).init localRank)) .ble

/-- Two objects are below this one. -/
def rbInit (localRank : ℤ) (maxRank : ℕ) (s : Stacks) : Stacks × ℕ :=
  let pl := s.plInit
  let pfd := pl.1.pfdInit localRank maxRank
  let rb := pfd.1.calloc (.rb ((rbProtocol maxRank).init localRank))
  register (register rb pl.2 .onDelivery) pfd.2 .onCrashed

end Stacks

inductive Init
  | fll
  | sbl
  | pl
  | lpl
  | apl (verify : ℤ → List ℕ → CString → Bool) (maxRank : ℕ)
  | beb
  | rb (localRank : ℤ) (maxRank : ℕ)
  | urb (localRank : ℤ) (maxRank : ℕ)
  | brb (verify : ℤ → List ℕ → CString → Bool) (config : BrbConfig)
  | pfd (localRank : ℤ) (maxRank : ℕ)
  | epfd (localRank : ℤ) (maxRank : ℕ)
  | mle (localRank : ℤ) (maxRank : ℕ)
  | ele (localRank : ℤ) (maxRank : ℕ) (epoch : ℤ)
  | ble (verify : ℤ → List ℕ → CString → Bool) (localRank : ℤ) (maxRank maxFaultyPeers : ℕ)

def Init.perform (s : Stacks) : Init → Stacks × ℕ
  | .fll => s.fllInit
  | .sbl => s.sblInit
  | .pl => s.plInit
  | .lpl => s.lplInit
  | .apl verify maxRank => s.aplInit verify maxRank
  | .beb => s.bebInit
  | .rb localRank maxRank => s.rbInit localRank maxRank
  | .urb localRank maxRank => s.urbInit localRank maxRank
  | .brb verify config => s.brbInit verify config
  | .pfd localRank maxRank => s.pfdInit localRank maxRank
  | .epfd localRank maxRank => s.epfdInit localRank maxRank
  | .mle localRank maxRank => s.mleInit localRank maxRank
  | .ele localRank maxRank epoch => s.eleInit localRank maxRank epoch
  | .ble verify localRank maxRank maxFaultyPeers => s.bleInit verify localRank maxRank maxFaultyPeers

namespace Stacks

def halt (s : Stacks) : Stacks := { s with pending := [], running := false }

/-- The object at `a` becomes `c`, and the calls that it makes are the next ones. -/
def update (s : Stacks) (a : ℕ) (o : Object) (out : Component × List Upcall) : Stacks :=
  { s with
    heap := s.heap.set a (some { o with component := out.1 })
    pending := out.2.map (⟨a, ·⟩) ++ s.pending }

/-- The function takes its context for its object. The application's functions do as they like. -/
def enter (s : Stacks) (answers : Answers) (cb : Callback) (payload : Payload) : Stacks :=
  match cb.fn with
  | .app _ => s
  | .wrapper w =>
    let entered := do
      let a ← cb.ctx
      let o ← s.heap.load a
      let out ← w.body answers o.component payload
      some (s.update a o out)
    entered.getD s.halt

/-- The context that is passed. -/
def passed (source : ℕ) (cb : Callback) : Passes → Ptr
  | .stored => cb.ctx
  | .self => some source

/-- The next call is made, of what is registered now. -/
def callNext (s : Stacks) (answers : Answers) : Stacks :=
  match s.pending with
  | [] => s
  | r :: rest =>
    match (s.heap.load r.source).bind fun o => o.slots r.upcall.slot with
    | none => s.halt
    | some cb =>
      let call : Callback := ⟨cb.fn, passed r.source cb r.upcall.passes⟩
      let s := { s with pending := rest, log := s.log ++ [Latest.Entry.used (r.source, r.upcall.slot) call] }
      s.enter answers call r.upcall.payload

/-- `consume_msg` of the fair-loss link at `a`. -/
def consume (s : Stacks) (a : ℕ) (r : Received) : Stacks :=
  match s.heap.load a with
  | some ⟨.fll, slots⟩ =>
    match consumeMsg r with
    | .overrun => s.halt
    | .returned => s
    | .callback e => s.update a ⟨.fll, slots⟩ (.fll, [.stored (.deliver e)])
  | _ => s

end Stacks

/-- The application may build and register at any time. The rest happens when all calls have returned. -/
inductive StackEvent
  | init (i : Init)
  | setCallback (a : ℕ) (slot : Slot) (cb : Callback)
  | call (answers : Answers)
  | consume (a : ℕ) (r : Received)
  | timeout (a : ℕ)
  | start (a : ℕ)
  | complain (a : ℕ)

/-- Between two runs of handlers. -/
def Stacks.idle (s : Stacks) : Bool := s.pending.isEmpty

def Stacks.step (s : Stacks) (ev : StackEvent) : Stacks :=
  if !s.running then s
  else
    match ev with
    | .init i => (i.perform s).1
    | .setCallback a slot cb => s.setCallback a slot cb
    | .call answers => s.callNext answers
    | .consume a r => if s.idle then s.consume a r else s
    | .timeout a => if s.idle then (s.heap.load a).elim s fun o => s.update a o (handleTimeout o.component) else s
    | .start a => if s.idle then (s.heap.load a).elim s fun o => s.update a o (o.component, start o.component) else s
    | .complain a => (s.heap.load a).elim s fun o => s.update a o (complain o.component, [])

def empty : Stacks := ⟨[], [], [], true⟩

def run (evs : List StackEvent) : Stacks := evs.foldl Stacks.step empty

/-- A uniform reliable broadcast that calls its callback was registered as its own context. -/
def SelfRegistered (s : Stacks) : StackEvent → Prop
  | .call _ => ∀ r rest, s.pending = r :: rest → ∀ o, s.heap.load r.source = some o → o.component.kind = .urb →
      ∀ cb, o.slots r.upcall.slot = some cb → cb.ctx = some r.source
  | _ => True

end DSA.Upcalls
