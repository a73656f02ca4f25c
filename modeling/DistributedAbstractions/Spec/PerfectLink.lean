import DistributedAbstractions.Lib.Run
import DistributedAbstractions.Spec.BcFrame
import DistributedAbstractions.Spec.Links

/-! The perfect link: what it makes of the messages that the links below hand over, and any
number of peers that send through it over a channel that loses, repeats and reorders. -/

namespace DSA

open CLib Inbox Net Trans

/-- A call of the callback, with the message that it was made for. -/
structure Raised where
  cause : Deliver
  event : Deliver
deriving DecidableEq

abbrev PlLink := Receiver Hash Raised

def plConsume (l : PlLink) (e : Deliver) : PlLink :=
  if !l.running then l
  else
    match plWrapper l.inbox e with
    | (_, .overrun) => { l with running := false }
    | (_, .returned) => l
    | (inbox, .callback e') => { l with inbox := inbox, delivered := l.delivered ++ [⟨e, e'⟩] }

def plRun (es : List Deliver) : PlLink := es.foldl plConsume empty

def plReading (e : Deliver) : Reading Hash Raised :=
  if idLen e ≥ UUID_STR_LEN then .broken
  else if e.msg.length < 2 * (idLen e + DELIM_LEN) then .ragged (plHash e)
  else .accepted (plHash e) ⟨e, ⟨e.msg.drop (idLen e + DELIM_LEN), e.sender⟩⟩

/-- A string in the buffer of a message, with an id that fits its own. -/
def WellFormed (e : Deliver) : Prop :=
  NUL ∉ e.msg ∧ e.msg.length < MAX_MSG_LEN ∧ idLen e < UUID_STR_LEN

instance (e : Deliver) : Decidable (WellFormed e) := inferInstanceAs (Decidable (_ ∧ _))

def SameRecord (e e' : Deliver) : Prop :=
  e.sender = e'.sender ∧ e.msg.take (idLen e) = e'.msg.take (idLen e')

instance (e e' : Deliver) : Decidable (SameRecord e e') := inferInstanceAs (Decidable (_ ∧ _))

/-- A message that the link handles is dropped if and only if an earlier one had the same
sender and the same id. -/
def ExactSuppression (es : List Deliver) : Prop :=
  ∀ pre e, pre ++ [e] <+: es → (plRun pre).running = true →
    ((plWrapper (plRun pre).inbox e).2 = .returned ↔ ∃ e' ∈ pre, SameRecord e' e)

/-- The digits of the sender with the id behind them. -/
def recordText (e : Deliver) : CString := snprintf MAX_MSG_LEN (fmtInt e.sender ++ e.msg.take (idLen e))

/-- A text as a number to the base 33. -/
def textValue (s : CString) : ℤ := s.foldl (fun v c => 33 * v + charVal c) 5381

/-- The records of no two messages that the link handles are the same modulo `2 ^ 64` unless
sender and id are. -/
def NoCollision (es : List Deliver) : Prop :=
  ∀ pre e, pre ++ [e] <+: es → (plRun pre).running = true → ∀ e' ∈ pre,
    textValue (recordText e') % 2 ^ 64 = textValue (recordText e) % 2 ^ 64 → SameRecord e' e

/-- An id without commas that fits its buffer, and a body that fits the message buffer with it. -/
structure Tagged (id body : CString) : Prop where
  comma : ',' ∉ id
  id_pos : 0 < id.length
  id_fits : id.length < UUID_STR_LEN
  string : NUL ∉ id ++ ',' :: body
  fits : (id ++ ',' :: body).length < MAX_MSG_LEN

/-- After the messages `es` the callback gets the body that `sender` has sent under `id`: the loop
that strips the id ends, and it does so within the buffer. -/
def Strips (es : List Deliver) (id body : CString) (sender : ℤ) : Prop :=
  (plWrapper (plRun es).inbox ⟨id ++ ',' :: body, sender⟩).2 = .callback ⟨body, sender⟩

structure Send where
  msg : CString
  recipient : ℤ
deriving DecidableEq

/-- What `pl_send` hands to the stubborn link under the uuid that it draws. -/
def plSend (uuid : CString) (e : Send) : Send := ⟨snprintf MAX_MSG_LEN (uuid ++ ',' :: e.msg), e.recipient⟩

structure PlCall where
  src : ℤ
  dst : ℤ
  msg : CString
  uuid : CString
deriving DecidableEq, Inhabited

def PlCall.sent (c : PlCall) : Send := plSend c.uuid ⟨c.msg, c.dst⟩

/-- Each copy of the message of a call arrives as this, and may raise that. -/
def PlCall.raised (c : PlCall) : Raised := ⟨⟨c.sent.msg, c.src⟩, ⟨c.msg, c.src⟩⟩

/-- The stubborn links of all peers: what each of them has sent, and all datagrams that
have been on their way. -/
structure Stubborn (δ : Type) where
  outbox : ℤ → List Send
  air : List δ

/-- `emit p e` is the datagram that the fair-loss link of `p` makes of `e`. -/
def sblSend {δ : Type} (emit : ℤ → Send → δ) (sbl : Stubborn δ) (p : ℤ) (e : Send) : Stubborn δ where
  outbox := Function.update sbl.outbox p (sbl.outbox p ++ [e])
  air := sbl.air ++ [emit p e]

def sblHandleTimeout {δ : Type} (emit : ℤ → Send → δ) (sbl : Stubborn δ) (p : ℤ) : Stubborn δ :=
  { sbl with air := sbl.air ++ (sbl.outbox p).map (emit p) }

/-- The fair-loss link of peer `id` as the start of a channel. -/
def fllSend (id : ℤ) (e : Send) : Packet CString := ⟨id, e.recipient, e.msg⟩

structure PlState where
  calls : List PlCall
  sbl : Stubborn (Packet CString)
  received : ℤ → List Deliver

inductive PlEvent
  | send (c : PlCall)
  | timeout (p : ℤ)
  | arrive (k : Packet CString)

def PlState.send (s : PlState) (c : PlCall) : PlState :=
  { s with calls := s.calls ++ [c], sbl := sblSend fllSend s.sbl c.src c.sent }

def PlState.timeout (s : PlState) (p : ℤ) : PlState :=
  { s with sbl := sblHandleTimeout fllSend s.sbl p }

def PlState.arrive (s : PlState) (k : Packet CString) : PlState :=
  { s with received := Function.update s.received k.dst (s.received k.dst ++ [⟨k.msg, k.src⟩]) }

/-- The channel hands over any packet that has been on its way, any number of times. -/
def plNext (s : PlState) : PlEvent → Option PlState
  | .send c => some (s.send c)
  | .timeout p => some (s.timeout p)
  | .arrive k => if k ∈ s.sbl.air then some (s.arrive k) else none

def plSystem : System PlState PlEvent := ⟨⟨[], ⟨fun _ => [], []⟩, fun _ => []⟩, plNext⟩

def PlState.link (s : PlState) (q : ℤ) : PlLink := plRun (s.received q)

/-- A message is a string, its uuid is new, and the datagram fits the buffers. -/
def PlFair (s : PlState) : PlEvent → Prop
  | .send c => IsUuid c.uuid ∧ NUL ∉ c.uuid ++ c.msg ∧ plFrameLen c.src c.msg < MAX_MSG_LEN ∧
      ∀ c' ∈ s.calls, c'.uuid ≠ c.uuid
  | _ => True

instance (s : PlState) : (e : PlEvent) → Decidable (PlFair s e)
  | .send _ => inferInstanceAs (Decidable (_ ∧ _ ∧ _ ∧ _))
  | .timeout _ => isTrue trivial
  | .arrive _ => isTrue trivial

/-- A call raises at most one callback, and the callbacks go back to different calls. -/
structure PlIntegrity (s : PlState) : Prop where
  no_duplication : ∀ c ∈ s.calls,
    ((s.link c.dst).delivered.filter fun r => r.cause = c.raised.cause).length ≤ 1
  no_creation : ∀ q, ∃ cs : List PlCall, cs.Nodup ∧ (∀ c ∈ cs, c ∈ s.calls ∧ c.dst = q) ∧
    (s.link q).delivered = cs.map PlCall.raised

end DSA
