import DistributedAbstractions.Lib.Cells
import DistributedAbstractions.Spec.Links

/-! `consume_msg` and the wrapper of the perfect link with the arrays that they use, cell by cell. -/

namespace DSA

open CLib

/-- A datagram as `recvfrom` can return it, and what the arrays hold that are not initialised: `buf` and
`id` of `consume_msg`, and `id` of the wrapper. -/
structure RawArrival where
  bytes : List Char
  buf : Cells
  id : Cells
  uuid : Cells
  received : bytes ≠ [] ∧ bytes.length < MAX_MSG_LEN
  size_buf : buf.length = MAX_MSG_LEN
  size_id : id.length = FLL_ID_LEN
  size_uuid : uuid.length = UUID_STR_LEN

/-- `calloc`, or an initializer that names another member. -/
def zeros : Cells := List.replicate MAX_MSG_LEN NUL

def consumeMsgAt (a : RawArrival) : Option (Cells × ℤ) := do
  let buf ← Cells.store (a.bytes ++ a.buf.drop a.bytes.length) a.bytes.length NUL
  let idLen ← Cells.strcspn buf ','
  let id ← Cells.strncpy a.id buf idLen
  let msg ← Cells.strcpy zeros (buf.drop (idLen + DELIM_LEN))
  let sender ← Cells.atoi id
  return (msg, sender)

/-- The loop that moves the message. It cannot go round more often than the array has cells, since `i`
has to stay inside. -/
def shiftAt (offset : ℕ) : ℕ → ℕ → Cells → Option Cells
  | 0, _, _ => none
  | rounds + 1, i, msg => do
    let len ← Cells.strlen msg
    -- a negative difference is a huge `size_t`
    if len < offset ∨ i ≤ len - offset then
      (Cells.load msg (i + offset)).bind fun c =>
        (Cells.store msg i c).bind fun msg => shiftAt offset rounds (i + 1) msg
    else some msg

/-- The inbox afterwards, and what the callback gets if it is called. -/
def wrapperAt (id : Cells) (inbox : List Hash) (msg : Cells) (sender : ℤ) : Option (List Hash × Option (Cells × ℤ)) := do
  let idLen ← Cells.strcspn msg ','
  let id ← Cells.strncpy id msg idLen
  let id ← Cells.store id idLen NUL
  let len ← Cells.strlen id
  let hash := djb2 (snprintf MAX_MSG_LEN (fmtInt sender ++ id.take len))
  if inbox.contains hash then some (inbox, none)
  else
    (shiftAt (idLen + DELIM_LEN) (msg.length + 1) 0 msg).bind fun msg =>
      (Cells.strcpy zeros msg).map fun body => (inbox ++ [hash], some (body, sender))

def handleAt (a : RawArrival) (inbox : List Hash) : Option (List Hash × Option (Cells × ℤ)) :=
  (consumeMsgAt a).bind fun (msg, sender) => wrapperAt a.uuid inbox msg sender

/-- The datagram is handled to the end, with all indices inside their arrays. -/
def Harmless (a : RawArrival) (inbox : List Hash) : Prop := (handleAt a inbox).isSome

namespace RawArrival

variable (a : RawArrival)

/-- The bytes before the first comma or NUL. -/
def rank : CString := a.bytes.takeWhile fun c => !(c = ',' || c = NUL)

/-- `id` with the rank in front of what it held. -/
def rankCells : Cells := a.rank ++ a.id.drop a.rank.length

/-- `buf` from behind the delimiter on. -/
def behindRank : Cells := (a.bytes ++ NUL :: a.buf.drop (a.bytes.length + 1)).drop (a.rank.length + DELIM_LEN)

def event : Deliver := ⟨cstr a.behindRank, CLib.atoi a.rankCells⟩

/-- The arrival as the datagram and what is behind the written parts. -/
def toReceived (sig : List ℕ) : Received :=
  ⟨a.bytes, a.buf.drop (a.bytes.length + 1), a.id.drop a.rank.length, sig⟩

end RawArrival

/-- The rank and the id fit, with a cell that ends the number; there is a terminator behind the first
delimiter; and the message is long enough to be moved, or is not moved since it is a repetition. -/
structure Benign (a : RawArrival) (inbox : List Hash) : Prop where
  rank_fits : a.rank.length ≤ FLL_ID_LEN
  number_ends : ¬ Cells.RunsOn a.rankCells
  payload_ends : NUL ∈ a.behindRank
  id_fits : idLen a.event < UUID_STR_LEN
  moved : plHash a.event ∈ inbox ∨ 2 * (idLen a.event + DELIM_LEN) ≤ a.event.msg.length

end DSA
