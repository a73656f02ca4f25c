import DistributedAbstractions.Lib.Machine
import DistributedAbstractions.Spec.PerfectLink

/-! The logged perfect link, which recognises a message by its id alone and gives the whole log of its
deliveries to the callback. `store_deliveries` and `retrieve_deliveries` do nothing. Allocations succeed. -/

namespace DSA

open CLib

structure LplDeliver where
  id : CString
  sender : ℤ
  msg : CString
deriving DecidableEq

/-- `i < strlen(e->msg) - DELIM_LEN`, where a negative difference is a huge `size_t`. -/
def lplGoesOn (i : ℕ) (mem : List Char) : Bool := strlen mem < DELIM_LEN || i < strlen mem - DELIM_LEN

/-- The loop that moves the message to the front of its own buffer. -/
def lplShift (offset : ℕ) (mem : List Char) : Option (List Char) := moveLoop lplGoesOn offset (MAX_MSG_LEN - offset) 0 mem

structure LoggedLink where
  deliveries : List LplDeliver
  running : Bool

/-- The wrapper, with the lists that it calls the callback with. A link that leaves the bounds of a
buffer is at its end. -/
def lplWrapper (lpl : LoggedLink) (e : Deliver) : LoggedLink × List (List LplDeliver) :=
  if !lpl.running then (lpl, [])
  else if idLen e ≥ UUID_STR_LEN then ({ lpl with running := false }, [])
  else if lpl.deliveries.any (·.id = e.msg.take (idLen e)) then (lpl, [])
  else
    let offset := idLen e + DELIM_LEN
    match lplShift offset (msgBuffer e.msg) with
    | none => ({ lpl with running := false }, [])
    | some mem =>
      let deliveries := lpl.deliveries ++ [⟨e.msg.take (idLen e), e.sender, cstr mem⟩]
      ({ lpl with deliveries := deliveries }, [deliveries])

/-- What `lpl_send` hands to the stubborn link under the uuid that it draws. -/
def lplSend (uuid : CString) (e : Send) : Send := ⟨snprintf MAX_MSG_LEN (uuid ++ ',' :: e.msg), e.recipient⟩

/-- What arrives of a message `"id,body"`. -/
def LplDeliver.arrival (m : LplDeliver) : Deliver := ⟨m.id ++ ',' :: m.msg, m.sender⟩

def lplRun (ms : List LplDeliver) : LoggedLink × List (List LplDeliver) :=
  Machine.run lplWrapper ⟨[], true⟩ (ms.map LplDeliver.arrival)

/-- Messages that fit, of sends that have drawn different ids. -/
structure Sends (ms : List LplDeliver) : Prop where
  tagged : ∀ m ∈ ms, Tagged m.id m.msg
  unique : ∀ m ∈ ms, ∀ m' ∈ ms, m.id = m'.id → m = m'

/-- The messages are handled within the buffer; the log has the first copy of each, in the order of
arrival; and the callback has got the log each time it became longer. -/
structure ExactLog (ms : List LplDeliver) : Prop where
  running : (lplRun ms).1.running = true
  log : (lplRun ms).1.deliveries = ms.eraseDups
  callbacks : (lplRun ms).2 = (List.range ms.eraseDups.length).map fun k => ms.eraseDups.take (k + 1)

end DSA
