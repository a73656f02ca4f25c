import DistributedAbstractions.Lib.Inbox
import DistributedAbstractions.Spec.Parsing

/-! The receiving side of the links: a datagram is read by the fair-loss link, and its
contents go up through the perfect link to the authenticated one. Allocations succeed.
What an uninitialised buffer holds comes with the datagram that is read into it; a link
that leaves the bounds of a buffer is at its end. -/

namespace DSA

open CLib Inbox

def NUL : Char := '\x00'

def cstr (mem : List Char) : CString := mem.takeWhile (· ≠ NUL)

def strlen (mem : List Char) : ℕ := (cstr mem).length

abbrev Hash := BitVec 64

/-- A datagram, and what is behind the written part of `buf`, `id` and `sig` when it is
handled. -/
structure Received where
  bytes : List Char
  buf : List Char
  id : List Char
  sig : List ℕ

inductive Handled (α : Type)
  | overrun
  | returned
  | callback (e : α)

/-- Size of the buffer for the rank of the sender. -/
def FLL_ID_LEN : ℕ := 10

/-- The rank is not terminated, so `atoi` reads on in what `id` holds behind it. -/
def consumeMsg (r : Received) : Handled Deliver :=
  let bytes := r.bytes.take (MAX_MSG_LEN - 1)
  if bytes = [] then .returned
  else
    let buf := (bytes ++ NUL :: r.buf).take MAX_MSG_LEN
    let idLen := strcspn (cstr buf) ','
    let rest := buf.drop (idLen + DELIM_LEN)
    if idLen > FLL_ID_LEN then .overrun
    else if NUL ∉ rest then .overrun
    else .callback ⟨cstr rest, atoi (buf.take idLen ++ r.id)⟩

/-- The value of a `char`, which is signed. -/
def charVal (c : Char) : ℤ := if c.toNat < 128 then c.toNat else c.toNat - 256

def djb2 (str : CString) : Hash :=
  str.foldl (fun hash c => ((hash <<< 5) + hash) + BitVec.ofInt 64 (charVal c)) 5381

/-- The bytes of `e->msg`. -/
def msgBuffer (msg : CString) : List Char := msg ++ List.replicate (MAX_MSG_LEN - msg.length) NUL

/-- `i <= strlen(e->msg) - offset`, where a negative difference is a huge `size_t`. -/
def shiftGoesOn (offset i : ℕ) (mem : List Char) : Bool :=
  strlen mem < offset || i ≤ strlen mem - offset

/-- A loop that moves the message to the front of its own buffer. `room` is how far `i + offset` is from
the end of the buffer. -/
def moveLoop (goesOn : ℕ → List Char → Bool) (offset : ℕ) : ℕ → ℕ → List Char → Option (List Char)
  | 0, i, mem => if goesOn i mem then none else some mem
  | room + 1, i, mem =>
    if goesOn i mem then moveLoop goesOn offset room (i + 1) (mem.set i (mem.getD (i + offset) NUL))
    else some mem

def shiftLoop (offset : ℕ) : ℕ → ℕ → List Char → Option (List Char) := moveLoop (shiftGoesOn offset) offset

/-- `strcspn(e->msg, ",")`. -/
def idLen (e : Deliver) : ℕ := strcspn e.msg ','

def plHash (e : Deliver) : Hash :=
  djb2 (snprintf MAX_MSG_LEN (fmtInt e.sender ++ e.msg.take (idLen e)))

/-- The wrapper of the perfect link. -/
def plWrapper (inbox : List Hash) (e : Deliver) : List Hash × Handled Deliver :=
  if idLen e ≥ UUID_STR_LEN then (inbox, .overrun)
  else if plHash e ∈ inbox then (inbox, .returned)
  else
    let offset := idLen e + DELIM_LEN
    match shiftLoop offset (MAX_MSG_LEN - offset) 0 (msgBuffer e.msg) with
    | none => (inbox, .overrun)
    | some mem => (inbox ++ [plHash e], .callback ⟨cstr mem, e.sender⟩)

def hexVal (c : Char) : Option ℕ :=
  if c.isDigit then some (c.toNat - 48)
  else if 'a' ≤ c ∧ c ≤ 'f' then some (c.toNat - 87)
  else if 'A' ≤ c ∧ c ≤ 'F' then some (c.toNat - 55)
  else none

/-- libsodium's decoder without ignored characters and without `hex_end`: all of `hex` has
to be pairs of digits, and to fit. -/
def hexPairs : CString → Option (List ℕ)
  | [] => some []
  | [_] => none
  | a :: b :: hex => do
    let x ← hexVal a
    let y ← hexVal b
    let bin ← hexPairs hex
    return (16 * x + y) :: bin

def sodiumHex2bin (maxLen : ℕ) (hex : CString) : Option (List ℕ) :=
  (hexPairs hex).filter (·.length ≤ maxLen)

/-- The wrapper of the authenticated link. `verify rank sig msg` is the check with the public
key of `rank`; a short `sig` is filled up by what its buffer holds. -/
def aplWrapper (verify : ℤ → List ℕ → CString → Bool) (maxRank : ℕ) (sig : List ℕ) (e : Deliver) :
    Handled Deliver :=
  let sigHexLen := strcspn e.msg ','
  if sigHexLen = 0 ∨ sigHexLen ≥ MAX_MSG_LEN then .returned
  else if e.sender < 1 ∨ e.sender > maxRank then .returned
  else
    match sodiumHex2bin crypto_sign_BYTES (e.msg.take sigHexLen) with
    | none => .returned
    | some bin =>
      let offset := sigHexLen + DELIM_LEN
      if offset ≥ e.msg.length then .returned
      else if verify e.sender (bin ++ sig.drop bin.length) (e.msg.drop offset) then
        .callback ⟨e.msg.drop offset, e.sender⟩
      else .returned

/-- The signature field of a message for the wrapper of the authenticated link. -/
def sigField (e : Deliver) : CString := e.msg.take (strcspn e.msg ',')

/-- What `sig` held before makes no difference to whether a message is accepted, and one with a short
signature is not. -/
structure Unstale (maxRank : ℕ) (e : Deliver) : Prop where
  same_decision : ∀ verify sig sig', sig.length = crypto_sign_BYTES → sig'.length = crypto_sign_BYTES →
    aplWrapper verify maxRank sig e = aplWrapper verify maxRank sig' e
  short_rejected : ∀ bin, sodiumHex2bin crypto_sign_BYTES (sigField e) = some bin → bin.length < crypto_sign_BYTES →
    ∀ verify sig, sig.length = crypto_sign_BYTES → aplWrapper verify maxRank sig e = .returned

/-- Some pairs of hex digits, but fewer than a signature has, stand before the comma, and something
behind it. -/
def ShortSignature (e : Deliver) : Prop :=
  sigField e ≠ [] ∧ (∀ c ∈ sigField e, (hexVal c).isSome) ∧ (sigField e).length % 2 = 0 ∧
    (sigField e).length < 2 * crypto_sign_BYTES ∧ (sigField e).length + DELIM_LEN < e.msg.length

instance (e : Deliver) : Decidable (ShortSignature e) := inferInstanceAs (Decidable (_ ∧ _))

/-- The inbox is the one of the perfect link, the deliveries are the callbacks of the
authenticated one. -/
abbrev AplLink := Receiver Hash Deliver

def aplConsume (verify : ℤ → List ℕ → CString → Bool) (maxRank : ℕ) (l : AplLink) (r : Received) :
    AplLink :=
  if !l.running then l
  else
    match consumeMsg r with
    | .overrun => { l with running := false }
    | .returned => l
    | .callback e =>
      match plWrapper l.inbox e with
      | (_, .overrun) => { l with running := false }
      | (_, .returned) => l
      | (inbox, .callback e) =>
        match aplWrapper verify maxRank r.sig e with
        | .callback e => { l with inbox := inbox, delivered := l.delivered ++ [e] }
        | _ => { l with inbox := inbox }

def aplRun (verify : ℤ → List ℕ → CString → Bool) (maxRank : ℕ) (rs : List Received) : AplLink :=
  rs.foldl (aplConsume verify maxRank) empty

/-- By its own bytes the datagram is `"<rank>,<id>,<signature>,<message>"`, with all of a signature, which
verifies under the key of that rank. -/
def verifies (verify : ℤ → List ℕ → CString → Bool) (maxRank : ℕ) (bytes : List Char) : Bool :=
  let text := cstr bytes
  let rank := atoi (text.take (strcspn text ','))
  let tagged := text.drop (strcspn text ',' + DELIM_LEN)
  let signed := tagged.drop (strcspn tagged ',' + DELIM_LEN)
  match hexPairs (signed.take (strcspn signed ',')) with
  | none => false
  | some sig =>
    sig.length = crypto_sign_BYTES && 1 ≤ rank && rank ≤ maxRank &&
      verify rank sig (signed.drop (strcspn signed ',' + DELIM_LEN))

/-- What stands in `buf`, `id` and `sig` behind the part that a datagram fills. -/
structure Remains where
  buf : List Char
  id : List Char
  sig : List ℕ

/-- The calls before have left it there: `left` sees the datagrams that they were made for, and this one. -/
def received (left : List (List Char) → List Char → Remains) (before : List (List Char)) (bytes : List Char) :
    Received :=
  ⟨bytes, (left before bytes).buf, (left before bytes).id, (left before bytes).sig⟩

/-- The events that the callback gets for the datagrams `ds`. -/
def aplEvents (verify : ℤ → List ℕ → CString → Bool) (maxRank : ℕ) (left : List (List Char) → List Char → Remains)
    (ds : List (List Char)) : List Deliver :=
  (aplRun verify maxRank (mapPast (received left) [] ds)).delivered

/-- The events of the authenticated link are those without the datagrams that do not verify. -/
def UnmovedByForgery (verify : ℤ → List ℕ → CString → Bool) (maxRank : ℕ)
    (left : List (List Char) → List Char → Remains) (ds : List (List Char)) : Prop :=
  aplEvents verify maxRank left ds = aplEvents verify maxRank left (ds.filter (verifies verify maxRank))

/-- What a datagram is to the inbox: its hash is recorded before the signature is looked at,
and a message shorter than the id in front of it is not moved within its buffer. -/
def reading (verify : ℤ → List ℕ → CString → Bool) (maxRank : ℕ) (r : Received) : Reading Hash Deliver :=
  match consumeMsg r with
  | .overrun => .broken
  | .returned => .ignored
  | .callback e =>
    if idLen e ≥ UUID_STR_LEN then .broken
    else if e.msg.length < 2 * (idLen e + DELIM_LEN) then .ragged (plHash e)
    else
      match aplWrapper verify maxRank r.sig ⟨e.msg.drop (idLen e + DELIM_LEN), e.sender⟩ with
      | .callback e' => .accepted (plHash e) e'
      | _ => .rejected (plHash e)

/-- The same behind the datagrams `before`. -/
def readingAfter (verify : ℤ → List ℕ → CString → Bool) (maxRank : ℕ)
    (left : List (List Char) → List Char → Remains) (before : List (List Char)) (bytes : List Char) :
    Reading Hash Deliver :=
  reading verify maxRank (received left before bytes)

end DSA
