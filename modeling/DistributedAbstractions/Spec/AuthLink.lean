import DistributedAbstractions.Spec.PerfectLink

/-! Peers that send through the authenticated link, and a network in the hands of an adversary:
whatever bytes it likes arrive anywhere and at any time, in the buffers that it likes, but it
cannot sign for a correct peer. -/

namespace DSA

open CLib Inbox Trans

/-- libsodium's encoder. -/
def sodiumBin2hex (bin : List ℕ) : CString :=
  bin.flatMap fun b => [Nat.digitChar (b / 16), Nat.digitChar (b % 16)]

/-- The peers and their keys: `sign` and `verify` are libsodium's, with the secret and the
public key of the peer of the given rank. -/
structure Keyring where
  maxRank : ℕ
  byz : Finset ℤ
  sign : ℤ → CString → List ℕ
  verify : ℤ → List ℕ → CString → Bool

def Keyring.correct (F : Keyring) (p : ℤ) : Bool := decide (p ∈ peers F.maxRank) && !decide (p ∈ F.byz)

/-- What `apl_send` hands to the perfect link: the message behind its signature. -/
def aplSend (F : Keyring) (p : ℤ) (e : Send) : Send :=
  ⟨snprintf MAX_MSG_LEN (sodiumBin2hex (F.sign p e.msg) ++ ',' :: e.msg), e.recipient⟩

structure Datagram where
  dst : ℤ
  bytes : List Char

/-- `"<id>,<msg>"`. -/
def fllDatagram (id : ℤ) (e : Send) : Datagram :=
  ⟨e.recipient, snprintf MAX_MSG_LEN (fmtInt id ++ ',' :: e.msg)⟩

structure AplState where
  calls : List PlCall
  sbl : Stubborn Datagram
  received : ℤ → List Received

/-- The adversary does not keep to the datagrams that are on their way. -/
inductive AplEvent
  | send (c : PlCall)
  | timeout (p : ℤ)
  | arrive (q : ℤ) (r : Received)

def aplNext (F : Keyring) (s : AplState) : AplEvent → Option AplState
  | .send c =>
    if F.correct c.src then
      some { s with
        calls := s.calls ++ [c]
        sbl := sblSend fllDatagram s.sbl c.src (plSend c.uuid (aplSend F c.src ⟨c.msg, c.dst⟩)) }
    else none
  | .timeout p =>
    if F.correct p then some { s with sbl := sblHandleTimeout fllDatagram s.sbl p } else none
  | .arrive q r =>
    if F.correct q then some { s with received := Function.update s.received q (s.received q ++ [r]) }
    else none

def aplSystem (F : Keyring) : System AplState AplEvent :=
  ⟨⟨[], ⟨fun _ => [], []⟩, fun _ => []⟩, aplNext F⟩

def AplState.link (F : Keyring) (s : AplState) (q : ℤ) : AplLink := aplRun F.verify F.maxRank (s.received q)

/-- The buffer that a datagram is received in. -/
def Received.buffer (r : Received) : List Char := (r.bytes.take (MAX_MSG_LEN - 1) ++ NUL :: r.buf).take MAX_MSG_LEN

/-- Somewhere in the buffer there is a signature in hex with `m` behind it, the last bytes of
the signature being there before if it is cut short. -/
def Offers (r : Received) (sig : List ℕ) (m : CString) : Prop :=
  ∃ pre hex bin post, r.buffer = pre ++ (hex ++ ',' :: (m ++ NUL :: post)) ∧
    sodiumHex2bin crypto_sign_BYTES hex = some bin ∧ sig = bin ++ r.sig.drop bin.length

/-- Nothing that arrives has a signature of a correct peer on a message that it has not signed. -/
def Unforged (F : Keyring) (s : AplState) : AplEvent → Prop
  | .arrive _ r => ∀ p sig m, F.correct p = true → Offers r sig m → F.verify p sig m = true →
      ∃ c ∈ s.calls, c.src = p ∧ c.msg = m
  | _ => True

/-- The datagram is `m` under `id` with a good signature of `p`, in the name of `p`. -/
def Bears (F : Keyring) (r : Received) (p : ℤ) (id m : CString) : Prop :=
  ∃ rank sep hex bin post,
    r.buffer = rank ++ sep :: (id ++ ',' :: (hex ++ ',' :: (m ++ NUL :: post))) ∧
    (sep = ',' ∨ sep = NUL) ∧ ',' ∉ rank ∧ NUL ∉ rank ∧ ',' ∉ id ∧ ',' ∉ hex ∧ atoi (rank ++ r.id) = p ∧
    sodiumHex2bin crypto_sign_BYTES hex = some bin ∧
    F.verify p (bin ++ r.sig.drop bin.length) m = true

/-- A message that a correct peer has signed arrives only under an id which that peer has drawn
to send it to the same recipient. -/
def Unaltered (F : Keyring) (s : AplState) : AplEvent → Prop
  | .arrive q r => ∀ p id m, F.correct p = true → Bears F r p id m →
      (∃ c ∈ s.calls, c.src = p ∧ c.msg = m) →
        ∃ c ∈ s.calls, c.src = p ∧ c.dst = q ∧ c.msg = m ∧ c.uuid = id
  | _ => True

/-- What a correct peer gets from a correct peer, the latter has sent to it. -/
def Authentic (F : Keyring) (s : AplState) : Prop :=
  ∀ q p m, F.correct p = true → ⟨m, p⟩ ∈ (s.link F q).delivered →
    ∃ c ∈ s.calls, c.src = p ∧ c.dst = q ∧ c.msg = m

/-- It gets it no more often than it was sent. -/
def Unrepeated (F : Keyring) (s : AplState) : Prop :=
  ∀ q p m, F.correct p = true →
    (s.link F q).delivered.count ⟨m, p⟩ ≤ s.calls.countP fun c => c.src = p ∧ c.dst = q ∧ c.msg = m

end DSA
