import DistributedAbstractions.Spec.AuthLink

/-! The sending side of the links down to the bytes that `sendto` takes. Each link writes its prefix and
what it was given into a buffer of its own, which is as large as the one it was given. -/

namespace DSA

open CLib

/-- What `fll_send` meets: the memory behind the text in `buf`, and whether `sendto` succeeds. -/
structure Socket where
  behind : List Char
  ok : Bool

/-- A call of `sendto`: `len` bytes from the start of `buf`, and what `fll_send` makes of it. -/
structure Transmission where
  bytes : List Char
  len : ℕ
  status : ℤ
deriving DecidableEq

/-- How many of the bytes are behind the end of `buf`. -/
def Transmission.outside (t : Transmission) : ℕ := t.len - MAX_MSG_LEN

namespace Socket

variable (w : Socket)

/-- `len` is what `snprintf` returns, the length of the text before it is cut. -/
def fllSend (id : ℤ) (e : Send) : Transmission :=
  let text := fmtInt id ++ ',' :: e.msg
  let len := text.length
  ⟨(snprintf MAX_MSG_LEN text ++ NUL :: w.behind).take len, len, if w.ok then 0 else -1⟩

def sblSend (id : ℤ) (outbox : List Send) (e : Send) : List Send × Transmission :=
  (outbox ++ [e], w.fllSend id e)

def plSend (id : ℤ) (uuid : CString) (outbox : List Send) (e : Send) : List Send × Transmission :=
  w.sblSend id outbox (DSA.plSend uuid e)

def aplSend (F : Keyring) (p : ℤ) (uuid : CString) (outbox : List Send) (e : Send) : List Send × Transmission :=
  w.plSend p uuid outbox (DSA.aplSend F p e)

end Socket

/-- `"<rank>,<uuid>,<msg>"`. -/
def plFrame (id : ℤ) (uuid msg : CString) : CString := fmtInt id ++ ',' :: (uuid ++ ',' :: msg)

/-- The same with the signature in hex before the message. -/
def aplFrame (F : Keyring) (p : ℤ) (uuid msg : CString) : CString :=
  plFrame p uuid (sodiumBin2hex (F.sign p msg) ++ ',' :: msg)

/-- What the links rely on libsodium for. -/
structure Keyring.Lawful (F : Keyring) : Prop where
  length_sign : ∀ p m, (F.sign p m).length = crypto_sign_BYTES
  byte : ∀ p m, ∀ b ∈ F.sign p m, b < 256
  verify_sign : ∀ p m, F.verify p (F.sign p m) m = true

/-- What goes out with status 0 is the whole frame, from within `buf` and short enough for the
receiver; a frame that does not fit is refused. -/
structure Untruncated (frame : CString) (t : Transmission) : Prop where
  exact_bytes : t.status = 0 → t.bytes = frame
  readable : t.status = 0 → t.bytes.length ≤ MAX_MSG_LEN - 1
  inside : t.status = 0 → t.outside = 0
  refused : MAX_MSG_LEN ≤ frame.length → t.status ≠ 0

end DSA
