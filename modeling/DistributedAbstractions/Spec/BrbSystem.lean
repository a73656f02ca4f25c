import DistributedAbstractions.Spec.Brb

/-! Peers `1` to `max_rank` of one Byzantine broadcast, those in `byz` played by an
adversary that cannot sign for the others, and what the broadcast is for. -/

namespace DSA

open CLib Net Trans

abbrev BrbState := State Brb CString CString Deliver

def brbSystem {ρ : Type} (ok : ρ → ℤ → Bool) (config : BrbConfig) (byz : Finset ℤ) :
    System BrbState (Event ρ CString CString) :=
  system (brbProtocol ok config) (aplSetting config.maxRank byz)

def noFailure : Unit → ℤ → Bool := fun _ _ => true

/-- The peers follow the code until they crash, and no `sendto` fails. -/
def brbCrashSetting (maxRank : ℕ) : Setting CString where
  size := maxRank
  byz := ∅
  replays := false
  crashes := true
  carries := aplCarries
  forges _ := false

def brbCrashSystem (config : BrbConfig) : System BrbState (Event Unit CString CString) :=
  system (brbProtocol noFailure config) (brbCrashSetting config.maxRank)

/-- `sender` has an entry in `list`, and the scan does not come across it. -/
def overlooked (list : List ReadyEntry) (sender : ℤ) : Bool :=
  list.any (·.peerRank = sender) && !seen list sender

/-- The step does not count a peer twice. -/
def ScanComplete {ρ : Type} (s : BrbState) : Event ρ CString CString → Prop
  | .act p _ a _ =>
    match a.input with
    | .call _ => True
    | .receive q P =>
      ((tryParseMessage P ECHO_CODE).isSome = true → overlooked (s.proc p).state.echos q = false) ∧
      ((tryParseMessage P READY_CODE).isSome = true → overlooked (s.proc p).state.readys q = false)
  | .crash _ => True

instance {ρ : Type} (s : BrbState) : (e : Event ρ CString CString) → Decidable (ScanComplete s e)
  | .act _ _ (.call _) _ => isTrue trivial
  | .act _ _ (.deliver _ _) _ => inferInstanceAs (Decidable (_ ∧ _))
  | .act _ _ (.forge _ _) _ => inferInstanceAs (Decidable (_ ∧ _))
  | .crash _ => isTrue trivial

/-- Peer `p` has sent a message with body `m` under `code` to somebody. -/
def SentCode (s : BrbState) (p : ℤ) (code m : CString) : Prop :=
  ∃ d P, .send d P ∈ (s.proc p).effects ∧ tryParseMessage P code = some m

def deliveredAt (s : BrbState) (p : ℤ) : List CString :=
  (indications (s.proc p).effects).map Deliver.msg

/-- The sends among `es` whose message has header `c`. -/
def codeSends (c : CString) (es : BrbEffects) : BrbEffects :=
  es.filter fun
    | .send _ P => (tryParseMessage P c).isSome
    | .indicate _ => false

/-- Indications of correct peers agree, and each of them raises one at most. -/
def Consistent (maxRank : ℕ) (byz : Finset ℤ) (s : BrbState) : Prop :=
  (∀ p ∈ peers maxRank \ byz, ∀ q ∈ peers maxRank \ byz,
    ∀ d ∈ indications (s.proc p).effects, ∀ d' ∈ indications (s.proc q).effects, d.msg = d'.msg) ∧
  ∀ p ∈ peers maxRank \ byz, (indications (s.proc p).effects).length ≤ 1

/-- What correct peers deliver the designated sender has broadcast, and READY is sent
only for what some correct peer has echoed. -/
def Integrity (config : BrbConfig) (byz : Finset ℤ) (s : BrbState) : Prop :=
  (∀ p ∈ peers config.maxRank \ byz, ∀ d ∈ indications (s.proc p).effects,
    .call d.msg ∈ (s.proc config.senderRank).inputs) ∧
  ∀ p ∈ peers config.maxRank \ byz, ∀ m, SentCode s p READY_CODE m →
    ∃ q ∈ peers config.maxRank \ byz, SentCode s q ECHO_CODE m

/-- Once nothing is on its way between correct peers, all of them have delivered or none. -/
def Totality (maxRank : ℕ) (byz : Finset ℤ) (s : BrbState) : Prop :=
  Quiet s (peers maxRank \ byz) → ∀ p ∈ peers maxRank \ byz, ∀ q ∈ peers maxRank \ byz,
    indications (s.proc p).effects ≠ [] → indications (s.proc q).effects ≠ []

/-- What is left of at most `max_faulty_nodes` crashes has echoed, readied and delivered
the one message of the designated sender, once nothing is on its way any more. -/
def Validity (config : BrbConfig) (m : CString) (s : BrbState) : Prop :=
  config.senderRank ∈ uncrashed config.maxRank s →
  config.maxRank ≤ (uncrashed config.maxRank s).card + config.maxFaultyNodes →
  calls (s.proc config.senderRank).inputs = [m] → Quiet s (uncrashed config.maxRank s) →
  ∀ p ∈ uncrashed config.maxRank s,
    codeSends ECHO_CODE (s.proc p).effects =
      (ranks config.maxRank).map (.send · (payload ECHO_CODE m)) ∧
    codeSends READY_CODE (s.proc p).effects =
      (ranks config.maxRank).map (.send · (payload READY_CODE m)) ∧
    deliveredAt s p = [m]

/-- A READY of `q` makes the peer deliver `body`. -/
def completes (brb : Brb) (q : ℤ) (body : CString) : Bool :=
  !seen brb.readys q && !brb.delivered && decide (2 * brb.maxFaultyNodes < getCount (brb.readys ++ [⟨q, body⟩]) body)

/-- The READY that makes a peer deliver is that of the designated sender. -/
def SenderCompletes {ρ : Type} (s : BrbState) : Event ρ CString CString → Prop
  | .act p _ a _ =>
    match a.input with
    | .call _ => True
    | .receive q P => (tryParseMessage P READY_CODE).any (completes (s.proc p).state q) = true →
        q = (s.proc p).state.senderRank
  | .crash _ => True

instance {ρ : Type} (s : BrbState) : (e : Event ρ CString CString) → Decidable (SenderCompletes s e)
  | .act _ _ (.call _) _ => isTrue trivial
  | .act _ _ (.deliver _ _) _ => inferInstanceAs (Decidable (_ → _))
  | .act _ _ (.forge _ _) _ => inferInstanceAs (Decidable (_ → _))
  | .crash _ => isTrue trivial

/-- Indications of correct peers are from the designated sender, and all the same. -/
structure Attributed (config : BrbConfig) (byz : Finset ℤ) (s : BrbState) : Prop where
  sender : ∀ p ∈ peers config.maxRank \ byz, ∀ d ∈ indications (s.proc p).effects, d.sender = config.senderRank
  equal : ∀ p ∈ peers config.maxRank \ byz, ∀ q ∈ peers config.maxRank \ byz,
    ∀ d ∈ indications (s.proc p).effects, ∀ d' ∈ indications (s.proc q).effects, d = d'

end DSA
