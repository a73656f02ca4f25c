import DistributedAbstractions.Spec.Parsing
import DistributedAbstractions.Lib.Run

/-! Byzantine leader election over authenticated links: one peer's state and handlers,
and its peers with an adversary. Allocations succeed, rounds do not overflow. -/

namespace DSA

open CLib Net Trans

def CO_CODE : CString := ['C', 'O']

structure ByzComplain where
  peerRank : ℤ
  round : ℤ

structure ByzTrust where
  peerRank : ℤ
deriving DecidableEq

structure Ble where
  complains : List ByzComplain
  round : ℤ
  complained : Bool
  maxRank : ℕ
  localRank : ℤ
  maxFaultyPeers : ℕ

abbrev BleEffects := List (Effect CString ByzTrust)

def getRoundLeader (ble : Ble) : ℤ := ble.round % ble.maxRank + 1

/-- `"CO,%d"`. -/
def coFrame (round : ℤ) : CString := payload CO_CODE (fmtInt round)

/-- Everybody but the peer itself gets the complaint. The result of `apl_send` is ignored. -/
def bleComplain (ble : Ble) : Ble × BleEffects :=
  ({ ble with complained := true },
    ((ranks ble.maxRank).filter (· ≠ ble.localRank)).map (.send · (coFrame ble.round)))

def bleCallback (ble : Ble) (deliver : Deliver) : Ble × BleEffects :=
  match tryParseMessage deliver.msg CO_CODE with
  | none => (ble, [])
  | some body =>
    let round := atoi body
    if round ≠ ble.round then (ble, [])
    else if ble.complains.any (·.peerRank = deliver.sender) then (ble, [])
    else
      let ble := { ble with complains := ble.complains ++ [⟨deliver.sender, round⟩] }
      let (ble, sends) :=
        if ble.complains.length > ble.maxFaultyPeers && !ble.complained then bleComplain ble
        else (ble, [])
      if ble.complains.length > 2 * ble.maxFaultyPeers then
        let ble := { ble with round := ble.round + 1, complained := false, complains := [] }
        (ble, sends ++ [.indicate ⟨getRoundLeader ble⟩])
      else (ble, sends)

def bleProtocol (maxRank maxFaultyPeers : ℕ) : Protocol Unit Ble Unit CString ByzTrust where
  init localRank := ⟨[], 0, false, maxRank, localRank, maxFaultyPeers⟩
  handle _ ble
    | .call _ => bleComplain ble
    | .receive sender msg => bleCallback ble ⟨msg, sender⟩

abbrev BleState := State Ble Unit CString ByzTrust
abbrev BleEvent := Event Unit Unit CString

def bleSystem (maxRank maxFaultyPeers : ℕ) (byz : Finset ℤ) : System BleState BleEvent :=
  system (bleProtocol maxRank maxFaultyPeers) (aplSetting maxRank byz)

/-- All peers follow the code, and nobody replays. -/
def bleHonestSystem (maxRank maxFaultyPeers : ℕ) : System BleState BleEvent :=
  system (bleProtocol maxRank maxFaultyPeers) { aplSetting maxRank ∅ with replays := false }

def bleStep (maxRank maxFaultyPeers : ℕ) (ble : Ble) (i : Input Unit CString) : Ble × BleEffects :=
  (bleProtocol maxRank maxFaultyPeers).handle () ble i

/-- A peer between two steps, after it has called `apl_send` and its callback for `effects`. -/
structure BleSteady (maxRank maxFaultyPeers : ℕ) (localRank : ℤ) (ble : Ble) (effects : BleEffects) : Prop where
  distinct : (ble.complains.map (·.peerRank)).Nodup
  current : ∀ e ∈ ble.complains, e.round = ble.round
  few : ble.complains.length ≤ 2 * maxFaultyPeers
  told : ble.complained = true →
    ∀ y ∈ peers maxRank, y ≠ localRank → .send y (coFrame ble.round) ∈ effects

/-- A step stays in its round, or goes on to the next one and trusts its leader. -/
def Advances (ble ble' : Ble) (effects : BleEffects) : Prop :=
  (ble'.round = ble.round ∧ indications effects = []) ∨
    (ble'.round = ble.round + 1 ∧ indications effects = [⟨getRoundLeader ble'⟩])

/-- The round a message complains about. -/
def complaint (msg : CString) : Option ℤ := (tryParseMessage msg CO_CODE).map atoi

/-- No link brings a complaint of a later round. -/
def NotEarly (s : BleState) : BleEvent → Prop
  | .act p _ (.deliver _ msg) _ => ∀ r ∈ complaint msg, r ≤ (s.proc p).state.round
  | _ => True

instance (s : BleState) : (e : BleEvent) → Decidable (NotEarly s e)
  | .act p _ (.deliver _ msg) _ =>
    match h : complaint msg with
    | none => isTrue (by simp [NotEarly, h])
    | some r => decidable_of_iff (r ≤ (s.proc p).state.round) (by simp [NotEarly, h])
  | .act _ _ (.call _) _ => isTrue trivial
  | .act _ _ (.forge _ _) _ => isTrue trivial
  | .crash _ => isTrue trivial

/-- In the run `evs` of `S`, the application at `q` has called `ble_complain` in round `r`. -/
def AppComplained (S : System BleState BleEvent) (evs : List BleEvent) (q r : ℤ) : Prop :=
  ∃ pre s stop, pre ++ [.act q () (.call ()) stop] <+: evs ∧ Run S (fun _ _ => True) pre s ∧
    (s.proc q).state.round = r

/-- `q` has sent a complaint for round `r`. -/
def SentComplaint (s : BleState) (q r : ℤ) : Prop := ∃ d, .send d (coFrame r) ∈ (s.proc q).effects

/-- Leaving a round takes `max_faulty_peers + 1` correct peers and an application. -/
def PutschResistance (S : System BleState BleEvent) (maxRank maxFaultyPeers : ℕ) (byz : Finset ℤ)
    (evs : List BleEvent) (s : BleState) : Prop :=
  ∀ p ∈ peers maxRank \ byz, ∀ r, 0 ≤ r → r < (s.proc p).state.round →
    (∃ Q ⊆ peers maxRank \ byz, maxFaultyPeers + 1 ≤ Q.card ∧ ∀ q ∈ Q, SentComplaint s q r) ∧
    ∃ q ∈ peers maxRank \ byz, AppComplained S evs q r

/-- A round in which all correct applications complain is left by all correct peers. -/
def Succession (S : System BleState BleEvent) (maxRank : ℕ) (byz : Finset ℤ)
    (evs : List BleEvent) (s : BleState) : Prop :=
  Quiet s (peers maxRank \ byz) → ∀ r, (∀ p ∈ peers maxRank \ byz, AppComplained S evs p r) →
    ∀ p ∈ peers maxRank \ byz, r < (s.proc p).state.round

/-- Once nothing is on its way all peers are in one round, with one leader. -/
def RoundAgreement (maxRank : ℕ) (s : BleState) : Prop :=
  Quiet s (peers maxRank) → ∀ p ∈ peers maxRank, ∀ q ∈ peers maxRank,
    (s.proc p).state.round = (s.proc q).state.round ∧
      getRoundLeader (s.proc p).state = getRoundLeader (s.proc q).state

end DSA
