import DistributedAbstractions.Lib.Float32
import DistributedAbstractions.Lib.Machine
import DistributedAbstractions.Spec.Parsing
import Mathlib.Data.Finset.Card

/-! Byzantine reliable broadcast over the authenticated link: one peer's state and
handlers, and all that a handler can do. Allocations succeed. -/

namespace DSA

open CLib Net

def SEND_CODE : CString := ['S', 'E']
def ECHO_CODE : CString := ['E', 'C']
def READY_CODE : CString := ['R', 'Y']

structure ReadyEntry where
  peerRank : ℤ
  msg : CString
deriving DecidableEq

abbrev EchoEntry := ReadyEntry

structure Brb where
  maxRank : ℕ
  senderRank : ℤ
  sentEcho : Bool
  sentReady : Bool
  delivered : Bool
  maxFaultyNodes : ℕ
  readys : List ReadyEntry
  echos : List EchoEntry

structure BrbConfig where
  senderRank : ℤ
  maxFaultyNodes : ℕ
  maxRank : ℕ

def brbInit (config : BrbConfig) : Brb where
  maxRank := config.maxRank
  senderRank := config.senderRank
  sentEcho := false
  sentReady := false
  delivered := false
  maxFaultyNodes := config.maxFaultyNodes
  readys := []
  echos := []

abbrev BrbEffects := List (Effect CString Deliver)

/-- `ok` tells for which ranks `sendto` succeeds. -/
def broadcastAux (brb : Brb) (ok : ℤ → Bool) (msg code : CString) : BrbEffects × ℤ :=
  sendLoop ok (payload code msg) (ranks brb.maxRank)

def handleSend (brb : Brb) (ok : ℤ → Bool) (sender : ℤ) (body : CString) : Brb × BrbEffects :=
  if brb.sentEcho || sender ≠ brb.senderRank then (brb, [])
  else ({ brb with sentEcho := true }, (broadcastAux brb ok body ECHO_CODE).1)

def getCount (list : List ReadyEntry) (body : CString) : ℕ := list.countP (·.msg = body)

/-- The scan for an earlier entry of `sender`. It starts at index 1. -/
def seen (list : List ReadyEntry) (sender : ℤ) : Bool := (list.drop 1).any (·.peerRank = sender)

/-- `(float)(max_rank + max_faulty_nodes) / 2` as an `int`. Halving is exact. -/
def quorumSize (maxRank maxFaultyNodes : ℕ) : ℕ := toFloat (maxRank + maxFaultyNodes) / 2

def handleEcho (brb : Brb) (ok : ℤ → Bool) (sender : ℤ) (body : CString) : Brb × BrbEffects :=
  if seen brb.echos sender then (brb, [])
  else
    let echos := brb.echos ++ [⟨sender, body⟩]
    let echoCount := getCount echos body
    if echoCount > quorumSize brb.maxRank brb.maxFaultyNodes && !brb.sentReady then
      ({ brb with echos := echos, sentReady := true }, (broadcastAux brb ok body READY_CODE).1)
    else ({ brb with echos := echos }, [])

def handleReady (brb : Brb) (ok : ℤ → Bool) (sender : ℤ) (body : CString) : Brb × BrbEffects :=
  if seen brb.readys sender then (brb, [])
  else
    let readys := brb.readys ++ [⟨sender, body⟩]
    let readyCount := getCount readys body
    if readyCount > 2 * brb.maxFaultyNodes && !brb.delivered then
      ({ brb with readys := readys, delivered := true }, [.indicate ⟨body, sender⟩])
    else if readyCount > brb.maxFaultyNodes && !brb.sentReady then
      ({ brb with readys := readys, sentReady := true }, (broadcastAux brb ok body READY_CODE).1)
    else ({ brb with readys := readys }, [])

def brbCallback (brb : Brb) (ok : ℤ → Bool) (deliver : Deliver) : Brb × BrbEffects :=
  match tryParseMessage deliver.msg SEND_CODE with
  | some body => handleSend brb ok deliver.sender body
  | none =>
    match tryParseMessage deliver.msg ECHO_CODE with
    | some body => handleEcho brb ok deliver.sender body
    | none =>
      match tryParseMessage deliver.msg READY_CODE with
      | some body => handleReady brb ok deliver.sender body
      | none => (brb, [])

def brbBroadcast (brb : Brb) (ok : ℤ → Bool) (msg : CString) : BrbEffects × ℤ :=
  broadcastAux brb ok msg SEND_CODE

/-- The peers of one broadcast. `ok` reads off an answer of the environment which
`sendto` calls succeed during the handler. -/
def brbProtocol {ρ : Type} (ok : ρ → ℤ → Bool) (config : BrbConfig) :
    Protocol ρ Brb CString CString Deliver where
  init _ := brbInit config
  handle r brb
    | .call msg => (brb, (brbBroadcast brb (ok r) msg).1)
    | .receive sender msg => brbCallback brb (ok r) ⟨msg, sender⟩

/-- The messages under `code` among deliveries, each with what it meets when it is answered. -/
def codeEntries (code : CString) (es : List ((ℤ → Bool) × Deliver)) : List ReadyEntry :=
  es.filterMap fun x => (tryParseMessage x.2.msg code).map (⟨x.2.sender, ·⟩)

/-- The peers that have sent `body` under `code`. -/
def sendersOf (code : CString) (es : List ((ℤ → Bool) × Deliver)) (body : CString) : Finset ℤ :=
  (((codeEntries code es).filter (·.msg = body)).map (·.peerRank)).toFinset

def brbStep (brb : Brb) (x : (ℤ → Bool) × Deliver) : Brb × BrbEffects := brbCallback brb x.1 x.2

/-- No peer has two entries, and no body counts for more than the peers that have sent it. -/
structure CountsOnce (es : List ((ℤ → Bool) × Deliver)) (brb : Brb) : Prop where
  echo_peers : (brb.echos.map (·.peerRank)).Nodup
  ready_peers : (brb.readys.map (·.peerRank)).Nodup
  echo_count : ∀ body, getCount brb.echos body ≤ (sendersOf ECHO_CODE es body).card
  ready_count : ∀ body, getCount brb.readys body ≤ (sendersOf READY_CODE es body).card

/-- The peer that is the first to send under `code` sends under it once. -/
def FirstOnce (code : CString) (es : List ((ℤ → Bool) × Deliver)) : Prop :=
  ∀ e rest, codeEntries code es = e :: rest → ∀ e' ∈ rest, e'.peerRank ≠ e.peerRank

/-- What `brbCallback` can do with message `P` of peer `q`. -/
inductive BrbOutcome (ok : ℤ → Bool) (b : Brb) (q : ℤ) (P : CString) : Brb → BrbEffects → Prop
  | ignored
      (hs : ∀ body, tryParseMessage P SEND_CODE = some body → b.sentEcho = true ∨ q ≠ b.senderRank)
      (he : ∀ body, tryParseMessage P ECHO_CODE = some body → seen b.echos q = true)
      (hr : ∀ body, tryParseMessage P READY_CODE = some body → seen b.readys q = true) :
      BrbOutcome ok b q P b []
  | echoed (body : CString) (hP : tryParseMessage P SEND_CODE = some body)
      (hs : b.sentEcho = false) (hq : q = b.senderRank) :
      BrbOutcome ok b q P { b with sentEcho := true } (broadcastAux b ok body ECHO_CODE).1
  | echoCounted (body : CString) (hP : tryParseMessage P ECHO_CODE = some body)
      (hn : seen b.echos q = false)
      (h : getCount (b.echos ++ [⟨q, body⟩]) body ≤ quorumSize b.maxRank b.maxFaultyNodes ∨
        b.sentReady = true) :
      BrbOutcome ok b q P { b with echos := b.echos ++ [⟨q, body⟩] } []
  | echoQuorum (body : CString) (hP : tryParseMessage P ECHO_CODE = some body)
      (hn : seen b.echos q = false)
      (h : quorumSize b.maxRank b.maxFaultyNodes < getCount (b.echos ++ [⟨q, body⟩]) body)
      (hs : b.sentReady = false) :
      BrbOutcome ok b q P { b with echos := b.echos ++ [⟨q, body⟩], sentReady := true }
        (broadcastAux b ok body READY_CODE).1
  | delivered (body : CString) (hP : tryParseMessage P READY_CODE = some body)
      (hn : seen b.readys q = false)
      (h : 2 * b.maxFaultyNodes < getCount (b.readys ++ [⟨q, body⟩]) body)
      (hd : b.delivered = false) :
      BrbOutcome ok b q P { b with readys := b.readys ++ [⟨q, body⟩], delivered := true }
        [.indicate ⟨body, q⟩]
  | amplified (body : CString) (hP : tryParseMessage P READY_CODE = some body)
      (hn : seen b.readys q = false)
      (hd : getCount (b.readys ++ [⟨q, body⟩]) body ≤ 2 * b.maxFaultyNodes ∨ b.delivered = true)
      (h : b.maxFaultyNodes < getCount (b.readys ++ [⟨q, body⟩]) body) (hs : b.sentReady = false) :
      BrbOutcome ok b q P { b with readys := b.readys ++ [⟨q, body⟩], sentReady := true }
        (broadcastAux b ok body READY_CODE).1
  | readyCounted (body : CString) (hP : tryParseMessage P READY_CODE = some body)
      (hn : seen b.readys q = false)
      (hd : getCount (b.readys ++ [⟨q, body⟩]) body ≤ 2 * b.maxFaultyNodes ∨ b.delivered = true)
      (h : getCount (b.readys ++ [⟨q, body⟩]) body ≤ b.maxFaultyNodes ∨ b.sentReady = true) :
      BrbOutcome ok b q P { b with readys := b.readys ++ [⟨q, body⟩] } []

/-- Two codes of one length cannot both head a message. -/
theorem tryParseMessage_code {P c c' body body' : CString} (hlen : c.length = c'.length)
    (h : tryParseMessage P c = some body) (h' : tryParseMessage P c' = some body') : c = c' :=
  (List.prefix_of_prefix_length_le (tryParseMessage_eq_some.mp h).1
    (tryParseMessage_eq_some.mp h').1 hlen.le).eq_of_length hlen

/-- A message under another code is none under this one. -/
theorem tryParseMessage_eq_none {P c c' body : CString} (hlen : c.length = c'.length) (hne : c ≠ c')
    (h : tryParseMessage P c = some body) : tryParseMessage P c' = none := by
  cases h' : tryParseMessage P c' with
  | none => rfl
  | some body' => exact absurd (tryParseMessage_code hlen h h') hne

@[simp] theorem codes_ne : SEND_CODE ≠ ECHO_CODE ∧ SEND_CODE ≠ READY_CODE ∧ ECHO_CODE ≠ READY_CODE := by
  decide

@[simp] theorem codes_ne_symm : ECHO_CODE ≠ SEND_CODE ∧ READY_CODE ≠ SEND_CODE ∧ READY_CODE ≠ ECHO_CODE := by
  decide

theorem handleSend_outcome {ok : ℤ → Bool} {b : Brb} {q : ℤ} {P body : CString}
    (hP : tryParseMessage P SEND_CODE = some body) :
    BrbOutcome ok b q P (handleSend b ok q body).1 (handleSend b ok q body).2 := by
  unfold handleSend
  split_ifs with h
  · refine .ignored (fun _ _ => ?_) (fun _ he => ?_) (fun _ hr => ?_)
    · simpa using h
    · exact absurd (tryParseMessage_code (by decide) hP he) codes_ne.1
    · exact absurd (tryParseMessage_code (by decide) hP hr) codes_ne.2.1
  · rw [Bool.or_eq_true, decide_eq_true_eq, not_or, not_not, Bool.not_eq_true] at h
    exact .echoed body hP h.1 h.2

theorem handleEcho_outcome {ok : ℤ → Bool} {b : Brb} {q : ℤ} {P body : CString}
    (hP : tryParseMessage P ECHO_CODE = some body) :
    BrbOutcome ok b q P (handleEcho b ok q body).1 (handleEcho b ok q body).2 := by
  unfold handleEcho
  split_ifs with h
  · refine .ignored (fun _ hs => ?_) (fun _ _ => h) (fun _ hr => ?_)
    · exact absurd (tryParseMessage_code (by decide) hs hP) codes_ne.1
    · exact absurd (tryParseMessage_code (by decide) hP hr) codes_ne.2.2
  · rw [Bool.not_eq_true] at h
    dsimp only
    split_ifs with hc
    · rw [Bool.and_eq_true, decide_eq_true_eq, Bool.not_eq_true'] at hc
      exact .echoQuorum body hP h hc.1 hc.2
    · rw [Bool.and_eq_true, decide_eq_true_eq, Bool.not_eq_true', not_and_or, not_lt,
        Bool.not_eq_false] at hc
      exact .echoCounted body hP h hc

theorem handleReady_outcome {ok : ℤ → Bool} {b : Brb} {q : ℤ} {P body : CString}
    (hP : tryParseMessage P READY_CODE = some body) :
    BrbOutcome ok b q P (handleReady b ok q body).1 (handleReady b ok q body).2 := by
  unfold handleReady
  split_ifs with h
  · refine .ignored (fun _ hs => ?_) (fun _ he => ?_) (fun _ _ => h)
    · exact absurd (tryParseMessage_code (by decide) hs hP) codes_ne.2.1
    · exact absurd (tryParseMessage_code (by decide) he hP) codes_ne.2.2
  · rw [Bool.not_eq_true] at h
    dsimp only
    split_ifs with hd hc
    · rw [Bool.and_eq_true, decide_eq_true_eq, Bool.not_eq_true'] at hd
      exact .delivered body hP h hd.1 hd.2
    all_goals
      rw [Bool.and_eq_true, decide_eq_true_eq, Bool.not_eq_true', not_and_or, not_lt,
        Bool.not_eq_false] at hd
    · rw [Bool.and_eq_true, decide_eq_true_eq, Bool.not_eq_true'] at hc
      exact .amplified body hP h hd hc.1 hc.2
    · rw [Bool.and_eq_true, decide_eq_true_eq, Bool.not_eq_true', not_and_or, not_lt,
        Bool.not_eq_false] at hc
      exact .readyCounted body hP h hd hc

theorem brbCallback_outcome (ok : ℤ → Bool) (b : Brb) (q : ℤ) (P : CString) :
    BrbOutcome ok b q P (brbCallback b ok ⟨P, q⟩).1 (brbCallback b ok ⟨P, q⟩).2 := by
  unfold brbCallback
  dsimp only
  split
  · next body hs => exact handleSend_outcome hs
  · next hs =>
    split
    · next body he => exact handleEcho_outcome he
    · next he =>
      split
      · next body hr => exact handleReady_outcome hr
      · next hr => exact .ignored (by simp [hs]) (by simp [he]) (by simp [hr])

end DSA
