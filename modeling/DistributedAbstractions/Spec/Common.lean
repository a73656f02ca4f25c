import DistributedAbstractions.Lib.CString
import DistributedAbstractions.Lib.Net
import Mathlib.Data.Finset.Card

/-! Constants, link events and the sending loop that the broadcasts share. -/

namespace DSA

open CLib Net

def MAX_MSG_LEN : ℕ := 1024
def UUID_STR_LEN : ℕ := 37
def DELIM_LEN : ℕ := 1
def INT_MAX : ℕ := 2 ^ 31 - 1
/-- libsodium's `crypto_sign_BYTES`, the length of a signature. -/
def crypto_sign_BYTES : ℕ := 64
def SIG_HEX_LEN : ℕ := crypto_sign_BYTES * 2 + 1

structure Deliver where
  msg : CString
  sender : ℤ
deriving DecidableEq

/-- The ranks a loop `for (rank = 1; rank <= max_rank; rank++)` goes through. -/
def ranks (maxRank : ℕ) : List ℤ := (List.range maxRank).map fun i : ℕ => (i : ℤ) + 1

/-- Send `msg` to the ranks in turn. A link queues the message before it reports
a failed `sendto`, and the loop is left at the first failure. -/
def sendLoop {ω : Type} (ok : ℤ → Bool) (msg : CString) : List ℤ → List (Effect CString ω) × ℤ
  | [] => ([], 0)
  | r :: rs =>
    if ok r then
      let rest : List (Effect CString ω) × ℤ := sendLoop ok msg rs
      (.send r msg :: rest.1, rest.2)
    else ([.send r msg], -1)

/-- Length of the datagram `"<rank>,<uuid>,<msg>"` of the perfect link. -/
def plFrameLen (src : ℤ) (msg : CString) : ℕ :=
  (fmtInt src).length + DELIM_LEN + (UUID_STR_LEN - 1) + DELIM_LEN + msg.length

/-- The same with the hex signature that the authenticated link puts before `msg`. -/
def aplFrameLen (src : ℤ) (msg : CString) : ℕ :=
  plFrameLen src msg + (SIG_HEX_LEN - 1) + DELIM_LEN

/-- A frame that one of the formatters has cut does not verify. -/
def aplCarries (k : Packet CString) : Bool := aplFrameLen k.src k.msg < MAX_MSG_LEN

/-- The adversary writes its own datagrams. It may leave the uuid of a frame empty, and the rank and
the signature to what it finds in the buffers. -/
def aplForges (k : Packet CString) : Bool :=
  DELIM_LEN + DELIM_LEN + DELIM_LEN + k.msg.length < MAX_MSG_LEN

/-- Authenticated links, and an adversary that plays the processes in `byz` and may also
replay what it has seen signed, to anybody: the recipient is not signed. -/
def aplSetting (maxRank : ℕ) (byz : Finset ℤ) : Setting CString where
  size := maxRank
  byz := byz
  replays := true
  crashes := false
  carries := aplCarries
  forges := aplForges

theorem length_of_carried {k : Packet CString} (h : aplCarries k = true ∨ aplForges k = true) :
    k.msg.length + 3 < MAX_MSG_LEN := by
  rcases h with h | h
  · have hlt : aplFrameLen k.src k.msg < MAX_MSG_LEN := of_decide_eq_true h
    have h2 : SIG_HEX_LEN = 129 := rfl
    simp only [aplFrameLen, plFrameLen] at hlt
    omega
  · have hlt : DELIM_LEN + DELIM_LEN + DELIM_LEN + k.msg.length < MAX_MSG_LEN := of_decide_eq_true h
    have h1 : DELIM_LEN = 1 := rfl
    omega

def peers (maxRank : ℕ) : Finset ℤ := (ranks maxRank).toFinset

@[simp] theorem mem_peers {n : ℕ} {p : ℤ} : p ∈ peers n ↔ 1 ≤ p ∧ p ≤ n := by
  simp only [peers, ranks, List.mem_toFinset, List.mem_map, List.mem_range]
  constructor
  · rintro ⟨i, hi, rfl⟩; omega
  · exact fun h => ⟨(p - 1).toNat, by omega, by omega⟩

@[simp] theorem mem_ranks {n : ℕ} {p : ℤ} : p ∈ ranks n ↔ p ∈ peers n := List.mem_toFinset.symm

theorem ranks_nodup (n : ℕ) : (ranks n).Nodup :=
  List.nodup_range.map fun a b h => by simpa using h

@[simp] theorem card_peers (n : ℕ) : (peers n).card = n := by
  rw [peers, List.toFinset_card_of_nodup (ranks_nodup n), ranks, List.length_map, List.length_range]

/-- The processes that have not crashed. -/
def uncrashed {σ ι μ ω : Type} (n : ℕ) (s : State σ ι μ ω) : Finset ℤ :=
  (peers n).filter fun p => (s.proc p).crashed = false

theorem mem_uncrashed {σ ι μ ω : Type} {n : ℕ} {s : State σ ι μ ω} {p : ℤ} :
    p ∈ uncrashed n s ↔ p ∈ peers n ∧ (s.proc p).crashed = false := Finset.mem_filter

section SendLoop

variable {ω : Type} {ok : ℤ → Bool} {msg : CString} {rs : List ℤ}

theorem mem_sendLoop {e : Effect CString ω} (h : e ∈ (sendLoop ok msg rs).1) :
    ∃ r ∈ rs, e = .send r msg := by
  induction rs with
  | nil => cases h
  | cons r rs ih =>
    unfold sendLoop at h
    split_ifs at h with hr
    · rcases List.mem_cons.mp h with rfl | h
      · exact ⟨r, by simp, rfl⟩
      · obtain ⟨r', hr', rfl⟩ := ih h
        exact ⟨r', by simp [hr'], rfl⟩
    · exact ⟨r, by simp, by simpa using h⟩

theorem send_mem_sendLoop {d : ℤ} {m : CString}
    (h : (Effect.send d m : Effect CString ω) ∈ (sendLoop ok msg rs).1) : m = msg := by
  obtain ⟨r, -, hr⟩ := mem_sendLoop h
  cases hr
  rfl

theorem indicate_notMem_sendLoop {o : ω} : .indicate o ∉ (sendLoop ok msg rs).1 := fun h => by
  obtain ⟨r, -, hr⟩ := mem_sendLoop h
  cases hr

@[simp] theorem indications_sendLoop :
    indications (sendLoop ok msg rs : List (Effect CString ω) × ℤ).1 = [] := by
  rw [indications, List.filterMap_eq_nil_iff]
  intro e he
  obtain ⟨r, -, rfl⟩ := mem_sendLoop he
  rfl

/-- Without failures every rank gets one copy. -/
theorem sendLoop_of_ok (hok : ∀ r ∈ rs, ok r = true) :
    (sendLoop ok msg rs : List (Effect CString ω) × ℤ) = (rs.map (.send · msg), 0) := by
  induction rs with
  | nil => rfl
  | cons r rs ih => simp [sendLoop, hok r, ih fun r' h => hok r' (by simp [h])]

end SendLoop

end DSA
