import DistributedAbstractions.Proofs.ShiftLoop
import Mathlib.Data.List.TakeWhile

/-! What the authenticated link delivers does not depend on datagrams that do not verify, unless one
of them gets its hash recorded first, brings the link to its end, or leaves bytes in a buffer which
change how it or a later one is read. -/

namespace DSA

open CLib Inbox

theorem nul_notMem_cstr (mem : List Char) : NUL ∉ cstr mem := fun h => by
  simpa using List.mem_takeWhile_imp h

theorem strlen_lt {mem : List Char} (h : NUL ∈ mem) : strlen mem < mem.length := by
  apply lt_of_le_of_ne (List.takeWhile_prefix _).length_le
  intro heq
  have hall : cstr mem = mem := (List.takeWhile_prefix _).eq_of_length heq
  exact nul_notMem_cstr mem (hall.symm ▸ h)

theorem consumeMsg_callback {r : Received} {e : Deliver} (h : consumeMsg r = .callback e) :
    NUL ∉ e.msg ∧ e.msg.length < MAX_MSG_LEN := by
  unfold consumeMsg at h
  dsimp only at h
  split_ifs at h with _ _ hnul
  obtain rfl := Handled.callback.inj h
  refine ⟨nul_notMem_cstr _, ?_⟩
  generalize hk : strcspn _ ',' + DELIM_LEN = k at hnul ⊢
  have hk : 0 < k := hk ▸ Nat.succ_pos _
  apply (List.takeWhile_prefix _).length_le.trans_lt
  rw [List.length_drop]
  have := List.length_take_le MAX_MSG_LEN (r.bytes.take (MAX_MSG_LEN - 1) ++ NUL :: r.buf)
  have : MAX_MSG_LEN = 1024 := rfl
  omega

theorem plWrapper_eq {e : Deliver} (hmsg : NUL ∉ e.msg) (hlen : e.msg.length < MAX_MSG_LEN)
    (inbox : List Hash) : plWrapper inbox e =
      if idLen e ≥ UUID_STR_LEN then (inbox, .overrun)
      else if plHash e ∈ inbox then (inbox, .returned)
      else if e.msg.length < 2 * (idLen e + DELIM_LEN) then (inbox, .overrun)
      else (inbox ++ [plHash e], .callback ⟨e.msg.drop (idLen e + DELIM_LEN), e.sender⟩) := by
  have hoff : idLen e + DELIM_LEN ≤ e.msg.length + 1 := Nat.succ_le_succ (strcspn_le _ _)
  have hloop := shiftLoop_eq hmsg hlen hoff
  unfold plWrapper
  dsimp only
  split_ifs with hid hdup hshort
  · rfl
  · rfl
  · rw [if_pos hshort, Option.map_eq_none_iff] at hloop
    rw [hloop]
  · rw [if_neg hshort, Option.map_eq_some_iff] at hloop
    obtain ⟨mem, hmem, hbody⟩ := hloop
    rw [hmem]
    dsimp only
    rw [hbody]

section

variable (verify : ℤ → List ℕ → CString → Bool) (maxRank : ℕ)

theorem aplConsume_eq (l : AplLink) (r : Received) :
    aplConsume verify maxRank l r = l.read (reading verify maxRank r) := by
  cases hl : l.running with
  | false => simp [aplConsume, Receiver.read, hl]
  | true =>
    simp only [aplConsume, Receiver.read, hl, Bool.not_true, Bool.false_eq_true, if_false, if_true]
    unfold reading
    cases hr : consumeMsg r with
    | overrun => rfl
    | returned => rfl
    | callback e =>
      obtain ⟨hmsg, hlen⟩ := consumeMsg_callback hr
      dsimp only
      rw [plWrapper_eq hmsg hlen]
      by_cases hid : idLen e ≥ UUID_STR_LEN
      · rw [if_pos hid, if_pos hid]
        rfl
      rw [if_neg hid, if_neg hid]
      by_cases hshort : e.msg.length < 2 * (idLen e + DELIM_LEN)
      · rw [if_pos hshort, if_pos hshort]
        by_cases hdup : plHash e ∈ l.inbox
        · simp [Receiver.step, hdup]
        · simp [Receiver.step, hdup]
      rw [if_neg hshort, if_neg hshort]
      by_cases hdup : plHash e ∈ l.inbox
      · rw [if_pos hdup]
        cases aplWrapper verify maxRank r.sig ⟨e.msg.drop (idLen e + DELIM_LEN), e.sender⟩ <;>
          simp [Receiver.step, hdup]
      · rw [if_neg hdup]
        dsimp only
        cases aplWrapper verify maxRank r.sig ⟨e.msg.drop (idLen e + DELIM_LEN), e.sender⟩ <;>
          simp [Receiver.step, hdup, hl]

theorem aplRun_eq (rs : List Received) :
    aplRun verify maxRank rs = run (rs.map (reading verify maxRank)) := by
  rw [aplRun, run, List.foldl_map]
  exact congrArg (fun step => List.foldl step empty rs)
    (funext fun l => funext fun r => aplConsume_eq verify maxRank l r)

theorem aplEvents_eq (left : List (List Char) → List Char → Remains) (ds : List (List Char)) :
    aplEvents verify maxRank left ds = (run (readings (readingAfter verify maxRank left) ds)).delivered := by
  rw [aplEvents, aplRun_eq, map_mapPast]
  rfl

end

/-- Peer 1 has signed `hi`, and its signature is 64 times the byte `0xaa`. -/
def onlyHi (rank : ℤ) (sig : List ℕ) (msg : CString) : Bool :=
  rank = 1 && sig = List.replicate crypto_sign_BYTES 0xaa && msg = ['h', 'i']

/-- A datagram in the name of peer 1 with the message `hi`, signed with 128 times `c`. -/
def signedHi (c : Char) : Received where
  bytes := ['1', ','] ++ List.replicate (UUID_STR_LEN - 1) 'f' ++ ',' ::
    List.replicate (SIG_HEX_LEN - 1) c ++ [',', 'h', 'i']
  buf := []
  id := [NUL]
  sig := []

/-- A datagram of peer 11 leaves its second digit behind, and the genuine one is read as another of 11. -/
example : aplEvents onlyHi 2 (fun before _ => ⟨[], if before = [] then [NUL] else ['1', NUL], []⟩)
    ['1' :: (signedHi 'b').bytes, (signedHi 'a').bytes] = [] := by
  rw [aplEvents_eq]
  decide +kernel

end DSA
