import DistributedAbstractions.Proofs.BrbProgress
import DistributedAbstractions.Proofs.BrbTotality

/-! Validity of the Byzantine broadcast under crashes. All that is ever sent is about the
one message of the designated sender, and the peers that are left are enough for every
threshold except one: the echo quorum, which single precision can round out of reach. -/

namespace DSA

open CLib Net Trans

/-- `m` fits a message buffer together with a code. -/
def Short (m : CString) : Prop := 2 + m.length + 1 < MAX_MSG_LEN

theorem parse_payload {c m : CString} (hc : c ∈ codes) (hm : Short m) :
    tryParseMessage (payload c m) c = some m := by
  have hlen := length_of_mem_codes hc
  rw [payload_of_length (by rw [hlen]; exact hm), tryParseMessage_eq_some]
  simp [DELIM_LEN]

section

variable {config : BrbConfig} {evs : List (Event Unit CString CString)} {s s' : BrbState}
  {m : CString}

/-- The designated sender has been asked for nothing but `m`. -/
def OnlyAsked (config : BrbConfig) (m : CString) (s : BrbState) : Prop :=
  ∀ m', .call m' ∈ (s.proc config.senderRank).inputs → m' = m

theorem OnlyAsked.of_grows (hg : Grows s s') (h : OnlyAsked config m s') : OnlyAsked config m s :=
  fun m' hm' => h m' ((hg.inputs _).subset hm')

theorem said_of_sourced {p q : ℤ} {P : CString}
    (h : Sourced (brbCrashSetting config.maxRank) s p q P) : ∃ d, .send d P ∈ (s.proc q).effects :=
  said_iff.mp (h.said.resolve_left (Finset.notMem_empty q))

theorem short_of_sourced {p q : ℤ} {c : CString} (hc : c ∈ codes)
    (h : Sourced (brbCrashSetting config.maxRank) s p q (payload c m)) : Short m := by
  have hcar : (payload c m).length + 3 < MAX_MSG_LEN :=
    length_of_carried (h.carried.imp_right fun h => by cases h)
  have hlen : c.length + m.length + 1 < MAX_MSG_LEN := length_of_payload (by omega)
  rwa [length_of_mem_codes hc] at hlen

theorem send_of_crash_run (h : Run (brbCrashSystem config) (fun _ _ => True) evs s)
    (hm : OnlyAsked config m s) {d : ℤ} {P : CString}
    (hP : .send d P ∈ (s.proc config.senderRank).effects)
    (hc : (tryParseMessage P SEND_CODE).isSome = true) : P = payload SEND_CODE m := by
  obtain ⟨l, hl, hin, heff, -⟩ := brb_local h config.senderRank
  obtain ⟨m', hm', rfl⟩ := hl.send_call d P (mem_codeSends.mpr ⟨heff.subset hP, hc⟩)
  rw [hm m' (hin ▸ hm')]

theorem body_of_echoCause (h : Run (brbCrashSystem config) (fun _ _ => True) evs s)
    (hm : OnlyAsked config m s) {x : ℤ} {l : BrbProc} (hl : BrbLocal noFailure config l)
    (hin : (s.proc x).inputs = l.inputs) {b : CString} (hb : EchoCause l b) : b = m ∧ Short m := by
  obtain ⟨P, hP, hpb⟩ := hb
  rw [hl.senderRank, ← hin] at hP
  have hsrc := receive_inv h hP
  obtain ⟨d, hd⟩ := said_of_sourced hsrc
  obtain rfl := send_of_crash_run h hm hd (by simp [hpb])
  have hs := short_of_sourced send_mem_codes hsrc
  rw [parse_payload send_mem_codes hs] at hpb
  exact ⟨(Option.some.inj hpb).symm, hs⟩

def OnlySent (code m : CString) (s : BrbState) : Prop :=
  ∀ x d P, .send d P ∈ (s.proc x).effects → (tryParseMessage P code).isSome = true →
    P = payload code m ∧ Short m

theorem body_of_entry {code : CString} (hc : code ∈ codes) (honly : OnlySent code m s)
    {is : List (Input CString CString)} {list : List ReadyEntry} (hback : Backed is code list)
    (hsaid : ∀ q P, .receive q P ∈ is → ∃ d, .send d P ∈ (s.proc q).effects) {q : ℤ} {b : CString}
    (he : ⟨q, b⟩ ∈ list) : b = m ∧ Short m := by
  obtain ⟨P, hP, hpb⟩ := hback _ he
  obtain ⟨d, hd⟩ := hsaid _ _ hP
  obtain ⟨rfl, hshort⟩ := honly _ _ _ hd (by simp [hpb])
  rw [parse_payload hc hshort] at hpb
  exact ⟨(Option.some.inj hpb).symm, hshort⟩

theorem body_of_readyCause (hecho : OnlySent ECHO_CODE m s) (hready : OnlySent READY_CODE m s)
    {l : BrbProc} (hl : BrbLocal noFailure config l)
    (hsaid : ∀ q P, .receive q P ∈ l.inputs → ∃ d, .send d P ∈ (s.proc q).effects) {b : CString}
    (hb : ReadyCause l b) : b = m ∧ Short m := by
  rcases hb with hb | hb
  · obtain ⟨q, hq⟩ := exists_entry_of_count (Nat.zero_lt_of_lt hb)
    exact body_of_entry echo_mem_codes hecho hl.echo_entry hsaid hq
  · obtain ⟨q, hq⟩ := exists_entry_of_count (Nat.zero_lt_of_lt hb)
    exact body_of_entry ready_mem_codes hready hl.ready_entry hsaid hq

theorem only_echo (h : Run (brbCrashSystem config) (fun _ _ => True) evs s)
    (hm : OnlyAsked config m s) : OnlySent ECHO_CODE m s := by
  intro x d P hP hc
  obtain ⟨l, hl, hin, heff, -⟩ := brb_local h x
  have hP' := mem_codeSends.mpr ⟨heff.subset hP, hc⟩
  rcases hl.echo_round with ⟨-, hn⟩ | ⟨-, u, b, hb, hs⟩
  · rw [hn] at hP'; cases hP'
  · rw [hs] at hP'
    obtain ⟨rfl, hshort⟩ := body_of_echoCause h hm hl hin hb
    exact ⟨send_mem_sendLoop hP', hshort⟩

theorem only_ready (h : Run (brbCrashSystem config) (fun _ _ => True) evs s)
    (hm : OnlyAsked config m s) : OnlySent READY_CODE m s := by
  revert hm
  refine h.state_invariant (I := fun s => OnlyAsked config m s → OnlySent READY_CODE m s)
    (fun _ _ _ _ hP => by cases hP) ?_
  intro evs s e s' hrun ih _ hn hm x d P hP hc
  have hrun' : Run (brbCrashSystem config) (fun _ _ => True) _ s' := .snoc hrun trivial hn
  have hm₀ := hm.of_grows (grows_next hn)
  obtain ⟨l, hl, hin, heff, -⟩ := brb_local hrun' x
  have hearlier : ∀ q P', .receive q P' ∈ l.inputs → ∃ d, .send d P' ∈ (s.proc q).effects :=
    fun q P' hP' => said_of_sourced (sourced_of_next hrun hn (receive_inv hrun) (hin ▸ hP'))
  have hP' := mem_codeSends.mpr ⟨heff.subset hP, hc⟩
  rcases hl.ready_round with ⟨-, h0⟩ | ⟨-, u, b, hb, hs⟩
  · rw [h0] at hP'; cases hP'
  · rw [hs] at hP'
    obtain ⟨rfl, hshort⟩ := body_of_readyCause (only_echo hrun hm₀) (ih hm₀) hl hearlier hb
    exact ⟨send_mem_sendLoop hP', hshort⟩

theorem sent_of_call (h : Run (brbCrashSystem config) (fun _ _ => True) evs s) {p : ℤ}
    (hp : (s.proc p).crashed = false) (hm : .call m ∈ (s.proc p).inputs) {y : ℤ}
    (hy : y ∈ peers config.maxRank) : .send y (payload SEND_CODE m) ∈ (s.proc p).effects := by
  refine (local_invariant_of_live (R := fun _ l => l.state.maxRank = config.maxRank ∧
    (.call m ∈ l.inputs → .send y (payload SEND_CODE m) ∈ l.effects))
    (fun _ => ⟨rfl, fun h => by cases h⟩) ?_ h hp).2 hm
  intro _ s p u a _ _ _ _ _ ⟨hN, ih⟩
  cases hi : a.input with
  | call m' =>
    refine ⟨hN, fun hm => ?_⟩
    change .send y _ ∈ (s.proc p).effects ++ (broadcastAux (s.proc p).state (noFailure u) m' SEND_CODE).1
    rcases List.mem_append.mp hm with hm | hm
    · exact List.mem_append_left _ (ih hm)
    · cases List.mem_singleton.mp hm
      rw [broadcastAux_noFailure, hN]
      exact List.mem_append_right _ (List.mem_map_of_mem (mem_ranks.mpr hy))
  | receive q P =>
    refine ⟨?_, fun hm => List.mem_append_left _ (ih (by simpa [Proc.perform] using hm))⟩
    have hout := brbCallback_outcome (noFailure u) (s.proc p).state q P
    change (brbCallback (s.proc p).state (noFailure u) ⟨P, q⟩).1.maxRank = config.maxRank
    generalize (brbCallback (s.proc p).state (noFailure u) ⟨P, q⟩).1 = b' at hout ⊢
    generalize (brbCallback (s.proc p).state (noFailure u) ⟨P, q⟩).2 = es at hout
    cases hout <;> exact hN

end

/-- A state in which the designated sender is left and has been asked for `m`, and
nothing is on its way between those that are left. -/
structure Settled (config : BrbConfig) (m : CString) (s : BrbState) : Prop where
  reached : ∃ evs, Run (brbCrashSystem config) (fun _ _ => True) evs s
  sender : config.senderRank ∈ uncrashed config.maxRank s
  asked : calls (s.proc config.senderRank).inputs = [m]
  quiet : Quiet s (uncrashed config.maxRank s)

namespace Settled

variable {config : BrbConfig} {s : BrbState} {m : CString} (h : Settled config m s) {x y : ℤ}
include h

theorem onlyAsked : OnlyAsked config m s := fun m' hm' => by
  simpa [h.asked] using mem_calls.mpr hm'

theorem brbLocal (hx : x ∈ uncrashed config.maxRank s) : BrbLocal noFailure config (s.proc x) := by
  obtain ⟨evs, hrun⟩ := h.reached
  obtain ⟨l, hl, hsh⟩ := brb_local hrun x
  exact hsh.2.2 (mem_uncrashed.mp hx).2 ▸ hl

theorem progress (hx : x ∈ uncrashed config.maxRank s) : BrbProgress (s.proc x) := by
  obtain ⟨evs, hrun⟩ := h.reached
  exact brb_progress hrun (mem_uncrashed.mp hx).2

theorem onlySent : OnlySent ECHO_CODE m s ∧ OnlySent READY_CODE m s := by
  obtain ⟨evs, hrun⟩ := h.reached
  exact ⟨only_echo hrun h.onlyAsked, only_ready hrun h.onlyAsked⟩

theorem said {q : ℤ} {P : CString} (hP : .receive q P ∈ (s.proc x).inputs) :
    ∃ d, .send d P ∈ (s.proc q).effects := by
  obtain ⟨evs, hrun⟩ := h.reached
  exact said_of_sourced (receive_inv hrun hP)

theorem received {P : CString} (hx : x ∈ uncrashed config.maxRank s)
    (hy : y ∈ uncrashed config.maxRank s) (hP : .send y P ∈ (s.proc x).effects) :
    .receive x P ∈ (s.proc y).inputs := by
  obtain ⟨evs, hrun⟩ := h.reached
  exact receive_of_handled hrun (handled_of_quiet hrun h.quiet hx hy hP)

theorem received_send (hy : y ∈ uncrashed config.maxRank s) :
    .receive config.senderRank (payload SEND_CODE m) ∈ (s.proc y).inputs := by
  obtain ⟨evs, hrun⟩ := h.reached
  have hcall : .call m ∈ (s.proc config.senderRank).inputs := mem_calls.mp (by simp [h.asked])
  exact h.received h.sender hy
    (sent_of_call hrun (mem_uncrashed.mp h.sender).2 hcall (mem_uncrashed.mp hy).1)

theorem short : Short m := by
  obtain ⟨evs, hrun⟩ := h.reached
  exact short_of_sourced send_mem_codes (receive_inv hrun (h.received_send h.sender))

theorem card_le_count {code : CString} (hc : code ∈ codes) (honly : OnlySent code m s)
    {list : List ReadyEntry} (hy : y ∈ uncrashed config.maxRank s)
    (hcounted : Counted (s.proc y).inputs code list) (hback : Backed (s.proc y).inputs code list)
    (hround : ∀ {x}, x ∈ uncrashed config.maxRank s → codeSends code (s.proc x).effects =
      (ranks config.maxRank).map (.send · (payload code m))) :
    (uncrashed config.maxRank s).card ≤ getCount list m := by
  apply DSA.card_le_count
  intro x hx
  have hs : .send y (payload code m) ∈ codeSends code (s.proc x).effects := by
    rw [hround hx]
    exact List.mem_map_of_mem (mem_ranks.mpr (mem_uncrashed.mp hy).1)
  obtain ⟨b, hb⟩ := hcounted _ _ (h.received hx hy (mem_codeSends.mp hs).1)
    (by simp [parse_payload hc h.short])
  exact (body_of_entry hc honly hback (fun _ _ => h.said) hb).1 ▸ hb

theorem echoed (hx : x ∈ uncrashed config.maxRank s) : codeSends ECHO_CODE (s.proc x).effects =
    (ranks config.maxRank).map (.send · (payload ECHO_CODE m)) := by
  obtain ⟨evs, hrun⟩ := h.reached
  have hl := h.brbLocal hx
  have hset := (h.progress hx).echoed _ (by rw [hl.senderRank]; exact h.received_send hx)
    (by rw [parse_payload send_mem_codes h.short]; rfl)
  rcases hl.echo_round with ⟨h0, -⟩ | ⟨-, u, b, hb, hs⟩
  · rw [hset] at h0; cases h0
  · rw [hs, (body_of_echoCause hrun h.onlyAsked hl rfl hb).1, broadcastAux_noFailure, hl.maxRank]

theorem readied (hx : x ∈ uncrashed config.maxRank s)
    (hq : quorumSize config.maxRank config.maxFaultyNodes < (uncrashed config.maxRank s).card) :
    codeSends READY_CODE (s.proc x).effects =
      (ranks config.maxRank).map (.send · (payload READY_CODE m)) := by
  have hl := h.brbLocal hx
  have hcount := h.card_le_count echo_mem_codes h.onlySent.1 hx (h.progress hx).echo_counted
    hl.echo_entry h.echoed
  have hset := (h.progress hx).quorum m (by rw [hl.maxRank, hl.maxFaultyNodes]; omega)
  rcases hl.ready_round with ⟨h0, -⟩ | ⟨-, u, b, hb, hs⟩
  · rw [hset] at h0; cases h0
  · rw [hs, (body_of_readyCause h.onlySent.1 h.onlySent.2 hl (fun _ _ => h.said) hb).1,
      broadcastAux_noFailure, hl.maxRank]

theorem deliveredAt_eq (hx : x ∈ uncrashed config.maxRank s)
    (hq : quorumSize config.maxRank config.maxFaultyNodes < (uncrashed config.maxRank s).card)
    (hf : 2 * config.maxFaultyNodes < (uncrashed config.maxRank s).card) :
    deliveredAt s x = [m] := by
  have hl := h.brbLocal hx
  have hcount := h.card_le_count ready_mem_codes h.onlySent.2 hx (h.progress hx).ready_counted
    hl.ready_entry fun hx => h.readied hx hq
  have hset := (h.progress hx).delivered m (by rw [hl.maxFaultyNodes]; omega)
  rcases hl.indicated with ⟨h0, -⟩ | ⟨-, d, hd, hc⟩
  · rw [hset] at h0; cases h0
  · obtain ⟨q, hqe⟩ := exists_entry_of_count (Nat.zero_lt_of_lt hc)
    rw [deliveredAt, hd, List.map_singleton,
      (body_of_entry ready_mem_codes h.onlySent.2 hl.ready_entry (fun _ _ => h.said) hqe).1]

end Settled

theorem valid_of_quorum {config : BrbConfig} (hf : 3 * config.maxFaultyNodes < config.maxRank)
    (hq : quorumSize config.maxRank config.maxFaultyNodes < config.maxRank - config.maxFaultyNodes)
    {evs : List (Event Unit CString CString)} {s : BrbState}
    (h : Run (brbCrashSystem config) (fun _ _ => True) evs s) (m : CString) : Validity config m s := by
  intro hsnd hcard hcalls hquiet p hp
  have hset : Settled config m s := ⟨⟨evs, h⟩, hsnd, hcalls, hquiet⟩
  exact ⟨hset.echoed hp, hset.readied hp (by omega), hset.deliveredAt_eq hp (by omega) (by omega)⟩

end DSA
