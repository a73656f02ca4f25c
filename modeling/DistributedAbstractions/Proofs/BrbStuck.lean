import DistributedAbstractions.Lib.Quiesce
import DistributedAbstractions.Proofs.BrbValidity

/-! Runs of the Byzantine broadcast that end without a READY: `max_faulty_nodes` peers are
down, the others exchange all their ECHOs, and the rounded echo quorum is larger than
what is left. -/

namespace DSA

open CLib Net Trans

def isEcho : Input CString CString → Bool
  | .call _ => false
  | .receive _ P => (tryParseMessage P ECHO_CODE).isSome

theorem echos_length_le {config : BrbConfig} {F : Setting CString}
    {guard : BrbState → Event Unit CString CString → Prop} {evs : List (Event Unit CString CString)}
    {s : BrbState} (h : Run (system (brbProtocol noFailure config) F) guard evs s) {p : ℤ}
    (hp : (s.proc p).crashed = false) :
    (s.proc p).state.echos.length ≤ ((s.proc p).inputs.filter isEcho).length := by
  refine local_invariant_of_live (R := fun _ l =>
    l.state.echos.length ≤ (l.inputs.filter isEcho).length) (fun _ => le_rfl) ?_ h hp
  intro _ s p u a _ _ _ _ _ ih
  change ((brbProtocol noFailure config).handle u (s.proc p).state a.input).1.echos.length ≤
    (((s.proc p).inputs ++ [a.input]).filter isEcho).length
  rw [List.filter_append, List.length_append]
  cases a.input with
  | call m => exact ih.trans (Nat.le_add_right _ _)
  | receive q P =>
    have hout := brbCallback_outcome (noFailure u) (s.proc p).state q P
    change (brbCallback (s.proc p).state (noFailure u) ⟨P, q⟩).1.echos.length ≤ _
    generalize (brbCallback (s.proc p).state (noFailure u) ⟨P, q⟩).1 = b' at hout ⊢
    generalize (brbCallback (s.proc p).state (noFailure u) ⟨P, q⟩).2 = es at hout
    have counted {body : CString} (hP : tryParseMessage P ECHO_CODE = some body) :
        ((s.proc p).state.echos ++ ([⟨q, body⟩] : List ReadyEntry)).length ≤
          ((s.proc p).inputs.filter isEcho).length + ([Input.receive q P].filter isEcho).length := by
      simp [isEcho, hP, ih]
    cases hout with
    | echoCounted body hP => exact counted hP
    | echoQuorum body hP => exact counted hP
    | ignored | echoed | delivered | amplified | readyCounted => exact ih.trans (Nat.le_add_right _ _)

section

variable {config : BrbConfig} {B : Finset ℤ} {evs : List (Event Unit CString CString)} {s s' : BrbState}
  {m : CString}

/-- The peers of `B` have done nothing, the others are up, and the designated sender has
been asked for `m` at most. -/
structure Muted (config : BrbConfig) (B : Finset ℤ) (m : CString) (s : BrbState) : Prop where
  silent : ∀ p ∈ B, (s.proc p).effects = []
  up : ∀ p ∉ B, (s.proc p).crashed = false
  asked : OnlyAsked config m s

theorem Muted.of_grows (hg : Grows s s') (h : Muted config B m s') : Muted config B m s where
  silent p hp := List.prefix_nil.mp (h.silent p hp ▸ hg.effects p)
  up p hp := by
    by_contra hc
    have hc := Bool.eq_true_of_not_eq_false hc
    have hsame := hg.crashed p hc
    rw [← hsame, h.up p hp] at hc
    cases hc
  asked := h.asked.of_grows hg

theorem echo_sent_once (h : Run (brbCrashSystem config) (fun _ _ => True) evs s) {q : ℤ}
    (hq : (s.proc q).crashed = false) {P : CString} (hP : (tryParseMessage P ECHO_CODE).isSome = true)
    (y : ℤ) : (s.proc q).effects.count (.send y P) ≤ 1 := by
  obtain ⟨l, hl, hsh⟩ := brb_local h q
  obtain rfl := hsh.2.2 hq
  have hcount : (codeSends ECHO_CODE (s.proc q).effects).count (.send y P) =
      (s.proc q).effects.count (.send y P) := List.count_filter (by simpa using hP)
  rw [← hcount]
  refine List.nodup_iff_count_le_one.mp ?_ _
  rcases hl.echo_round with ⟨-, h0⟩ | ⟨-, u, b, -, hs⟩
  · rw [h0]; exact List.nodup_nil
  · rw [hs, broadcastAux_noFailure]
    exact (ranks_nodup _).map fun a b h => by cases h; rfl

theorem echos_le_card (h : Run (brbCrashSystem config) (fun _ _ => True) evs s)
    (hm : Muted config B m s) {y : ℤ} (hy : y ∉ B) :
    (s.proc y).state.echos.length ≤ (peers config.maxRank \ B).card := by
  have hsrc : ∀ {q P}, .receive q P ∈ (s.proc y).inputs →
      q ∈ peers config.maxRank \ B ∧ ∃ d, .send d P ∈ (s.proc q).effects := fun {q P} hP => by
    have hq := receive_inv h hP
    obtain ⟨d, hd⟩ := said_of_sourced hq
    refine ⟨Finset.mem_sdiff.mpr ⟨mem_peers.mpr (rank_iff.mp hq.rank), fun hb => ?_⟩, d, hd⟩
    rw [hm.silent q hb] at hd
    cases hd
  have hnodup : ((s.proc y).inputs.filter isEcho).Nodup := List.nodup_iff_count_le_one.mpr fun i => by
    by_cases hi : i ∈ (s.proc y).inputs.filter isEcho
    · obtain ⟨hin, hecho⟩ := List.mem_filter.mp hi
      cases i with
      | call m => cases hecho
      | receive q P =>
        rw [List.count_filter hecho]
        exact (count_inputs_le rfl rfl h y q P).trans (echo_sent_once h
          (hm.up q (Finset.mem_sdiff.mp (hsrc hin).1).2) hecho y)
    · rw [List.count_eq_zero.mpr hi]; exact Nat.zero_le _
  calc (s.proc y).state.echos.length ≤ ((s.proc y).inputs.filter isEcho).length :=
        echos_length_le h (hm.up y hy)
    _ = ((s.proc y).inputs.filter isEcho).toFinset.card := (List.toFinset_card_of_nodup hnodup).symm
    _ ≤ ((peers config.maxRank \ B).image
          fun q => (.receive q (payload ECHO_CODE m) : Input CString CString)).card := by
        apply Finset.card_le_card
        intro i hi
        obtain ⟨hin, hecho⟩ := List.mem_filter.mp (List.mem_toFinset.mp hi)
        cases i with
        | call m => cases hecho
        | receive q P =>
          obtain ⟨hq, d, hd⟩ := hsrc hin
          rw [(only_echo h hm.asked q d P hd hecho).1]
          exact Finset.mem_image_of_mem _ hq
    _ ≤ (peers config.maxRank \ B).card := Finset.card_image_le

theorem no_ready (hq : (peers config.maxRank \ B).card ≤
      quorumSize config.maxRank config.maxFaultyNodes)
    (h : Run (brbCrashSystem config) (fun _ _ => True) evs s) (hm : Muted config B m s) {x d : ℤ}
    {P : CString} (hP : .send d P ∈ (s.proc x).effects) :
    (tryParseMessage P READY_CODE).isSome = false := by
  revert hm x d P
  refine h.state_invariant (I := fun s => Muted config B m s → ∀ {x d : ℤ} {P : CString},
    .send d P ∈ (s.proc x).effects → (tryParseMessage P READY_CODE).isSome = false)
    (fun _ _ _ _ hP => by cases hP) ?_
  intro evs s e s' hrun ih _ hn hm x d P hP
  have hrun' : Run (brbCrashSystem config) (fun _ _ => True) _ s' := .snoc hrun trivial hn
  by_contra hc
  have hxB : x ∉ B := fun hx => by rw [hm.silent x hx] at hP; cases hP
  obtain ⟨l, hl, hsh⟩ := brb_local hrun' x
  obtain rfl := hsh.2.2 (hm.up x hxB)
  have hP' := mem_codeSends.mpr ⟨hP, Bool.eq_true_of_not_eq_false hc⟩
  rcases hl.ready_round with ⟨-, h0⟩ | ⟨-, u, b, hb | hb, -⟩
  · rw [h0] at hP'; cases hP'
  · have hlen := echos_le_card hrun' hm hxB
    have hle : getCount (s'.proc x).state.echos b ≤ (s'.proc x).state.echos.length :=
      List.countP_le_length
    rw [hl.maxRank, hl.maxFaultyNodes] at hb
    omega
  · obtain ⟨q, hqe⟩ := exists_entry_of_count (Nat.zero_lt_of_lt hb)
    obtain ⟨P', hP', hpb⟩ := hl.ready_entry _ hqe
    obtain ⟨d', hd'⟩ := said_of_sourced (sourced_of_next hrun hn (receive_inv hrun) hP')
    have := ih (hm.of_grows (grows_next hn)) hd'
    rw [hpb] at this
    cases this

end

section Quiesce

def brbWeight (b : Brb) : ℕ :=
  (if b.sentEcho then 0 else b.maxRank) + if b.sentReady then 0 else b.maxRank

theorem length_packets_broadcastAux (b : Brb) (u : Unit) (p : ℤ) (msg code : CString) :
    (packets p (broadcastAux b (noFailure u) msg code).1).length = b.maxRank := by
  have hp : (packets p ((ranks b.maxRank).map
      fun r => (.send r (payload code msg) : Effect CString Deliver))) =
      (ranks b.maxRank).map fun r => ⟨p, r, payload code msg⟩ := by
    rw [packets, List.filterMap_map, ← List.filterMap_eq_map]
    rfl
  rw [broadcastAux_noFailure, hp, List.length_map, ranks, List.length_map, List.length_range]

theorem brbWeight_callback (b : Brb) (u : Unit) (p q : ℤ) (P : CString) :
    brbWeight (brbCallback b (noFailure u) ⟨P, q⟩).1 +
      (packets p (brbCallback b (noFailure u) ⟨P, q⟩).2).length ≤ brbWeight b := by
  have hout := brbCallback_outcome (noFailure u) b q P
  generalize (brbCallback b (noFailure u) ⟨P, q⟩).1 = b' at hout ⊢
  generalize (brbCallback b (noFailure u) ⟨P, q⟩).2 = es at hout ⊢
  cases hout with
  | ignored => exact le_rfl
  | echoed body _ hs => simp [brbWeight, hs, length_packets_broadcastAux]; omega
  | echoCounted => exact le_rfl
  | echoQuorum body _ _ _ hs => simp [brbWeight, hs, length_packets_broadcastAux]
  | delivered => exact le_rfl
  | amplified body _ _ _ _ hs => simp [brbWeight, hs, length_packets_broadcastAux]
  | readyCounted => exact le_rfl

theorem blank_callback (b : Brb) (u : Unit) (q d : ℤ) {c P : CString} (hc : c ∈ codes)
    (hP : .send d P ∈ (brbCallback b (noFailure u) ⟨payload c [], q⟩).2) :
    ∃ c' ∈ codes, P = payload c' [] := by
  have hbody : ∀ {c' body}, c' ∈ codes → tryParseMessage (payload c []) c' = some body → body = [] := by
    intro c' body hc' h
    have hlen := tryParseMessage_length h
    have h2 := length_of_mem_codes hc
    have h2' := length_of_mem_codes hc'
    rw [payload_of_length (by rw [h2]; decide)] at hlen
    rw [← List.length_eq_zero_iff, hlen, h2', List.length_append, h2]
    rfl
  have hout := brbCallback_outcome (noFailure u) b q (payload c [])
  generalize (brbCallback b (noFailure u) ⟨payload c [], q⟩).1 = b' at hout
  generalize (brbCallback b (noFailure u) ⟨payload c [], q⟩).2 = es at hout hP
  cases hout with
  | ignored | echoCounted | readyCounted => cases hP
  | echoed body h =>
    obtain rfl := hbody (by decide) h
    exact ⟨ECHO_CODE, echo_mem_codes, send_mem_sendLoop hP⟩
  | echoQuorum body h =>
    obtain rfl := hbody (by decide) h
    exact ⟨READY_CODE, ready_mem_codes, send_mem_sendLoop hP⟩
  | delivered body h => simp at hP
  | amplified body h =>
    obtain rfl := hbody (by decide) h
    exact ⟨READY_CODE, ready_mem_codes, send_mem_sendLoop hP⟩

variable {config : BrbConfig} {B : Finset ℤ} {s : BrbState}

/-- The peers of `B` are down, and all traffic is about an empty message. -/
structure Blank (config : BrbConfig) (B : Finset ℤ) (s : BrbState) : Prop where
  crashed : ∀ p, (s.proc p).crashed = decide (p ∈ B)
  silent : ∀ p ∈ B, (s.proc p).effects = []
  asked : calls (s.proc config.senderRank).inputs = [[]]
  blank : ∀ k ∈ s.flight, ∃ c ∈ codes, k.msg = payload c []

theorem Blank.deliver (h : Blank config B s) {p src : ℤ} {m : CString} (hp : p ∉ B)
    (hm : ⟨src, p, m⟩ ∈ s.flight) :
    Blank config B (s.act (brbProtocol noFailure config) p () (.deliver src m) none) := by
  have hne : ∀ {q}, q ∈ B → q ≠ p := fun hq hqp => hp (hqp ▸ hq)
  refine ⟨fun q => ?_, fun q hq => ?_, ?_, fun k hk => ?_⟩
  · by_cases hqp : q = p
    · subst hqp; simpa using hp
    · rw [act_proc_ne _ s p _ _ _ hqp]; exact h.crashed q
  · rw [act_proc_ne _ s p _ _ _ (hne hq)]; exact h.silent q hq
  · by_cases hqp : config.senderRank = p
    · rw [hqp, act_inputs_self, calls, List.filterMap_append, ← calls, ← hqp, h.asked]
      rfl
    · rw [act_proc_ne _ s p _ _ _ hqp]; exact h.asked
  · rw [act_flight, List.mem_append] at hk
    rcases hk with hk | hk
    · exact h.blank k (List.mem_of_mem_erase hk)
    · obtain ⟨c, hc, rfl⟩ : ∃ c ∈ codes, m = payload c [] := h.blank _ hm
      exact blank_callback _ () src _ hc (mem_packets.mp hk).2

theorem carries_blank {k : Packet CString} {c : CString} (hc : c ∈ codes) (hm : k.msg = payload c [])
    (h0 : 0 ≤ k.src) (hmax : k.src ≤ INT_MAX) : aplCarries k = true := by
  have hfmt : (fmtInt k.src).length ≤ 10 :=
    length_fmtInt_le h0 (by decide) (hmax.trans_lt (by decide))
  have hlen : (payload c []).length = 3 := by
    have h2 := length_of_mem_codes hc
    rw [payload_of_length (by rw [h2]; decide), List.length_append, h2]
    rfl
  have h1 : UUID_STR_LEN = 37 := rfl
  have h2 : SIG_HEX_LEN = 129 := rfl
  have h3 : DELIM_LEN = 1 := rfl
  have h4 : MAX_MSG_LEN = 1024 := rfl
  simp only [aplCarries, aplFrameLen, plFrameLen, hm, hlen]
  exact decide_eq_true (by omega)

theorem exists_blank (hN : config.maxRank ≤ INT_MAX) (hsnd : config.senderRank ∈ peers config.maxRank)
    (hB : B ⊆ peers config.maxRank) (hsB : config.senderRank ∉ B) :
    ∃ evs s, Run (brbCrashSystem config) (fun _ _ => True) evs s ∧ Blank config B s ∧
      Quiet s (peers config.maxRank \ B) := by
  have hcorrect : ∀ p ∈ peers config.maxRank, (brbCrashSetting config.maxRank).correct p = true :=
    fun p hp => correct_iff.mpr ⟨rank_iff.mpr (mem_peers.mp hp), Finset.notMem_empty p⟩
  obtain ⟨evs, s, hrun, hfl, -, hp⟩ := exists_crashed (P := brbProtocol noFailure config)
    (F := brbCrashSetting config.maxRank) rfl fun p hpB => hcorrect p (hB hpB)
  have hcrashed : (s.proc config.senderRank).crashed = false := by rw [hp]; simpa using hsB
  have hcall : (brbCrashSystem config).next s (.act config.senderRank () (.call []) none) =
      some (s.act (brbProtocol noFailure config) config.senderRank () (.call []) none) := by
    have hlive := live_iff.mpr ⟨hcorrect _ hsnd, hcrashed⟩
    simp [brbCrashSystem, system, next, hlive, Setting.admits]
  have hblank : Blank config B
      (s.act (brbProtocol noFailure config) config.senderRank () (.call []) none) := by
    refine ⟨fun q => ?_, fun q hq => ?_, ?_, fun k hk => ?_⟩
    · by_cases hqs : q = config.senderRank
      · subst hqs; simpa using hsB
      · rw [act_proc_ne _ s _ _ _ _ hqs, hp]
    · rw [act_proc_ne _ s _ _ _ _ fun hqs : q = config.senderRank => hsB (hqs ▸ hq), hp]
    · rw [act_inputs_self, hp]; rfl
    · have hnone : (s.consume config.senderRank (.call [])).flight = [] := hfl
      rw [act_flight, hnone, List.nil_append] at hk
      exact ⟨SEND_CODE, send_mem_codes, send_mem_sendLoop (mem_packets.mp hk).2⟩
  obtain ⟨evs', s', hrun', hb, hquiet⟩ := exists_quiet (A := peers config.maxRank \ B)
    (K := Blank config B) brbWeight ()
    (fun p st src m => brbWeight_callback st () p src m)
    (fun s p hK hpA => live_iff.mpr ⟨hcorrect p (Finset.mem_sdiff.mp hpA).1, by
      rw [hK.crashed]; simpa using (Finset.mem_sdiff.mp hpA).2⟩)
    (fun evs s k hr hK hk => by
      obtain ⟨c, hc, hkm⟩ := hK.blank k hk
      have hrank := rank_iff.mp (correct_iff.mp (correct_of_send hr (handled_sent hr (.inl hk)))).1
      have hsize : k.src ≤ config.maxRank := hrank.2
      exact carries_blank hc hkm (by omega) (by omega))
    (fun s p src m hK hpA hm => hK.deliver (Finset.mem_sdiff.mp hpA).2 hm)
    (.snoc hrun trivial hcall) hblank
  exact ⟨_, s', hrun', hb, hquiet⟩

/-- With an echo quorum of more than `max_rank - max_faulty_nodes` some run settles
without a READY. -/
theorem exists_stuck (hf : 3 * config.maxFaultyNodes < config.maxRank) (hN : config.maxRank ≤ INT_MAX)
    (hsnd : config.senderRank ∈ peers config.maxRank)
    (hq : config.maxRank - config.maxFaultyNodes ≤
      quorumSize config.maxRank config.maxFaultyNodes) :
    ∃ evs s, Run (brbCrashSystem config) (fun _ _ => True) evs s ∧ ¬ Validity config [] s := by
  obtain ⟨B, hB, hcardB⟩ := Finset.exists_subset_card_eq
    (s := (peers config.maxRank).erase config.senderRank) (n := config.maxFaultyNodes)
    (by rw [Finset.card_erase_of_mem hsnd, card_peers]; omega)
  have hBpeers : B ⊆ peers config.maxRank := hB.trans (Finset.erase_subset _ _)
  have hsB : config.senderRank ∉ B := fun h => Finset.notMem_erase _ _ (hB h)
  obtain ⟨evs, s, hrun, hb, hquiet⟩ := exists_blank hN hsnd hBpeers hsB
  have hA : uncrashed config.maxRank s = peers config.maxRank \ B := by
    ext p
    rw [mem_uncrashed, hb.crashed, decide_eq_false_iff_not, Finset.mem_sdiff]
  have hcard : (peers config.maxRank \ B).card = config.maxRank - config.maxFaultyNodes := by
    rw [Finset.card_sdiff_of_subset hBpeers, card_peers, hcardB]
  have hmuted : Muted config B [] s := ⟨hb.silent, fun p hp => by rw [hb.crashed]; simpa using hp,
    fun m hm => by simpa [hb.asked] using mem_calls.mpr hm⟩
  have hsA : config.senderRank ∈ uncrashed config.maxRank s :=
    hA ▸ Finset.mem_sdiff.mpr ⟨hsnd, hsB⟩
  refine ⟨evs, s, hrun, fun hv => ?_⟩
  obtain ⟨-, hready, -⟩ := hv hsA (by rw [hA, hcard]; omega) hb.asked (hA ▸ hquiet) _ hsA
  have hmem : .send config.senderRank (payload READY_CODE []) ∈
      codeSends READY_CODE (s.proc config.senderRank).effects := by
    rw [hready]
    exact List.mem_map_of_mem (mem_ranks.mpr hsnd)
  obtain ⟨hsend, hparse⟩ := mem_codeSends.mp hmem
  rw [no_ready (by rw [hcard]; exact hq) hrun hmuted hsend] at hparse
  cases hparse

end Quiesce

/-- Validity in all runs, for every size an `int` holds. -/
theorem brb_valid_iff {config : BrbConfig} (hf : 3 * config.maxFaultyNodes < config.maxRank)
    (hN : config.maxRank + config.maxFaultyNodes ≤ INT_MAX)
    (hsnd : config.senderRank ∈ peers config.maxRank) :
    (∀ evs s, Run (brbCrashSystem config) (fun _ _ => True) evs s → ∀ m, Validity config m s) ↔
      toFloat (config.maxRank + config.maxFaultyNodes) <
        2 * (config.maxRank - config.maxFaultyNodes) := by
  have hhalf : quorumSize config.maxRank config.maxFaultyNodes <
        config.maxRank - config.maxFaultyNodes ↔
      toFloat (config.maxRank + config.maxFaultyNodes) <
        2 * (config.maxRank - config.maxFaultyNodes) := by
    rw [quorumSize, Nat.div_lt_iff_lt_mul (by decide), Nat.mul_comm]
  rw [← hhalf]
  constructor
  · intro H
    by_contra hq
    obtain ⟨evs, s, hrun, hv⟩ := exists_stuck hf (by omega) hsnd (Nat.le_of_not_lt hq)
    exact hv (H evs s hrun [])
  · exact fun hq evs s hrun m => valid_of_quorum hf hq hrun m

theorem brb_valid_iff_four : (∀ evs s, Run (brbCrashSystem ⟨1, 1, 4⟩) (fun _ _ => True) evs s →
    ∀ m, Validity ⟨1, 1, 4⟩ m s) ↔ toFloat 5 < 6 :=
  @brb_valid_iff ⟨1, 1, 4⟩ (by decide) (by decide) (by decide)

/-- 25165829 + 8388609 rounds up to 33554440. Half of it is all that 8388609 crashes leave. -/
theorem brb_rounds_out_of_reach : ¬ ∀ config : BrbConfig,
    3 * config.maxFaultyNodes < config.maxRank → config.senderRank ∈ peers config.maxRank →
    ∀ evs s, Run (brbCrashSystem config) (fun _ _ => True) evs s → ∀ m, Validity config m s := by
  intro H
  obtain ⟨evs, s, hrun, hv⟩ := @exists_stuck ⟨1, 8388609, 25165829⟩ (by decide) (by decide) (by simp)
    (by decide)
  exact hv (H _ (by decide) (by simp) evs s hrun [])

end DSA
