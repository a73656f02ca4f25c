import DistributedAbstractions.Proofs.BrbProgress
import DistributedAbstractions.Proofs.BrbSafety

/-! Totality of the Byzantine broadcast when no `sendto` fails: the READYs behind one
delivery reach every correct peer, are amplified by all of them, and all deliver. -/

namespace DSA

open CLib Net Trans

section

variable {config : BrbConfig} {byz : Finset ℤ}
  {guard : BrbState → Event Unit CString CString → Prop}
  {evs : List (Event Unit CString CString)} {s : BrbState}

theorem broadcastAux_noFailure (b : Brb) (u : Unit) (msg code : CString) :
    (broadcastAux b (noFailure u) msg code).1 =
      (ranks b.maxRank).map (.send · (payload code msg)) := by
  have hok : ∀ r ∈ ranks b.maxRank, noFailure u r = true := fun _ _ => rfl
  rw [broadcastAux, sendLoop_of_ok hok]

theorem ready_to_all (h : Run (brbSystem noFailure config byz) guard evs s) {x : ℤ}
    (hx : (s.proc x).state.sentReady = true) : ∃ b, ReadyCause (s.proc x) b ∧
      READY_CODE.length + b.length + 1 < MAX_MSG_LEN ∧
      ∀ y ∈ peers config.maxRank, .send y (payload READY_CODE b) ∈ (s.proc x).effects := by
  have hl := brb_local_of_run h x
  rcases hl.ready_round with ⟨h0, -⟩ | ⟨-, u, b, hb, hs⟩
  · rw [hx] at h0; cases h0
  · refine ⟨b, hb, hb.elim (fun h' => short_of_count echo_mem_codes (echos_genuine h) h')
      (fun h' => short_of_count ready_mem_codes (readys_genuine h) h'), fun y hy => ?_⟩
    have hmem : .send y (payload READY_CODE b) ∈ codeSends READY_CODE (s.proc x).effects := by
      rw [hs, broadcastAux_noFailure, hl.maxRank]
      exact List.mem_map_of_mem (mem_ranks.mpr hy)
    exact (mem_codeSends.mp hmem).1

theorem sentReady_of_sent (h : Run (brbSystem noFailure config byz) guard evs s) {x : ℤ}
    {m : CString} (hm : SentCode s x READY_CODE m) : (s.proc x).state.sentReady = true := by
  obtain ⟨d, P, hP, -⟩ := hm.mem_codeSends
  rcases (brb_local_of_run h x).ready_round with ⟨-, hn⟩ | ⟨h1, -⟩
  · rw [hn] at hP; cases hP
  · exact h1

theorem sentCode_of_send {x y : ℤ} {code b : CString}
    (hlen : code.length + b.length + 1 < MAX_MSG_LEN)
    (h : .send y (payload code b) ∈ (s.proc x).effects) : SentCode s x code b :=
  ⟨y, _, h, by rw [payload_of_length hlen, tryParseMessage_eq_some]; simp [DELIM_LEN]⟩

theorem ready_entry_of_quiet (h : Run (brbSystem noFailure config byz) guard evs s)
    (hquiet : Quiet s (peers config.maxRank \ byz)) {x y : ℤ} (hx : x ∈ peers config.maxRank \ byz)
    (hy : y ∈ peers config.maxRank \ byz) {m : CString} (hm : SentCode s x READY_CODE m) :
    y ∈ peers config.maxRank ∧ ⟨x, m⟩ ∈ (s.proc y).state.readys := by
  have hy' := (Finset.mem_sdiff.mp hy).1
  obtain ⟨b, -, hlen, hsend⟩ := ready_to_all h (sentReady_of_sent h hm)
  have hin := receive_of_handled h (handled_of_quiet h hquiet hx hy (hsend y hy'))
  obtain ⟨b', hb'⟩ := (brb_progress h (not_crashed rfl h y)).ready_counted _ _ hin
    (by rw [payload_of_length hlen]; rfl)
  have hsent := (readys_genuine h hb').2.2 (Finset.mem_sdiff.mp hx).2
  exact ⟨hy', hm.unique (brb_local_of_run h x).ready_round hsent ▸ hb'⟩

theorem card_le_count {list : List ReadyEntry} {m : CString} {Q : Finset ℤ}
    (hQ : ∀ x ∈ Q, ⟨x, m⟩ ∈ list) : Q.card ≤ getCount list m := by
  calc Q.card ≤ (voters list m).card := Finset.card_le_card fun x hx => mem_voters.mpr (hQ x hx)
    _ ≤ ((list.filter (·.msg = m)).map (·.peerRank)).length := List.toFinset_card_le _
    _ = getCount list m := by rw [List.length_map, getCount, List.countP_eq_length_filter]

theorem delivered_of_count (h : Run (brbSystem noFailure config byz) guard evs s) {y : ℤ}
    {m : CString} (hc : 2 * config.maxFaultyNodes < getCount (s.proc y).state.readys m) :
    indications (s.proc y).effects ≠ [] := by
  have hl := brb_local_of_run h y
  have hd := (brb_progress h (not_crashed rfl h y)).delivered m (by rw [hl.maxFaultyNodes]; exact hc)
  rcases hl.indicated with ⟨h0, -⟩ | ⟨-, d, hi, -⟩
  · rw [hd] at h0; cases h0
  · rw [hi]; exact List.cons_ne_nil _ _

end

section

variable {config : BrbConfig} {byz : Finset ℤ} {evs : List (Event Unit CString CString)} {s : BrbState}

/-- If `max_faulty_nodes + 1` correct peers have sent READY for `m`, then in a quiet
state all correct peers have, unless one READY is enough to deliver. -/
theorem ready_spreads (hbyz : byz.card ≤ config.maxFaultyNodes)
    (hq : config.maxRank + config.maxFaultyNodes <
      2 * (quorumSize config.maxRank config.maxFaultyNodes + 1))
    (h : Run (brbSystem noFailure config byz) ScanComplete evs s)
    (hquiet : Quiet s (peers config.maxRank \ byz)) {m : CString} {Q : Finset ℤ}
    (hQ : ∀ x ∈ Q, x ∈ peers config.maxRank \ byz ∧ SentCode s x READY_CODE m)
    (hcard : config.maxFaultyNodes < Q.card) (hf : 0 < config.maxFaultyNodes) {y : ℤ}
    (hy : y ∈ peers config.maxRank \ byz) : SentCode s y READY_CODE m := by
  have hl := brb_local_of_run h y
  have hcount := card_le_count fun x hx =>
    (ready_entry_of_quiet h hquiet (hQ x hx).1 hy (hQ x hx).2).2
  have hsent := (brb_progress h (not_crashed rfl h y)).amplified (by rw [hl.maxFaultyNodes]; exact hf)
    m (by rw [hl.maxFaultyNodes]; omega)
  obtain ⟨b, -, hlen, hall⟩ := ready_to_all h hsent
  have hb := sentCode_of_send hlen (hall y (Finset.mem_sdiff.mp hy).1)
  obtain ⟨x, hx⟩ := Finset.card_pos.mp (by omega : 0 < Q.card)
  have hcb := certified_of_ready (fun _ _ h => h) hbyz h hb
  have hcm := certified_of_ready (fun _ _ h => h) hbyz h (hQ x hx).2
  exact hcb.unique hbyz hq h hcm ▸ hb

theorem brb_total (hf : 3 * config.maxFaultyNodes < config.maxRank)
    (hbyz : byz.card ≤ config.maxFaultyNodes)
    (hq : config.maxRank + config.maxFaultyNodes ≤
      toFloat (config.maxRank + config.maxFaultyNodes) + 1)
    (h : Run (brbSystem noFailure config byz) ScanComplete evs s) : Totality config.maxRank byz s := by
  intro hquiet p _ q hqc hp
  have hl := brb_local_of_run h p
  obtain ⟨d, hcount⟩ : ∃ d : Deliver, 2 * config.maxFaultyNodes <
      getCount (s.proc p).state.readys d.msg := by
    rcases hl.indicated with ⟨-, h0⟩ | ⟨-, d, -, hc⟩
    · exact absurd h0 hp
    · exact ⟨d, by rwa [hl.maxFaultyNodes] at hc⟩
  obtain ⟨Q, hQ, hQcard, hQs⟩ := ready_voters (fun _ _ h => h) h hcount
  have hcorrect : ∀ x ∈ Q \ byz, x ∈ peers config.maxRank \ byz ∧ SentCode s x READY_CODE d.msg :=
    fun x hx =>
      have hx := Finset.mem_sdiff.mp hx
      ⟨Finset.mem_sdiff.mpr ⟨hQ hx.1, hx.2⟩, hQs x hx.1 hx.2⟩
  have hmore : config.maxFaultyNodes < (Q \ byz).card := by
    have := Quorum.card_good (Q := Q) hbyz
    omega
  rcases Nat.eq_zero_or_pos config.maxFaultyNodes with h0 | hpos
  · have hle := card_le_count fun x hx =>
      (ready_entry_of_quiet h hquiet (hcorrect x hx).1 hqc (hcorrect x hx).2).2
    exact delivered_of_count h (m := d.msg) (by omega)
  · have hle := card_le_count fun x hx => (ready_entry_of_quiet h hquiet hx hqc
      (ready_spreads hbyz (quorum_intersects hq) h hquiet hcorrect hmore hpos hx)).2
    have hall := Quorum.card_good (Q := peers config.maxRank) hbyz
    rw [card_peers] at hall
    exact delivered_of_count h (m := d.msg) (by omega)

theorem plainRun_total : ∃ s, Run (brbSystem noFailure ⟨1, 1, 4⟩ {4}) ScanComplete (plainRun ()) s ∧
    deliveredAt s 1 = [['a']] ∧ Quiet s (peers 4 \ {4}) ∧ Totality 4 {4} s := by
  obtain ⟨s, hrun, hs⟩ : ∃ s, Run (brbSystem noFailure ⟨1, 1, 4⟩ {4}) ScanComplete (plainRun ()) s ∧
      (deliveredAt s 1, decide (Quiet s (peers 4 \ {4}))) = ([['a']], true) :=
    exists_run_of_exec (fun s => (deliveredAt s 1, decide (Quiet s (peers 4 \ {4}))))
      (by decide +kernel)
  obtain ⟨h1, h2⟩ := Prod.mk.inj hs
  exact ⟨s, hrun, h1, of_decide_eq_true h2,
    @brb_total ⟨1, 1, 4⟩ {4} _ _ (by decide) (by decide) (by decide) hrun⟩

/-- Two READYs of peer 4 for each of two bodies: 1 and 2 deliver, 3 counts one of each. -/
def strandedRun : List (Event Unit CString CString) :=
  [forged () 1 4 READY_CODE ['a'], forged () 1 4 READY_CODE ['a'],
   forged () 2 4 READY_CODE ['b'], forged () 2 4 READY_CODE ['b']] ++
  [1, 2, 3].flatMap fun p => [got () p 1 READY_CODE ['a'], got () p 2 READY_CODE ['b']]

theorem brb_strands : ¬ ∀ (config : BrbConfig) (byz : Finset ℤ),
    3 * config.maxFaultyNodes < config.maxRank → byz ⊆ peers config.maxRank →
    byz.card ≤ config.maxFaultyNodes → ∀ evs s,
    Run (brbSystem noFailure config byz) (fun _ _ => True) evs s → Totality config.maxRank byz s := by
  intro H
  obtain ⟨s, hrun, hs⟩ : ∃ s, Run (brbSystem noFailure ⟨1, 1, 4⟩ {4}) (fun _ _ => True) strandedRun s ∧
      (deliveredAt s 1, deliveredAt s 3, decide (Quiet s (peers 4 \ {4}))) = ([['a']], [], true) :=
    exists_run_of_exec (fun s => (deliveredAt s 1, deliveredAt s 3, decide (Quiet s (peers 4 \ {4}))))
      (by decide +kernel)
  obtain ⟨h1, hs⟩ := Prod.mk.inj hs
  obtain ⟨h3, hquiet⟩ := Prod.mk.inj hs
  refine H ⟨1, 1, 4⟩ {4} (by decide) (by decide) (by decide) _ _ hrun (of_decide_eq_true hquiet)
    1 (by decide) 3 (by decide) (fun h0 => ?_) (List.map_eq_nil_iff.mp h3)
  rw [deliveredAt, h0] at h1
  cases h1

end

end DSA
